import NixstrCache.Blossom.Quarantine

/-!
The sizes that requests declare of a blob.

A fetch compares the size of what it has transferred with the one that its own request declares.  A
request that finds the blob in the store, or waits for the fetch of another request, gets it without a
comparison.
-/

namespace NixstrCache.Blossom

open Runs Persistence

variable {hash : Bytes → String} {expected : String}

namespace Fetches

section Sizes

variable {s : Fetches} {e : FetchEvent} {stored : Option Bytes} {quarantined : List String}

/-- Who declares a size gets a blob of that size. -/
def Declared (s : Fetches) : Prop :=
  ∀ id size content, s.callers id = .returned (some size) content → content.length = size

/-- A new request that declares a size finds the blob stored with that size, or the fetch under way
declares it too, or it starts a fetch of its own. -/
def Agrees (s : Fetches) (e : FetchEvent) : Prop :=
  ∀ id sources limits size, e = .call id sources limits → s.callers id = .idle →
    limits.declaredSize = some size →
      match s.stored with
      | some content => content.length = size
      | none => ∀ p, s.inflight = some p → p.limits.declaredSize = some size

def SizeOf (hash : Bytes → String) (expected : String) (size : ℕ) : Prop :=
  ∀ content, hash content = expected → content.length = size

structure Sized (hash : Bytes → String) (expected : String) (s : Fetches) : Prop where
  declared : s.Declared
  waiting : ∀ id size, s.callers id = .waiting (some size) →
    ∃ p, s.inflight = some p ∧ p.limits.declaredSize = some size
  resuming : ∀ id size, s.callers id = .resuming (some size) → SizeOf hash expected size
  settled : ∀ p size, s.inflight = some p → p.phase = .settled true →
    p.limits.declaredSize = some size → SizeOf hash expected size

theorem setCaller_sized (h : s.Sized hash expected) {id : ℕ} {caller : Caller}
    (hreturned : ∀ size content, caller = .returned (some size) content → content.length = size)
    (hwaiting : ∀ size, caller = .waiting (some size) →
      ∃ p, s.inflight = some p ∧ p.limits.declaredSize = some size)
    (hresuming : ∀ size, caller ≠ .resuming (some size)) :
    (s.setCaller id caller).Sized hash expected := by
  refine ⟨?_, ?_, ?_, h.settled⟩
  · intro i size content hi
    simp only [setCaller] at hi
    split_ifs at hi
    · exact hreturned size content hi
    · exact h.declared i size content hi
  · intro i size hi
    simp only [setCaller] at hi
    split_ifs at hi
    · exact hwaiting size hi
    · exact h.waiting i size hi
  · intro i size hi
    simp only [setCaller] at hi
    split_ifs at hi
    · exact absurd hi (hresuming size)
    · exact h.resuming i size hi

theorem call_sized (h : s.Sized hash expected) {id : ℕ} {sources : List SourceCandidate}
    {limits : FetchLimits} (hagrees : s.Agrees (.call id sources limits)) :
    (s.call id sources limits).Sized hash expected := by
  unfold call
  split_ifs with hidle
  · exact h
  rw [not_not] at hidle
  have hsame := fun size => hagrees id sources limits size rfl hidle
  split
  next content hcontent =>
    simp only [hcontent] at hsame
    refine setCaller_sized h ?_ nofun nofun
    intro size body heq
    simp only [Caller.returned.injEq] at heq
    obtain ⟨hsize, rfl⟩ := heq
    exact hsame size hsize
  next hnone =>
    simp only [hnone] at hsame
    have hstart : Sized hash expected
        { s with inflight := s.inflight.or (some (.start sources limits s.quarantined)) } := by
      refine ⟨h.declared, ?_, h.resuming, ?_⟩
      · intro i size hi
        obtain ⟨p, hp, hsize⟩ := h.waiting i size hi
        exact ⟨p, by simp [hp], hsize⟩
      · intro p size hp hphase hsize
        rcases Option.or_eq_some_iff.mp hp with hold | ⟨-, hnew⟩
        · exact h.settled p size hold hphase hsize
        · cases hnew
          cases hphase
    refine setCaller_sized hstart nofun ?_ nofun
    intro size heq
    simp only [Caller.waiting.injEq] at heq
    cases hinflight : s.inflight with
    | none => exact ⟨_, rfl, heq⟩
    | some p => exact ⟨p, rfl, hsame size heq p hinflight⟩

theorem populate_sized (hinjective : Function.Injective hash) (hs : s.Sound hash expected)
    (h : s.Sized hash expected) (event : PopulateEvent) :
    (s.populate hash expected event).Sized hash expected := by
  unfold populate
  split
  · exact h
  next p hp =>
    have hcases := Population.step_cases (e := event) hash expected (hs.phase p hp)
    have hlimits : (p.step hash expected s.quarantined event).population.limits = p.limits := by
      rcases hcases with ⟨hgoes, -⟩ | ⟨source, t, -, -, hleaves⟩
      · exact hgoes.limits
      · obtain ⟨phase, -, hpopulation⟩ := hleaves.population
        rw [hpopulation]
        rfl
    refine ⟨h.declared, ?_, h.resuming, ?_⟩
    · intro id size hid
      obtain ⟨q, hq, hsize⟩ := h.waiting id size hid
      rw [hp] at hq
      cases hq
      exact ⟨_, rfl, by rw [hlimits, hsize]⟩
    · rintro _ size ⟨⟩ hphase hsize
      rw [hlimits] at hsize
      rcases hcases with ⟨hgoes, -⟩ | ⟨source, t, -, -, hleaves⟩
      · exact h.settled p size hp (hgoes.unsettled hphase) hsize
      · obtain ⟨hstores, hall⟩ := hleaves.settled hphase
        obtain ⟨hhash, -⟩ := hleaves.stores t.received hstores
        intro content hcontent
        rw [hinjective (hcontent.trans hhash.symm)]
        simpa [hsize, eq_comm] using hall

theorem land_sized (h : s.Sized hash expected) : s.land.Sized hash expected := by
  unfold land
  split
  · exact h
  next p hp =>
    split
    next ok hphase =>
      refine ⟨?_, ?_, ?_, nofun⟩
      · intro id size content hid
        apply h.declared id size content
        cases hold : s.callers id with
        | waiting declaredSize => cases ok <;> simp [Caller.wake, hold] at hid
        | returned declaredSize body => simpa [Caller.wake, hold] using hid
        | _ => simp [Caller.wake, hold] at hid
      · intro id size hid
        cases hold : s.callers id with
        | waiting declaredSize => cases ok <;> simp [Caller.wake, hold] at hid
        | _ => simp [Caller.wake, hold] at hid
      · intro id size hid
        cases hold : s.callers id with
        | waiting declaredSize =>
          cases ok with
          | false => simp [Caller.wake, hold] at hid
          | true =>
            simp only [Caller.wake, hold, if_true, Caller.resuming.injEq] at hid
            rw [hid] at hold
            obtain ⟨q, hq, hsize⟩ := h.waiting id size hold
            rw [hp] at hq
            cases hq
            exact h.settled p size hp hphase hsize
        | resuming declaredSize =>
          have hresuming : s.callers id = .resuming (some size) := by
            simpa [Caller.wake, hold] using hid
          exact h.resuming id size hresuming
        | _ => simp [Caller.wake, hold] at hid
    · exact h

theorem resume_sized (hs : s.Sound hash expected) (h : s.Sized hash expected) (id : ℕ) :
    (s.resume id).Sized hash expected := by
  unfold resume
  split
  next declaredSize hcaller =>
    split
    next content hcontent =>
      refine setCaller_sized h ?_ nofun nofun
      intro size body heq
      simp only [Caller.returned.injEq] at heq
      obtain ⟨rfl, rfl⟩ := heq
      exact h.resuming id size hcaller _ (hs.stored _ hcontent)
    · exact setCaller_sized h nofun nofun nofun
  · exact h

theorem step_sized (hinjective : Function.Injective hash) (hs : s.Sound hash expected)
    (h : s.Sized hash expected) (hagrees : s.Agrees e) : (s.step hash expected e).Sized hash expected := by
  cases e with
  | call id sources limits => exact call_sized h hagrees
  | populate event => exact populate_sized hinjective hs h event
  | land => exact land_sized h
  | resume id => exact resume_sized hs h id
  | evict => exact ⟨h.declared, h.waiting, h.resuming, h.settled⟩
  | store content =>
    simp only [step]
    split_ifs
    · exact ⟨h.declared, h.waiting, h.resuming, h.settled⟩
    · exact h

/-- Who declares a size gets a blob of that size, as long as each new request that declares a size
agrees with what is stored or under way. -/
theorem declared_sizes_kept (hinjective : Function.Injective hash)
    (hstored : ∀ content, stored = some content → hash content = expected) {labels : List FetchEvent}
    (hagrees : Always (step hash expected) Agrees (initial stored quarantined) labels) :
    (run (step hash expected) (initial stored quarantined) labels).Declared := by
  have hinitial : (initial stored quarantined).Sized hash expected := ⟨nofun, nofun, nofun, nofun⟩
  have hboth := run_invariant
    (I := fun s : Fetches => s.Sound hash expected ∧ s.Sized hash expected)
    (fun s e hs hC => ⟨step_sound hs.1 e, step_sized hinjective hs.1 hs.2 hC⟩)
    ⟨initial_sound hstored quarantined, hinitial⟩ hagrees
  exact hboth.2.declared

end Sizes

section Samples

open Nix.StagingArea (sampleDigest sampleDigest_injective)

variable {s : Fetches} {e : FetchEvent}

/-- Two requests share a fetch, and a third one finds the blob in the store. -/
def sharedFetch : List FetchEvent :=
  [.call 1 [sampleOrigin] ⟨1, 10, some 2⟩, .call 2 [] ⟨1, 10, some 2⟩, .populate (.choose false),
    .populate (.respond 200 .absent), .populate .pull, .populate (.chunk [1, 2] false), .populate .take,
    .populate .pull, .populate .finish, .populate (.settle false false), .land, .resume 1, .resume 2,
    .call 3 [] ⟨1, 10, some 2⟩]

theorem agrees_other (h : ∀ id sources limits, e ≠ .call id sources limits) : s.Agrees e :=
  fun id sources limits _ he => absurd he (h id sources limits)

theorem declared_sizes_kept_shared :
    let s := run (step sampleDigest (sampleDigest [1, 2])) (initial none []) sharedFetch
    s.Declared ∧ ∀ id ∈ [1, 2, 3], s.callers id = .returned (some 2) [1, 2] := by
  have hagrees : Always (step sampleDigest (sampleDigest [1, 2])) Agrees (initial none []) sharedFetch := by
    refine ⟨?_, ?_, agrees_other nofun, agrees_other nofun, agrees_other nofun, agrees_other nofun,
      agrees_other nofun, agrees_other nofun, agrees_other nofun, agrees_other nofun, agrees_other nofun,
      agrees_other nofun, agrees_other nofun, ?_, trivial⟩
    · rintro _ _ _ size ⟨⟩ - ⟨⟩
      exact nofun
    · rintro _ _ _ size ⟨⟩ - ⟨⟩ p ⟨⟩
      rfl
    · rintro _ _ _ size ⟨⟩ - ⟨⟩
      rfl
  exact ⟨declared_sizes_kept sampleDigest_injective (by simp) hagrees, by decide +kernel⟩

/-- The store has the blob, and a request that declares another size of it gets it. -/
theorem stored_size_unchecked :
    ¬ (run (step sampleDigest (sampleDigest [1, 2])) (initial (some [1, 2]) [])
      [.call 1 [sampleOrigin] ⟨1, 10, some 1⟩]).Declared := by
  intro hdeclared
  exact absurd (hdeclared 1 1 [1, 2] rfl) (by decide)

end Samples

end Fetches

end NixstrCache.Blossom
