import NixstrCache.Blossom.Population
import NixstrCache.Nix.Staging

/-!
Which sources a fetch puts in quarantine.

A source belongs in quarantine when it has delivered a whole body of other bytes than the expected
ones.  The stream says that a body is complete when a read gives its end, and a read that the signal of
the request has cancelled gives the end too; so a request that gives up can put the source in
quarantine that it was reading from.
-/

namespace NixstrCache.Blossom

open Runs Persistence

variable {hash : Bytes → String} {expected : String}

section Properties

/-- What requests have got has the expected hash. -/
def Fetches.Verified (hash : Bytes → String) (expected : String) (s : Fetches) : Prop :=
  ∀ id declaredSize content, s.callers id = .returned declaredSize content → hash content = expected

/-- The fetch has put the origins in quarantine that have delivered a whole body of another hash. -/
def Fetches.Blames (hash : Bytes → String) (expected : String) (s : Fetches) : Prop :=
  ∀ p, s.inflight = some p → ∀ origin, (origin ∈ s.quarantined ∧ origin ∉ p.before) ↔
    ∃ body, (origin, body) ∈ p.delivered ∧ hash body ≠ expected

def Transfer.Ends (t : Transfer) (e : PopulateEvent) : Prop :=
  e = .storeFails ∨ (e = .reject ∧ t.errored = true) ∨
    ∃ lost throws, e = .settle lost throws ∧ t.queue = [] ∧ t.ended.isSome

/-- The step ends no attempt whose reads the signal has cancelled at other bytes than the blob. -/
def Fetches.Uncut (hash : Bytes → String) (expected : String) (s : Fetches) (e : FetchEvent) : Prop :=
  ∀ p source t event, s.inflight = some p → p.phase = .transferring source t → e = .populate event →
    t.ended = some .cancelled → hash t.received ≠ expected → ¬ t.Ends event

end Properties

section Transfers

variable {t : Transfer}

/-- What is queued and written is what has been received, until an error drops the queue. -/
structure Transfer.Sound (t : Transfer) : Prop where
  bytes : t.errored = false → t.written ++ t.queue.flatten = t.received
  open' : t.errored = true → t.ended = none ∧ t.reading = false
  ended : t.ended.isSome → t.reading = false

theorem Transfer.start_sound : Transfer.start.Sound :=
  ⟨fun _ => rfl, nofun, nofun⟩

theorem Transfer.Sound.unread (h : t.Sound) (hreading : t.reading = true) :
    t.errored = false ∧ t.ended = none := by
  constructor
  · cases herrored : t.errored with
    | false => rfl
    | true => simp [(h.open' herrored).2] at hreading
  · cases hended : t.ended with
    | none => rfl
    | some _ => simp [h.ended (by simp [hended])] at hreading

theorem Transfer.Sound.error (hended : t.ended = none) : t.error.Sound :=
  ⟨nofun, fun _ => ⟨hended, rfl⟩, fun _ => rfl⟩

theorem Transfer.Sound.close (h : t.Sound) (hreading : t.reading = true) (by' : BodyEnd) :
    (t.close by').Sound := by
  have hopen := h.unread hreading
  exact ⟨h.bytes, fun herrored => absurd (hopen.1.symm.trans herrored) (by decide), fun _ => rfl⟩

theorem Transfer.Sound.pull (h : t.Sound) (aborted : Bool) : (t.pull aborted).Sound := by
  unfold Transfer.pull
  split_ifs with hfree
  · exact Transfer.Sound.error hfree.2.2.1
  · refine ⟨h.bytes, fun herrored => ?_, fun hended => ?_⟩
    · exact absurd (hfree.2.2.2.symm.trans herrored) (by decide)
    · simp [hfree.2.2.1] at hended
  · exact h

theorem Transfer.Sound.receive (h : t.Sound) (hreading : t.reading = true) (limits : FetchLimits)
    (bytes : Bytes) (refused : Bool) : (t.receive limits bytes refused).Sound := by
  obtain ⟨herrored, hended⟩ := h.unread hreading
  unfold Transfer.receive
  split_ifs
  · exact Transfer.Sound.error hended
  · refine ⟨fun _ => ?_, fun h => absurd (herrored.symm.trans h) (by decide), fun _ => rfl⟩
    simp [← h.bytes herrored]

theorem Transfer.Sound.take (h : t.Sound) : t.take.Sound := by
  unfold Transfer.take
  split
  · exact h
  next bytes rest hqueue =>
    refine ⟨fun herrored => ?_, h.open', h.ended⟩
    simp [← h.bytes herrored, hqueue]

end Transfers

section Populating

variable {quarantined : List String} {p : Population} {source : SourceCandidate} {t : Transfer}
  {e : PopulateEvent}

/-- A source that is asked is not in quarantine. -/
def PopulatePhase.Sound (quarantined : List String) : PopulatePhase → Prop
  | .asking source => source.origin ∉ quarantined
  | .transferring source t => source.origin ∉ quarantined ∧ t.Sound
  | _ => True

structure Population.Goes (p : Population) (quarantined : List String) (r : Populated) : Prop where
  stores : r.stores = none
  quarantines : r.quarantines = none
  before : r.population.before = p.before
  limits : r.population.limits = p.limits
  delivered : r.population.delivered = p.delivered
  phase : r.population.phase.Sound quarantined
  unsettled : r.population.phase = .settled true → p.phase = .settled true

structure Population.Leaves (hash : Bytes → String) (expected : String) (p : Population)
    (source : SourceCandidate) (t : Transfer) (r : Populated) : Prop where
  population : ∃ phase, (phase = .choosing ∨ phase = .settled true) ∧
    r.population = p.leave source t phase
  quarantines : r.quarantines =
    if t.ended.isSome ∧ hash t.received ≠ expected then some source.origin else none
  stores : ∀ content ∈ r.stores, hash content = expected ∧ content = t.received
  settled : r.population.phase = .settled true →
    r.stores = some t.received ∧ (p.limits.declaredSize.all fun size => size = t.received.length) = true

theorem Population.goes_self (h : p.phase.Sound quarantined) :
    p.Goes quarantined ⟨p, none, none⟩ :=
  ⟨rfl, rfl, rfl, rfl, rfl, h, id⟩

theorem Population.goes_become {phase : PopulatePhase} (h : phase.Sound quarantined)
    (hunsettled : phase ≠ .settled true) : p.Goes quarantined (p.become phase) :=
  ⟨rfl, rfl, rfl, rfl, rfl, h, fun hsettled => absurd hsettled hunsettled⟩

theorem Population.goes_nextSource (refused : Bool) :
    p.Goes quarantined (p.nextSource quarantined refused) := by
  unfold Population.nextSource
  split
  · exact Population.goes_become trivial (by simp)
  · split_ifs with _ hquarantined
    · exact Population.goes_become trivial (by simp)
    · exact ⟨rfl, rfl, rfl, rfl, rfl, trivial, nofun⟩
    · exact Population.goes_become trivial (by simp)
    · exact ⟨rfl, rfl, rfl, rfl, rfl, hquarantined, nofun⟩

theorem Population.goes_respond (h : source.origin ∉ quarantined) (status : ℕ) (length : ContentLength) :
    p.Goes quarantined (p.respond source status length) := by
  unfold Population.respond
  split_ifs
  · exact Population.goes_become trivial (by simp)
  · exact Population.goes_become ⟨h, Transfer.start_sound⟩ (by simp)

theorem Population.goes_abort (h : p.phase.Sound quarantined) :
    p.Goes quarantined (p.step hash expected quarantined .abort) := by
  simp only [Population.step]
  unfold Population.abort
  split
  next source t hphase =>
    rw [hphase] at h
    refine ⟨rfl, rfl, rfl, rfl, rfl, ⟨h.1, ?_⟩, nofun⟩
    split_ifs with hreading
    · exact h.2.close hreading .cancelled
    · exact h.2
  next => exact ⟨rfl, rfl, rfl, rfl, rfl, h, id⟩

theorem Population.leaves_failAttempt : p.Leaves hash expected source t (p.failAttempt hash expected source t) :=
  ⟨⟨.choosing, Or.inl rfl, rfl⟩, rfl, nofun, nofun⟩

theorem Population.leaves_settle (h : t.Sound) (hqueue : t.queue = []) (hended : t.ended.isSome = true)
    (lost throws : Bool) :
    p.Leaves hash expected source t (p.settle hash expected source t lost throws) := by
  have hopen : t.errored = false := by
    cases herrored : t.errored with
    | false => rfl
    | true => simp [(h.open' herrored).1] at hended
  have hbytes : t.written = t.received := by simpa [hqueue] using h.bytes hopen
  unfold Population.settle
  by_cases hhash : hash t.written = expected
  · rw [if_neg (not_not.mpr hhash)]
    rw [hbytes] at hhash
    refine ⟨⟨_, ?_, rfl⟩, ?_, ?_, ?_⟩
    · split_ifs
      · exact Or.inr rfl
      · exact Or.inl rfl
    · simp [hhash]
    · simp [hbytes, hhash]
    · intro hsettled
      refine ⟨by rw [hbytes], ?_⟩
      by_contra hsize
      simp [Population.leave, hsize] at hsettled
  · rw [if_pos hhash]
    exact Population.leaves_failAttempt

theorem Population.transfer_cases (hash : Bytes → String) (expected : String)
    (hphase : p.phase = .transferring source t) (h : p.phase.Sound quarantined) :
    (p.Goes quarantined (p.transfer hash expected source t e) ∧ ¬ t.Ends e) ∨
      t.Ends e ∧ p.Leaves hash expected source t (p.transfer hash expected source t e) := by
  have hself := Population.goes_self h
  rw [hphase] at h
  obtain ⟨horigin, hsound⟩ := h
  have hgoes : ∀ next : Transfer, next.Sound →
      p.Goes quarantined (p.become (.transferring source next)) := fun next hnext =>
    Population.goes_become ⟨horigin, hnext⟩ (by simp)
  cases e with
  | pull => exact Or.inl ⟨hgoes _ (hsound.pull p.aborted), by simp [Transfer.Ends]⟩
  | chunk bytes refused =>
    refine Or.inl ⟨hgoes _ ?_, by simp [Transfer.Ends]⟩
    split_ifs with hreading
    · exact hsound.receive hreading p.limits bytes refused
    · exact hsound
  | finish =>
    refine Or.inl ⟨hgoes _ ?_, by simp [Transfer.Ends]⟩
    split_ifs with hreading
    · exact hsound.close hreading .finished
    · exact hsound
  | disconnect =>
    refine Or.inl ⟨hgoes _ ?_, by simp [Transfer.Ends]⟩
    split_ifs with hreading
    · exact Transfer.Sound.error (hsound.unread hreading).2
    · exact hsound
  | take => exact Or.inl ⟨hgoes _ hsound.take, by simp [Transfer.Ends]⟩
  | storeFails => exact Or.inr ⟨Or.inl rfl, Population.leaves_failAttempt⟩
  | reject =>
    simp only [Population.transfer]
    split_ifs with herrored
    · exact Or.inr ⟨Or.inr (Or.inl ⟨rfl, herrored⟩), Population.leaves_failAttempt⟩
    · exact Or.inl ⟨hself, by simp [Transfer.Ends, herrored]⟩
  | settle lost throws =>
    simp only [Population.transfer]
    split_ifs with hend
    · exact Or.inr ⟨Or.inr (Or.inr ⟨lost, throws, rfl, hend⟩),
        Population.leaves_settle hsound hend.1 hend.2 lost throws⟩
    · exact Or.inl ⟨hself, by simpa [Transfer.Ends] using hend⟩
  | _ => exact Or.inl ⟨hself, by simp [Transfer.Ends]⟩

theorem Population.step_cases (hash : Bytes → String) (expected : String)
    (h : p.phase.Sound quarantined) :
    (p.Goes quarantined (p.step hash expected quarantined e) ∧
        ∀ source t, p.phase = .transferring source t → ¬ t.Ends e) ∨
      ∃ source t, p.phase = .transferring source t ∧ t.Ends e ∧
        p.Leaves hash expected source t (p.step hash expected quarantined e) := by
  cases hphase : p.phase with
  | choosing =>
    refine Or.inl ⟨?_, nofun⟩
    cases e with
    | choose refused => simpa only [Population.step, hphase] using Population.goes_nextSource refused
    | abort => exact Population.goes_abort h
    | _ => simpa only [Population.step, hphase] using Population.goes_self h
  | asking source =>
    refine Or.inl ⟨?_, nofun⟩
    cases e with
    | refuse =>
      simp only [Population.step, hphase]
      exact Population.goes_become trivial (by simp)
    | respond status length =>
      simp only [Population.step, hphase]
      rw [hphase] at h
      exact Population.goes_respond h status length
    | abort => exact Population.goes_abort h
    | _ => simpa only [Population.step, hphase] using Population.goes_self h
  | settled ok =>
    refine Or.inl ⟨?_, nofun⟩
    cases e with
    | abort => exact Population.goes_abort h
    | _ => simpa only [Population.step, hphase] using Population.goes_self h
  | transferring source t =>
    cases e with
    | abort =>
      refine Or.inl ⟨Population.goes_abort h, ?_⟩
      rintro _ _ - (hfails | ⟨hreject, -⟩ | ⟨_, _, hsettle, -⟩)
      · cases hfails
      · cases hreject
      · cases hsettle
    | _ =>
      simp only [Population.step, hphase]
      rcases Population.transfer_cases hash expected hphase h with
        ⟨hgoes, hends⟩ | hleaves
      · refine Or.inl ⟨hgoes, ?_⟩
        rintro _ _ heq
        cases heq
        exact hends
      · exact Or.inr ⟨source, t, rfl, hleaves⟩

end Populating

section Runs

variable {s : Fetches} {e : FetchEvent} {stored : Option Bytes} {quarantined : List String}

structure Fetches.Sound (hash : Bytes → String) (expected : String) (s : Fetches) : Prop where
  stored : ∀ content, s.stored = some content → hash content = expected
  before : ∀ p, s.inflight = some p → ∀ origin ∈ p.before, origin ∈ s.quarantined
  phase : ∀ p, s.inflight = some p → p.phase.Sound s.quarantined

theorem Population.Leaves.phase_sound {p : Population} {source : SourceCandidate} {t : Transfer}
    {r : Populated} (h : p.Leaves hash expected source t r) (quarantined : List String) :
    r.population.phase.Sound quarantined := by
  obtain ⟨phase, hphase, hpopulation⟩ := h.population
  rw [hpopulation]
  rcases hphase with rfl | rfl <;> trivial

theorem Population.Leaves.before {p : Population} {source : SourceCandidate} {t : Transfer}
    {r : Populated} (h : p.Leaves hash expected source t r) : r.population.before = p.before := by
  obtain ⟨phase, -, hpopulation⟩ := h.population
  rw [hpopulation]
  rfl

theorem Fetches.populate_sound (h : s.Sound hash expected) (event : PopulateEvent) :
    (s.populate hash expected event).Sound hash expected := by
  unfold Fetches.populate
  split
  · exact h
  next p hp =>
    rcases Population.step_cases (e := event) hash expected (h.phase p hp) with
      ⟨hgoes, -⟩ | ⟨source, t, -, -, hleaves⟩
    · refine ⟨?_, ?_, ?_⟩
      · simpa [hgoes.stores] using h.stored
      · rintro _ ⟨⟩ origin horigin
        rw [hgoes.before] at horigin
        exact List.mem_append_right _ (h.before p hp origin horigin)
      · rintro _ ⟨⟩
        simpa [hgoes.quarantines] using hgoes.phase
    · refine ⟨?_, ?_, ?_⟩
      · intro content hcontent
        rcases Option.or_eq_some_iff.mp hcontent with hstores | ⟨-, hold⟩
        · exact (hleaves.stores content hstores).1
        · exact h.stored content hold
      · rintro _ ⟨⟩ origin horigin
        rw [hleaves.before] at horigin
        exact List.mem_append_right _ (h.before p hp origin horigin)
      · rintro _ ⟨⟩
        exact hleaves.phase_sound _

theorem Fetches.step_sound (h : s.Sound hash expected) (e : FetchEvent) :
    (s.step hash expected e).Sound hash expected := by
  cases e with
  | call id sources limits =>
    simp only [Fetches.step, Fetches.call]
    split_ifs
    · exact h
    split
    · exact ⟨h.stored, h.before, h.phase⟩
    · refine ⟨h.stored, ?_, ?_⟩
      · intro p hp
        rcases Option.or_eq_some_iff.mp hp with hold | ⟨-, hnew⟩
        · exact h.before p hold
        · cases hnew
          exact fun _ horigin => horigin
      · intro p hp
        rcases Option.or_eq_some_iff.mp hp with hold | ⟨-, hnew⟩
        · exact h.phase p hold
        · cases hnew
          trivial
  | populate event => exact Fetches.populate_sound h event
  | land =>
    simp only [Fetches.step, Fetches.land]
    split
    · exact h
    · split
      · exact ⟨h.stored, nofun, nofun⟩
      · exact h
  | resume id =>
    simp only [Fetches.step, Fetches.resume]
    split
    · split
      · exact ⟨h.stored, h.before, h.phase⟩
      · exact ⟨h.stored, h.before, h.phase⟩
    · exact h
  | evict => exact ⟨nofun, h.before, h.phase⟩
  | store content =>
    simp only [Fetches.step]
    split_ifs with hcontent
    · refine ⟨?_, h.before, h.phase⟩
      rintro _ ⟨⟩
      exact hcontent.1
    · exact h

theorem Fetches.setCaller_verified {id : ℕ} {caller : Caller} (hv : s.Verified hash expected)
    (hcaller : ∀ declaredSize content, caller = .returned declaredSize content →
      hash content = expected) : (s.setCaller id caller).Verified hash expected := by
  intro i declaredSize content hi
  simp only [Fetches.setCaller] at hi
  split_ifs at hi
  · exact hcaller declaredSize content hi
  · exact hv i declaredSize content hi

theorem Fetches.step_verified (h : s.Sound hash expected) (hv : s.Verified hash expected)
    (e : FetchEvent) : (s.step hash expected e).Verified hash expected := by
  cases e with
  | call id sources limits =>
    simp only [Fetches.step, Fetches.call]
    split_ifs
    · exact hv
    split
    next content hcontent =>
      refine Fetches.setCaller_verified hv ?_
      rintro _ _ ⟨⟩
      exact h.stored content hcontent
    · exact Fetches.setCaller_verified (s := { s with inflight := _ }) hv nofun
  | populate event =>
    simp only [Fetches.step, Fetches.populate]
    split <;> exact hv
  | land =>
    simp only [Fetches.step, Fetches.land]
    split
    · exact hv
    · split
      next ok _ =>
        intro id declaredSize content hid
        have hcaller : s.callers id = .returned declaredSize content := by
          cases hold : s.callers id with
          | waiting size => cases ok <;> simp [Caller.wake, hold] at hid
          | returned size body => simpa [Caller.wake, hold] using hid
          | _ => simp [Caller.wake, hold] at hid
        exact hv id declaredSize content hcaller
      · exact hv
  | resume id =>
    simp only [Fetches.step, Fetches.resume]
    split
    · split
      next content hcontent =>
        refine Fetches.setCaller_verified hv ?_
        rintro _ _ ⟨⟩
        exact h.stored content hcontent
      · exact Fetches.setCaller_verified hv nofun
    · exact hv
  | evict => exact hv
  | store content =>
    simp only [Fetches.step]
    split_ifs <;> exact hv

theorem blames_leaves {p : Population} {source : SourceCandidate} {t : Transfer} {r : Populated}
    (hinflight : s.inflight = some p) (hs : s.Sound hash expected) (hb : s.Blames hash expected)
    (horigin : source.origin ∉ s.quarantined) (h : p.Leaves hash expected source t r) :
    (∀ origin, (origin ∈ r.quarantines.toList ++ s.quarantined ∧ origin ∉ r.population.before) ↔
        ∃ body, (origin, body) ∈ r.population.delivered ∧ hash body ≠ expected) ↔
      ¬ (t.ended = some .cancelled ∧ hash t.received ≠ expected) := by
  have hfresh : source.origin ∉ p.before := fun hmem => horigin (hs.before p hinflight _ hmem)
  have hdelivered : r.population.delivered =
      if t.ended = some .finished then (source.origin, t.received) :: p.delivered
      else p.delivered := by
    obtain ⟨phase, -, hpopulation⟩ := h.population
    rw [hpopulation]
    rfl
  have hsame := hb p hinflight
  rw [h.before, h.quarantines, hdelivered]
  by_cases hhash : hash t.received = expected
  · simp only [hhash, ne_eq, not_true_eq_false, and_false, if_false, Option.toList_none,
      List.nil_append, not_false_eq_true, iff_true]
    intro origin
    rw [hsame]
    refine exists_congr fun body => and_congr_left fun hbody => ?_
    split_ifs
    · rw [List.mem_cons, or_iff_right]
      rintro ⟨⟩
      exact hbody hhash
    · rfl
  · cases hended : t.ended with
    | none => simpa [hhash] using hsame
    | some by' =>
      cases by' with
      | finished =>
        simp only [Option.isSome_some, ne_eq, hhash, not_false_eq_true, and_self, if_true,
          Option.toList_some, List.singleton_append, List.mem_cons, reduceCtorEq, Option.some.injEq,
          false_and, iff_true]
        intro origin
        constructor
        · rintro ⟨rfl | horigin, hbefore⟩
          · exact ⟨t.received, Or.inl rfl, hhash⟩
          · obtain ⟨body, hbody, hwrong⟩ := (hsame origin).mp ⟨horigin, hbefore⟩
            exact ⟨body, Or.inr hbody, hwrong⟩
        · rintro ⟨body, heq | hbody, hwrong⟩
          · cases heq
            exact ⟨Or.inl rfl, hfresh⟩
          · obtain ⟨horigin, hbefore⟩ := (hsame origin).mpr ⟨body, hbody, hwrong⟩
            exact ⟨Or.inr horigin, hbefore⟩
      | cancelled =>
        simp only [Option.isSome_some, ne_eq, hhash, not_false_eq_true, and_self, if_true,
          Option.toList_some, List.singleton_append, Option.some.injEq, reduceCtorEq, if_false,
          not_true_eq_false, iff_false]
        intro hall
        have hblamed := (hall source.origin).mp ⟨List.mem_cons_self, hfresh⟩
        exact horigin ((hsame source.origin).mpr hblamed).1

theorem Fetches.populate_blames (hs : s.Sound hash expected) (hb : s.Blames hash expected)
    (event : PopulateEvent) : (s.populate hash expected event).Blames hash expected ↔
      s.Uncut hash expected (.populate event) := by
  unfold Fetches.populate
  split
  next hnone =>
    refine iff_of_true hb ?_
    intro p _ _ _ hp
    rw [hnone] at hp
    cases hp
  next p hp =>
    have hblames : ∀ s' : Fetches, s'.Blames hash expected ↔ ∀ p, s'.inflight = some p → ∀ origin,
        (origin ∈ s'.quarantined ∧ origin ∉ p.before) ↔
          ∃ body, (origin, body) ∈ p.delivered ∧ hash body ≠ expected := fun _ => Iff.rfl
    rcases Population.step_cases (e := event) hash expected (hs.phase p hp) with
      ⟨hgoes, hends⟩ | ⟨source, t, hphase, hends, hleaves⟩
    · refine iff_of_true ?_ ?_
      · rintro _ ⟨⟩
        rw [hgoes.before, hgoes.delivered]
        simpa [hgoes.quarantines] using hb p hp
      · rintro _ source t _ hinflight hphase ⟨⟩ - -
        rw [hp] at hinflight
        cases hinflight
        exact hends source t hphase
    · have hsound := hs.phase p hp
      rw [hphase] at hsound
      have hleft := blames_leaves hp hs hb hsound.1 hleaves
      rw [hblames]
      simp only [Option.some.injEq, forall_eq']
      rw [hleft]
      constructor
      · rintro huncut p' source' t' _ hinflight hphase' ⟨⟩ hcancelled hhash
        rw [hp] at hinflight
        cases hinflight
        rw [hphase] at hphase'
        cases hphase'
        exact absurd ⟨hcancelled, hhash⟩ huncut
      · rintro huncut ⟨hcancelled, hhash⟩
        exact huncut p source t event hp hphase rfl hcancelled hhash hends

theorem Fetches.uncut_other (h : ∀ event, e ≠ .populate event) : s.Uncut hash expected e :=
  fun _ _ _ event _ _ he => absurd he (h event)

theorem Fetches.step_blames (hs : s.Sound hash expected) (hb : s.Blames hash expected)
    (e : FetchEvent) : (s.step hash expected e).Blames hash expected ↔ s.Uncut hash expected e := by
  cases e with
  | populate event => exact Fetches.populate_blames hs hb event
  | call id sources limits =>
    refine iff_of_true ?_ (Fetches.uncut_other fun _ => by simp)
    simp only [Fetches.step, Fetches.call]
    split_ifs
    · exact hb
    split
    · exact hb
    · intro p hp
      rcases Option.or_eq_some_iff.mp hp with hold | ⟨-, hnew⟩
      · exact hb p hold
      · cases hnew
        simp [Population.start, Fetches.setCaller]
  | land =>
    refine iff_of_true ?_ (Fetches.uncut_other fun _ => by simp)
    simp only [Fetches.step, Fetches.land]
    split
    · exact hb
    · split
      · exact nofun
      · exact hb
  | resume id =>
    refine iff_of_true ?_ (Fetches.uncut_other fun _ => by simp)
    simp only [Fetches.step, Fetches.resume]
    split
    · split <;> exact hb
    · exact hb
  | evict => exact iff_of_true hb (Fetches.uncut_other fun _ => by simp)
  | store content =>
    refine iff_of_true ?_ (Fetches.uncut_other fun _ => by simp)
    simp only [Fetches.step]
    split_ifs <;> exact hb

theorem Fetches.initial_sound (hstored : ∀ content, stored = some content → hash content = expected)
    (quarantined : List String) : (initial stored quarantined).Sound hash expected :=
  ⟨hstored, nofun, nofun⟩

/-- What requests get has the expected hash, and quarantine is right in every state exactly when no
attempt ends that the signal has cut. -/
theorem Fetches.quarantine_right (hstored : ∀ content, stored = some content → hash content = expected)
    (labels : List FetchEvent) :
    (∀ n, (run (step hash expected) (initial stored quarantined) (labels.take n)).Verified hash
        expected) ∧
      ((∀ n, (run (step hash expected) (initial stored quarantined) (labels.take n)).Blames hash
          expected) ↔
        Always (step hash expected) (Uncut hash expected) (initial stored quarantined) labels) := by
  have hinitial := Fetches.initial_sound hstored quarantined
  have hsound : ∀ n, (run (step hash expected) (initial stored quarantined) (labels.take n)).Sound hash
      expected := fun n =>
    run_preserves (I := Fetches.Sound hash expected) (fun s e hs => Fetches.step_sound hs e) _ hinitial
  constructor
  · intro n
    have hverified : (initial stored quarantined).Verified hash expected := nofun
    have hboth := run_preserves (I := fun s : Fetches => s.Sound hash expected ∧ s.Verified hash expected)
      (fun s e hs => ⟨Fetches.step_sound hs.1 e, Fetches.step_verified hs.1 hs.2 e⟩) (labels.take n)
      ⟨hinitial, hverified⟩
    exact hboth.2
  · have hblames : (initial stored quarantined).Blames hash expected := nofun
    have hstep : ∀ (s : Fetches) (e : FetchEvent), s.Sound hash expected ∧ s.Blames hash expected →
        ((s.step hash expected e).Sound hash expected ∧ (s.step hash expected e).Blames hash expected ↔
          s.Uncut hash expected e) := by
      intro s e hs
      rw [and_iff_right (Fetches.step_sound hs.1 e)]
      exact Fetches.step_blames hs.1 hs.2 e
    rw [← invariant_iff_always (I := fun s : Fetches => s.Sound hash expected ∧ s.Blames hash expected)
      hstep ⟨hinitial, hblames⟩]
    exact forall_congr' fun n => (and_iff_right (hsound n)).symm

end Runs

section Samples

open Nix.StagingArea (sampleDigest)

def sampleOrigin : SourceCandidate :=
  ⟨"https://blobs.example", "https://blobs.example", .publisher, .publisher⟩

def firstByte : List FetchEvent :=
  [.call 1 [sampleOrigin] ⟨1, 10, none⟩, .populate (.choose false),
    .populate (.respond 200 .absent), .populate .pull, .populate (.chunk [1] false)]

def abortedRead : List FetchEvent :=
  firstByte ++ [FetchEvent.populate .take, .populate .pull, .populate .abort, .populate (.settle false false)]

/-- The body ends after its first byte. -/
def shortBody : List FetchEvent :=
  firstByte ++ [FetchEvent.populate .take, .populate .pull, .populate .finish, .populate (.settle false false)]

theorem Fetches.uncut_of {s : Fetches} {e : FetchEvent}
    (h : (s.inflight.all fun p =>
      match p.phase with
      | .transferring _ t => t.ended ≠ some .cancelled
      | _ => true) = true) : s.Uncut hash expected e := by
  intro p source t event hp hphase _ hcancelled
  simp [hp, hphase, hcancelled] at h

theorem Fetches.quarantine_right_sample :
    (∀ n, (run (step sampleDigest (sampleDigest [1, 2])) (initial none []) (shortBody.take n)).Blames
        sampleDigest (sampleDigest [1, 2])) ∧
      "https://blobs.example" ∈
        (run (step sampleDigest (sampleDigest [1, 2])) (initial none []) shortBody).quarantined := by
  have huncut : Always (step sampleDigest (sampleDigest [1, 2])) (Uncut sampleDigest (sampleDigest [1, 2]))
      (initial none []) shortBody :=
    ⟨uncut_of rfl, uncut_of rfl, uncut_of rfl, uncut_of rfl, uncut_of rfl, uncut_of rfl, uncut_of rfl,
      uncut_of rfl, uncut_of rfl, trivial⟩
  have hblames : ∀ n, (run (step sampleDigest (sampleDigest [1, 2])) (initial none []) (shortBody.take n)).Blames
      sampleDigest (sampleDigest [1, 2]) := (quarantine_right (by simp) shortBody).2.mpr huncut
  have hblamed := (hblames shortBody.length _ rfl "https://blobs.example").mpr
    ⟨[1], by decide +kernel, by decide +kernel⟩
  exact ⟨hblames, hblamed.1⟩

/-- The signal is aborted while the second byte is awaited, and the source is put in quarantine though
it has not delivered a whole body. -/
theorem Fetches.cut_source_quarantined :
    ¬ (run (step sampleDigest (sampleDigest [1, 2])) (initial none []) abortedRead).Blames sampleDigest
      (sampleDigest [1, 2]) := by
  intro hblames
  obtain ⟨body, hbody, -⟩ :=
    (hblames _ rfl "https://blobs.example").mp ⟨by decide +kernel, by decide +kernel⟩
  have hnone : ∀ delivered : List (String × Bytes), delivered = [] →
      ("https://blobs.example", body) ∉ delivered := by
    rintro _ rfl
    exact List.not_mem_nil
  exact hnone _ rfl hbody

end Samples

end NixstrCache.Blossom
