import Mathlib.Data.List.Induction
import NixstrCache.Blossom.BlobFetcher
import NixstrCache.Nix.Staging

/-!
What a request's fetch owes to another request.

Of two requests whose fetches overlap the first is served as if it were alone.  The second is served
by the store or the cache, or it waits for what the first has started, and then it is served exactly
if that fetch, run for the first request alone, brings the blob while the second still waits.
-/

namespace NixstrCache.Blossom

open Runs Persistence

namespace Fetching

variable {net : Network} {quarantined : List String}

def isCall : Event → Bool
  | .call _ => true
  | _ => false

/-- Events among which no request makes its fetch. -/
def Quiet (events : List Event) : Prop :=
  ∀ e ∈ events, isCall e = false

def otherCall (id : ℕ) : Event → Bool
  | .call r => r.id ≠ id
  | _ => false

/-- The events without the fetches of other requests. -/
def alone (id : ℕ) (events : List Event) : List Event :=
  events.filter fun e => ¬otherCall id e

/-- The fetch of the request succeeds when time goes on after the events. -/
def Succeeds (net : Network) (quarantined : List String) (events : List Event) (id : ℕ) : Prop :=
  ∃ k, (run (step net) (initial quarantined) (events ++ List.replicate k .tick)).phases id = .done true

def Isolated (net : Network) (quarantined : List String) (events : List Event) (id : ℕ) : Prop :=
  Succeeds net quarantined (alone id events) id → Succeeds net quarantined events id

/-- Whether a call waits for what is under way. -/
def Joins (s : Fetching) (r : Request) : Prop :=
  match r.kind with
  | .direct .. => s.blobs.stored = none
  | .manifest => s.completed = none ∧ (r.sources ∈ s.loads ∨ s.blobs.stored = none)

/-- After the call of the second request, the fetch of the first brings the blob while the second
still waits for it. -/
def Serves (net : Network) (quarantined : List String) (first after : List Event) (second : Request) :
    Prop :=
  ∃ k seen, seen <+: after ++ List.replicate k .tick ∧
    (run (step net) (initial quarantined) (first ++ seen)).blobs.landed = [true] ∧
    (second.kind = .manifest →
      second.id ∉ (run (step net) (initial quarantined) (first ++ seen)).blobs.aborted ∧
        (run (step net) (initial quarantined) (first ++ seen)).blobs.now ≤ second.budget.deadline)

section Steps

variable {s t : Fetching} {b : ℕ} {e : Event} {r : Request}

theorem setPhase_self (s : Fetching) (id : ℕ) (phase : Phase) : (s.setPhase id phase).phases id = phase := by
  simp [setPhase]

theorem complete_blobs (s : Fetching) (content : Bytes) : (s.complete net content).blobs = s.blobs := by
  unfold complete
  split <;> rfl

theorem complete_phases (s : Fetching) (content : Bytes) :
    (s.complete net content).phases = s.phases := by
  unfold complete
  split <;> rfl

theorem tick_blobs (s : Fetching) : (s.tick net).blobs = s.blobs.tick net := by
  unfold tick
  dsimp only
  split
  · split
    · rw [complete_blobs]
    · rfl
  · rfl

def Settling (net : Network) (s : Fetching) : Prop :=
  s.blobs.inflight.isSome ∧ (s.blobs.tick net).inflight = none

theorem tick_phases_settling (h : Settling net s) (b : ℕ) : (s.tick net).phases b =
    land net ((s.blobs.tick net).landed.getLastD false) s.blobs.now
      ((s.blobs.tick net).stored.getD []) (s.phases b) := by
  unfold Settling at h
  unfold tick
  dsimp only
  rw [if_pos h]
  split
  · rw [complete_phases]
  · rfl

theorem tick_phases_flying (h : ¬Settling net s) (b : ℕ) : (s.tick net).phases b = s.phases b := by
  unfold Settling at h
  unfold tick
  dsimp only
  rw [if_neg h]

/-- Two systems whose fetchers are the same and in which the request stands at the same point. -/
structure Agree (b : ℕ) (s t : Fetching) : Prop where
  blobs : s.blobs = t.blobs
  phase : s.phases b = t.phases b

theorem step_agree (h : Agree b s t) (he : isCall e = false) :
    Agree b (step net s e) (step net t e) := by
  cases e with
  | call r => simp [isCall] at he
  | abort id =>
    constructor
    · simp only [step, abort, h.blobs]
    · simp only [step, abort, h.phase]
  | tick =>
    have hsettling : Settling net s ↔ Settling net t := by
      unfold Settling
      rw [h.blobs]
    constructor
    · simp only [step, tick_blobs, h.blobs]
    · by_cases hs : Settling net s
      · simp only [step, tick_phases_settling hs, tick_phases_settling (hsettling.mp hs), h.blobs,
          h.phase]
      · simp only [step, tick_phases_flying hs, tick_phases_flying (fun ht => hs (hsettling.mpr ht)),
          h.phase]

theorem run_agree (h : Agree b s t) {events : List Event} (hquiet : Quiet events) :
    Agree b (run (step net) s events) (run (step net) t events) := by
  have hstep : ∀ s t e, Agree b s t → isCall e = false →
      Agree b (step net s e) (step net t e) := fun _ _ _ hst he => step_agree hst he
  exact run_related hstep h hquiet

theorem fetch_phases (hne : b ≠ r.id) : (s.fetch net r).phases b = s.phases b := by
  unfold fetch join
  split
  · simp [setPhase, hne]
  · split
    · simp [setPhase, hne]
    · split <;> simp [setPhase, hne]

theorem load_phases (hne : b ≠ r.id) : (s.load net r).phases b = s.phases b := by
  unfold load join
  dsimp only
  split
  · simp [setPhase, hne]
  · split
    · simp [setPhase, hne]
    · split
      · simp [setPhase, hne]
      · split
        · simp [setPhase, hne]
        · split
          · simp [setPhase, hne, complete_phases]
          · split <;> simp [setPhase, hne]

theorem call_phases (hne : b ≠ r.id) : (s.call net r).phases b = s.phases b := by
  unfold call
  split
  · rfl
  · split
    · exact fetch_phases hne
    · exact load_phases hne

theorem call_blobs (hinflight : s.blobs.inflight.isSome) : (s.call net r).blobs = s.blobs := by
  unfold call
  split
  · rfl
  · split
    · unfold fetch join
      split
      · rfl
      · split
        · rfl
        · rfl
    · unfold load join
      dsimp only
      split
      · rfl
      · split
        · rfl
        · split
          · rfl
          · split
            · rfl
            · split
              · exact complete_blobs s _
              · rfl

theorem call_clock (net : Network) (s : Fetching) (r : Request) :
    (s.call net r).blobs.now = s.blobs.now ∧ (s.call net r).blobs.aborted = s.blobs.aborted := by
  have hjoin : ∀ signalled limits, (s.join r signalled limits).blobs.now = s.blobs.now ∧
      (s.join r signalled limits).blobs.aborted = s.blobs.aborted := by
    intro signalled limits
    unfold join
    split <;> exact ⟨rfl, rfl⟩
  unfold call
  split
  · exact ⟨rfl, rfl⟩
  · split
    · unfold fetch
      split
      · exact ⟨rfl, rfl⟩
      · split
        · exact ⟨rfl, rfl⟩
        · exact hjoin true _
    · unfold load
      dsimp only
      split
      · exact ⟨rfl, rfl⟩
      · split
        · exact ⟨rfl, rfl⟩
        · split
          · exact ⟨rfl, rfl⟩
          · split
            · exact ⟨rfl, rfl⟩
            · split
              · simp only [setPhase, complete_blobs, and_self]
              · exact hjoin false _

theorem run_clock (net : Network) (s : Fetching) (events : List Event) :
    (run (step net) s events).blobs.now = s.blobs.now + events.count .tick ∧
      ∀ id, id ∈ (run (step net) s events).blobs.aborted ↔
        id ∈ s.blobs.aborted ∨ .abort id ∈ events := by
  induction events generalizing s with
  | nil => simp
  | cons e events ih =>
    obtain ⟨hnow, haborted⟩ := ih (step net s e)
    have hstep : (step net s e).blobs.now = s.blobs.now + (if e = .tick then 1 else 0) ∧
        ∀ id, id ∈ (step net s e).blobs.aborted ↔ id ∈ s.blobs.aborted ∨ .abort id = e := by
      cases e with
      | call r =>
        obtain ⟨hcallNow, hcallAborted⟩ := call_clock net s r
        simp [step, hcallNow, hcallAborted]
      | abort id =>
        constructor
        · simp [step, abort]
        · intro i
          simp only [step, abort, List.mem_cons, Event.abort.injEq]
          exact or_comm
      | tick =>
        simp only [step, tick_blobs, BlobFetcher.tick]
        split <;> simp
    constructor
    · rw [run_cons, hnow, hstep.1, List.count_cons]
      by_cases htick : e = .tick
      · simp only [htick, if_true, beq_self_eq_true]
        omega
      · simp [htick]
    · intro id
      rw [run_cons, haborted, hstep.2, List.mem_cons, or_assoc]

end Steps

section Contents

variable {s : Fetching} {e : Event} {r : Request} {b : ℕ}

theorem complete_admits (f : Flight) (source : SourceCandidate) (received : Bytes) :
    (∀ c, (f.complete net source received).admits = some c → net.hash c = net.expected) ∧
      ((f.complete net source received).flight = none →
        (f.complete net source received).ok = true →
          (f.complete net source received).admits.isSome) := by
  unfold Flight.complete
  split_ifs with hhash hsize
  · simp [Progress.failed, Progress.flying]
  · simpa [Progress.settled] using hhash
  · simpa [Progress.failed, Progress.flying] using hhash

theorem advance_admits (aborted : Bool) (now : ℕ) (quarantined : List String) (f : Flight) :
    (∀ c, (f.advance net aborted now quarantined).admits = some c → net.hash c = net.expected) ∧
      ((f.advance net aborted now quarantined).flight = none →
        (f.advance net aborted now quarantined).ok = true →
          (f.advance net aborted now quarantined).admits.isSome) := by
  unfold Flight.advance
  split
  · unfold Flight.nextSource
    split
    · simp [Progress.settled]
    · split_ifs <;> simp [Progress.settled, Progress.flying]
  · split
    · split
      · simp [Progress.failed, Progress.flying]
      · exact complete_admits f _ _
    · split
      · simp [Progress.flying]
      · split <;> simp [Progress.failed, Progress.flying]
      · exact complete_admits f _ _
      · simp [Progress.failed, Progress.flying]
      · unfold Flight.receive
        dsimp only
        split_ifs <;> simp [Progress.failed, Progress.flying]

structure Sealed (net : Network) (s : Fetching) : Prop where
  stored : ∀ c, s.blobs.stored = some c → net.hash c = net.expected
  completed : ∀ c, s.completed = some c → net.hash c = net.expected

theorem tick_flight (net : Network) {f : Flight} (hf : s.blobs.inflight = some f) : ∃ p : Progress,
    (∀ c, p.admits = some c → net.hash c = net.expected) ∧
      (p.flight = none → p.ok = true → p.admits.isSome) ∧
      (s.blobs.tick net).stored = p.admits.or s.blobs.stored ∧
      (s.blobs.tick net).inflight = p.flight ∧
      (s.blobs.tick net).landed =
        if p.flight.isSome then s.blobs.landed else s.blobs.landed ++ [p.ok] := by
  refine ⟨f.advance net (f.signalled && s.blobs.aborted.contains f.owner) s.blobs.now
    s.blobs.quarantined, (advance_admits ..).1, (advance_admits ..).2, ?_⟩
  simp only [BlobFetcher.tick, hf, and_self]

theorem tick_stored (h : Sealed net s) {c : Bytes} (hc : (s.blobs.tick net).stored = some c) :
    net.hash c = net.expected := by
  cases hf : s.blobs.inflight with
  | none =>
    simp only [BlobFetcher.tick, hf] at hc
    exact h.stored c hc
  | some f =>
    obtain ⟨p, hadmits, -, hstored, -⟩ := tick_flight net hf
    rw [hstored, Option.or_eq_some_iff] at hc
    rcases hc with hc | ⟨-, hc⟩
    · exact hadmits c hc
    · exact h.stored c hc

theorem settling_content (h : Sealed net s) (hsettling : Settling net s)
    (hok : (s.blobs.tick net).landed.getLastD false = true) :
    net.hash ((s.blobs.tick net).stored.getD []) = net.expected := by
  obtain ⟨f, hf⟩ := Option.isSome_iff_exists.mp hsettling.1
  obtain ⟨p, -, hbrings, hstored, hinflight, hlanded⟩ := tick_flight net hf
  have hnone : p.flight = none := hinflight.symm.trans hsettling.2
  rw [hlanded, hnone] at hok
  have hadmits := hbrings hnone (by simpa using hok)
  have hsome : (s.blobs.tick net).stored.isSome := by
    rw [hstored, Option.isSome_or, hadmits, Bool.true_or]
  obtain ⟨c, hc⟩ := Option.isSome_iff_exists.mp hsome
  rw [hc, Option.getD_some]
  exact tick_stored h hc

theorem complete_sealed (h : Sealed net s) {content : Bytes} (hcontent : net.hash content = net.expected) :
    Sealed net (s.complete net content) := by
  constructor
  · rw [complete_blobs]
    exact h.stored
  · unfold complete
    split
    · intro c hc
      cases hc
      exact hcontent
    · exact h.completed

theorem join_sealed (h : Sealed net s) (signalled : Bool) (limits : FetchLimits) :
    Sealed net (s.join r signalled limits) := by
  unfold join
  split
  · exact h
  · exact ⟨h.stored, h.completed⟩

theorem setPhase_sealed (h : Sealed net s) (id : ℕ) (phase : Phase) : Sealed net (s.setPhase id phase) :=
  ⟨h.stored, h.completed⟩

theorem call_sealed (h : Sealed net s) : Sealed net (s.call net r) := by
  unfold call
  split
  · exact h
  · split
    · unfold fetch
      split
      · exact setPhase_sealed h _ _
      · split
        · exact setPhase_sealed h _ _
        · exact setPhase_sealed (join_sealed h _ _) _ _
    · unfold load
      dsimp only
      split
      · exact setPhase_sealed h _ _
      · split
        · exact setPhase_sealed h _ _
        · split
          · exact setPhase_sealed h _ _
          · split
            · exact setPhase_sealed h _ _
            · split
              · next content hcontent =>
                exact setPhase_sealed (complete_sealed h (h.stored content hcontent)) _ _
              · apply setPhase_sealed
                exact ⟨(join_sealed (r := r) h false _).stored, (join_sealed (r := r) h false _).completed⟩

theorem step_sealed (h : Sealed net s) (e : Event) : Sealed net (step net s e) := by
  cases e with
  | call r => exact call_sealed h
  | abort id => exact ⟨h.stored, h.completed⟩
  | tick =>
    simp only [step, tick]
    split
    · next hsettling =>
      split
      · next hok =>
        apply complete_sealed
        · exact ⟨fun c hc => tick_stored h hc, h.completed⟩
        · exact settling_content h hsettling hok.1
      · exact ⟨fun c hc => tick_stored h hc, h.completed⟩
    · exact ⟨fun c hc => tick_stored h hc, h.completed⟩

theorem run_sealed (h : Sealed net s) (events : List Event) :
    Sealed net (run (step net) s events) :=
  run_preserves (I := Sealed net) (fun _ e hs => step_sealed hs e) events h

theorem initial_sealed (quarantined : List String) : Sealed net (initial quarantined) := by
  constructor <;> simp [initial]

end Contents

section Waits

variable {s : Fetching} {e : Event} {r : Request} {b : ℕ} {events : List Event}

theorem step_done {ok : Bool} (h : s.phases b = .done ok) (he : isCall e = false) :
    (step net s e).phases b = .done ok := by
  cases e with
  | call r => simp [isCall] at he
  | abort id =>
    simp only [step, abort, h]
    split <;> rfl
  | tick =>
    by_cases hsettling : Settling net s
    · simp only [step, tick_phases_settling hsettling, h, land]
    · simp only [step, tick_phases_flying hsettling, h]

theorem run_done {ok : Bool} (h : s.phases b = .done ok) (hquiet : Quiet events) :
    (run (step net) s events).phases b = .done ok := by
  have hstep : ∀ s : Fetching, ∀ e, s.phases b = .done ok → isCall e = false →
      (step net s e).phases b = .done ok := fun _ _ hs he => step_done hs he
  exact run_of_labels (I := fun s : Fetching => s.phases b = .done ok) hstep h hquiet

theorem tick_inflight (net : Network) (h : s.blobs.inflight.isSome) :
    (Settling net s ∧ ∃ ok, (s.blobs.tick net).landed = s.blobs.landed ++ [ok]) ∨
      ((s.blobs.tick net).inflight.isSome ∧ (s.blobs.tick net).landed = s.blobs.landed) := by
  obtain ⟨f, hf⟩ := Option.isSome_iff_exists.mp h
  obtain ⟨p, -, -, -, hinflight, hlanded⟩ := tick_flight net hf
  cases hnext : p.flight with
  | none =>
    left
    rw [hnext] at hinflight hlanded
    exact ⟨⟨h, hinflight⟩, p.ok, by simpa using hlanded⟩
  | some g =>
    right
    rw [hnext] at hinflight hlanded
    exact ⟨by rw [hinflight]; rfl, by simpa using hlanded⟩

theorem tick_idle (h : s.blobs.inflight = none) :
    s.tick net = { s with blobs := { s.blobs with now := s.blobs.now + 1 } } := by
  have hblobs : s.blobs.tick net = { s.blobs with now := s.blobs.now + 1 } := by
    simp only [BlobFetcher.tick, h]
  unfold tick
  dsimp only
  rw [if_neg (by simp [h]), hblobs]

def AwaitsDirect (b : ℕ) (s : Fetching) : Prop :=
  s.blobs.inflight.isSome ∧ s.blobs.landed = [] ∧ s.phases b = .waiting ∨
    s.blobs.inflight = none ∧ ∃ ok, s.blobs.landed = [ok] ∧ s.phases b = .done ok

theorem step_awaitsDirect (h : AwaitsDirect b s) (he : isCall e = false) :
    AwaitsDirect b (step net s e) := by
  cases e with
  | call r => simp [isCall] at he
  | abort id =>
    rcases h with ⟨hinflight, hlanded, hphase⟩ | ⟨hnone, ok, hlanded, hphase⟩
    · left
      refine ⟨hinflight, hlanded, ?_⟩
      simp only [step, abort, hphase]
      split <;> rfl
    · right
      refine ⟨hnone, ok, hlanded, ?_⟩
      simp only [step, abort, hphase]
      split <;> rfl
  | tick =>
    rcases h with ⟨hinflight, hlanded, hphase⟩ | ⟨hnone, ok, hlanded, hphase⟩
    · rcases tick_inflight net hinflight with ⟨hsettling, ok, hland⟩ | ⟨hflying, hland⟩
      · right
        rw [hlanded, List.nil_append] at hland
        simp only [step, tick_blobs, tick_phases_settling hsettling, hphase, land, hland]
        exact ⟨hsettling.2, ok, rfl, rfl⟩
      · left
        have hnot : ¬Settling net s := by
          intro hsettling
          rw [hsettling.2] at hflying
          simp at hflying
        simp only [step, tick_blobs, tick_phases_flying hnot]
        exact ⟨hflying, hland.trans hlanded, hphase⟩
    · right
      simp only [step, tick_idle hnone]
      exact ⟨hnone, ok, hlanded, hphase⟩

/-- A request that waits for a load, unless its signal has rejected the wait: it succeeds if the fetch
brings the blob before its signal and its deadline. -/
def AwaitsLoad (r : Request) (s : Fetching) : Prop :=
  s.blobs.inflight.isSome ∧ s.blobs.landed = [] ∧
      (r.id ∉ s.blobs.aborted ∧ s.phases r.id = .loading r ∨
        r.id ∈ s.blobs.aborted ∧ s.phases r.id = .done false) ∨
    s.blobs.inflight = none ∧ ∃ ok finished, s.blobs.landed = [ok] ∧ s.phases r.id = .done finished ∧
      (ok = true → r.id ∉ s.blobs.aborted → s.blobs.now ≤ r.budget.deadline → finished = true)

def Affords (net : Network) (r : Request) : Prop :=
  ∀ content, net.hash content = net.expected → ∃ bytes, net.decodes content = some bytes ∧
    r.budget.decoded + bytes ≤ r.budget.maxDecodedBytes

theorem settles_iff {now : ℕ} {content : Bytes} : r.settles net now content = true ↔
    ∃ bytes, net.decodes content = some bytes ∧ now < r.budget.deadline ∧
      r.budget.decoded + bytes ≤ r.budget.maxDecodedBytes := by
  rw [Request.settles, Option.any_eq_true]
  simp only [decide_eq_true_eq]

theorem settles_of_affords {now : ℕ} {content : Bytes} (haffords : Affords net r)
    (hcontent : net.hash content = net.expected) (hnow : now < r.budget.deadline) :
    r.settles net now content = true := by
  obtain ⟨bytes, hdecodes, hbudget⟩ := haffords content hcontent
  exact settles_iff.mpr ⟨bytes, hdecodes, hnow, hbudget⟩

theorem step_awaitsLoad (haffords : Affords net r) (hsealed : Sealed net s) (h : AwaitsLoad r s)
    (he : isCall e = false) : AwaitsLoad r (step net s e) := by
  cases e with
  | call r => simp [isCall] at he
  | abort id =>
    rcases h with ⟨hinflight, hlanded, hphase⟩ | ⟨hnone, ok, finished, hlanded, hphase, hfinished⟩
    · left
      refine ⟨hinflight, hlanded, ?_⟩
      rcases hphase with ⟨hlive, hphase⟩ | ⟨haborted, hphase⟩
      · by_cases hid : r.id = id
        · right
          subst hid
          simp [step, abort, hphase]
        · left
          simp [step, abort, hid, hlive, hphase]
      · right
        refine ⟨List.mem_cons_of_mem _ haborted, ?_⟩
        simp only [step, abort, hphase]
        split <;> rfl
    · right
      refine ⟨hnone, ok, finished, hlanded, ?_, ?_⟩
      · simp only [step, abort, hphase]
        split <;> rfl
      · intro hok haborted hdeadline
        exact hfinished hok (fun hold => haborted (List.mem_cons_of_mem _ hold)) hdeadline
  | tick =>
    rcases h with ⟨hinflight, hlanded, hphase⟩ | ⟨hnone, ok, finished, hlanded, hphase, hfinished⟩
    · obtain ⟨hnow, haborted⟩ : (s.blobs.tick net).now = s.blobs.now + 1 ∧
          (s.blobs.tick net).aborted = s.blobs.aborted := by
        unfold BlobFetcher.tick
        split <;> exact ⟨rfl, rfl⟩
      rcases tick_inflight net hinflight with ⟨hsettling, ok, hland⟩ | ⟨hflying, hland⟩
      · right
        rw [hlanded, List.nil_append] at hland
        simp only [step, tick_blobs, tick_phases_settling hsettling, hland, haborted, hnow]
        rcases hphase with ⟨-, hphase⟩ | ⟨hgone, hphase⟩
        · refine ⟨hsettling.2, ok, _, rfl, by rw [hphase]; rfl, ?_⟩
          intro hok _ hdeadline
          have hcontent := settling_content hsealed hsettling (by rw [hland, hok]; rfl)
          have hsettles : r.settles net s.blobs.now ((s.blobs.tick net).stored.getD []) = true :=
            settles_of_affords haffords hcontent (by omega)
          simp [hok, hsettles]
        · refine ⟨hsettling.2, ok, false, rfl, by rw [hphase]; rfl, ?_⟩
          intro _ hnot _
          exact absurd hgone hnot
      · left
        have hnot : ¬Settling net s := by
          intro hsettling
          rw [hsettling.2] at hflying
          simp at hflying
        simp only [step, tick_blobs, tick_phases_flying hnot, haborted]
        exact ⟨hflying, hland.trans hlanded, hphase⟩
    · right
      simp only [step, tick_idle hnone]
      refine ⟨hnone, ok, finished, hlanded, hphase, ?_⟩
      intro hok haborted hdeadline
      exact hfinished hok haborted (by omega)

theorem step_awaitsLoad_succeeds (h : AwaitsLoad r s) (he : isCall e = false)
    (hbefore : s.phases r.id ≠ .done true) (hafter : (step net s e).phases r.id = .done true) :
    (step net s e).blobs.landed = [true] ∧ r.id ∉ (step net s e).blobs.aborted ∧
      (step net s e).blobs.now ≤ r.budget.deadline := by
  cases e with
  | call r => simp [isCall] at he
  | abort id =>
    exfalso
    simp only [step, abort] at hafter
    split at hafter
    · split at hafter
      · simp at hafter
      · exact hbefore hafter
    · exact hbefore hafter
  | tick =>
    by_cases hsettling : Settling net s
    · simp only [step, tick_phases_settling hsettling] at hafter
      rcases h with ⟨hinflight, hlanded, hphase⟩ | ⟨hnone, -⟩
      · rcases hphase with ⟨hlive, hphase⟩ | ⟨-, hphase⟩
        · rcases tick_inflight net hinflight with ⟨-, ok, hland⟩ | ⟨hflying, -⟩
          · rw [hlanded, List.nil_append] at hland
            rw [hphase, hland] at hafter
            simp only [land, Phase.done.injEq, decide_eq_true_eq] at hafter
            obtain ⟨hok, hsettles⟩ := hafter
            obtain rfl : ok = true := hok
            have hclock := run_clock net s [.tick]
            simp only [run_cons, run_nil, List.count_singleton_self, List.mem_singleton,
              reduceCtorEq, or_false] at hclock
            obtain ⟨-, -, hdeadline, -⟩ := settles_iff.mp hsettles
            refine ⟨?_, ?_, ?_⟩
            · simp only [step, tick_blobs, hland]
            · rw [hclock.2]
              exact hlive
            · rw [hclock.1]
              omega
          · rw [hsettling.2] at hflying
            simp at hflying
        · rw [hphase] at hafter
          simp [land] at hafter
      · have hsome := hsettling.1
        rw [hnone] at hsome
        simp at hsome
    · simp only [step, tick_phases_flying hsettling] at hafter
      exact absurd hafter hbefore

theorem run_awaitsLoad (haffords : Affords net r) (hsealed : Sealed net s) (h : AwaitsLoad r s)
    (hquiet : Quiet events) :
    Sealed net (run (step net) s events) ∧ AwaitsLoad r (run (step net) s events) := by
  have hstep : ∀ s e, Sealed net s ∧ AwaitsLoad r s → isCall e = false →
      Sealed net (step net s e) ∧ AwaitsLoad r (step net s e) := fun s e hs he =>
    ⟨step_sealed hs.1 e, step_awaitsLoad haffords hs.1 hs.2 he⟩
  exact run_of_labels (I := fun s : Fetching => Sealed net s ∧ AwaitsLoad r s) hstep
    ⟨hsealed, h⟩ hquiet

theorem awaitsLoad_succeeds (haffords : Affords net r) (hsealed : Sealed net s)
    (h : AwaitsLoad r s) (hbefore : s.phases r.id ≠ .done true) (hquiet : Quiet events)
    (hdone : (run (step net) s events).phases r.id = .done true) : ∃ seen, seen <+: events ∧
      (run (step net) s seen).blobs.landed = [true] ∧
      r.id ∉ (run (step net) s seen).blobs.aborted ∧
      (run (step net) s seen).blobs.now ≤ r.budget.deadline := by
  induction events using List.reverseRecOn with
  | nil => exact absurd hdone hbefore
  | append_singleton events e ih =>
    have hquiet' : Quiet events := fun x hx => hquiet x (List.mem_append_left _ hx)
    have he : isCall e = false := hquiet e (by simp)
    rw [run_snoc] at hdone
    by_cases hearlier : (run (step net) s events).phases r.id = .done true
    · obtain ⟨seen, hseen, hserved⟩ := ih hquiet' hearlier
      exact ⟨seen, hseen.trans (List.prefix_append _ _), hserved⟩
    · refine ⟨events ++ [e], List.prefix_refl _, ?_⟩
      rw [run_snoc]
      exact step_awaitsLoad_succeeds (run_awaitsLoad haffords hsealed h hquiet').2 he hearlier hdone

end Waits

section Calls

variable {s : Fetching} {r : Request} {b : ℕ} {events : List Event}

structure Fresh (s : Fetching) : Prop where
  stored : s.blobs.stored = none
  inflight : s.blobs.inflight = none
  landed : s.blobs.landed = []
  loads : s.loads = []
  completed : s.completed = none
  phases : ∀ b, s.phases b = .idle

theorem run_fresh (h : Fresh s) (hquiet : Quiet events) : Fresh (run (step net) s events) := by
  have hstep : ∀ s e, Fresh s → isCall e = false → Fresh (step net s e) := by
    intro s e hs he
    cases e with
    | call r => simp [isCall] at he
    | abort id =>
      refine ⟨hs.stored, hs.inflight, hs.landed, hs.loads, hs.completed, ?_⟩
      intro b
      simp only [step, abort, hs.phases]
      split <;> rfl
    | tick =>
      simp only [step, tick_idle hs.inflight]
      exact ⟨hs.stored, hs.inflight, hs.landed, hs.loads, hs.completed, hs.phases⟩
  exact run_of_labels hstep h hquiet

theorem initial_fresh (quarantined : List String) : Fresh (initial quarantined) :=
  ⟨rfl, rfl, rfl, rfl, rfl, fun _ => rfl⟩

/-- What a call does when nothing has been fetched: it is refused, or starts a fetch. -/
inductive FirstCall (net : Network) (s : Fetching) (r : Request) (t : Fetching) : Prop
  | refused (hphase : t.phases r.id = .done false) (hinflight : t.blobs.inflight = none)
  | direct (hkind : r.kind ≠ .manifest) (hlimits : (r.limits net s.blobs.now).isSome)
    (hphase : t.phases r.id = .waiting) (hinflight : t.blobs.inflight.isSome)
  | manifest (hkind : r.kind = .manifest) (hlimits : (r.limits net s.blobs.now).isSome)
    (hvisits : r.visits s.blobs.now = true)
    (hphase : t.phases r.id = if r.id ∈ s.blobs.aborted then .done false else .loading r)
    (hinflight : t.blobs.inflight.isSome)

theorem call_first (net : Network) (r : Request) (h : Fresh s) : FirstCall net s r (s.call net r) ∧
    (s.call net r).blobs.landed = [] ∧ (s.call net r).blobs.stored = none := by
  unfold call
  rw [if_neg (by simp [h.phases])]
  split
  · next size ceiling hkind =>
    unfold fetch join
    split
    · exact ⟨.refused (setPhase_self ..) h.inflight, h.landed, h.stored⟩
    · next limits hlimits =>
      rw [if_neg (by simp [h.stored]), if_neg (by simp [h.inflight])]
      refine ⟨.direct ?_ ?_ (setPhase_self ..) rfl, h.landed, h.stored⟩
      · simp [hkind]
      · simp [hlimits]
  · next hkind =>
    unfold load join
    dsimp only
    split
    · exact ⟨.refused (setPhase_self ..) h.inflight, h.landed, h.stored⟩
    · next hvisits =>
      simp only [h.completed, h.loads, List.not_mem_nil, if_false, h.stored]
      split
      · exact ⟨.refused (setPhase_self ..) h.inflight, h.landed, h.stored⟩
      · next limits hlimits =>
        rw [if_neg (by simp [h.inflight])]
        refine ⟨.manifest hkind ?_ ?_ (setPhase_self ..) rfl, h.landed, rfl⟩
        · simp [hlimits]
        · simpa using hvisits

theorem call_joins (hidle : s.phases r.id = .idle) (hjoins : Joins s r) (hlimits : (r.limits net s.blobs.now).isSome)
    (hvisits : r.kind = .manifest → r.visits s.blobs.now = true) : (s.call net r).phases r.id =
      if r.kind = .manifest then if r.id ∈ s.blobs.aborted then .done false else .loading r
      else .waiting := by
  obtain ⟨limits, hlimits⟩ := Option.isSome_iff_exists.mp hlimits
  unfold Joins at hjoins
  unfold call
  rw [if_neg (by simp [hidle])]
  cases hkind : r.kind with
  | direct size ceiling =>
    simp only [hkind] at hjoins
    simp only [fetch, hlimits, hjoins, Option.isSome_none, Bool.false_eq_true, if_false,
      setPhase_self, reduceCtorEq]
  | manifest =>
    simp only [hkind] at hjoins
    simp only [load, hvisits hkind, Bool.true_eq_false, if_false, hjoins.1, if_true]
    split
    · rw [setPhase_self]
    · next hload =>
      simp only [hlimits, hjoins.2.resolve_left hload, setPhase_self]

theorem call_served (hsealed : Sealed net s) (hidle : s.phases r.id = .idle)
    (hjoins : ¬Joins s r) (hlimits : (r.limits net s.blobs.now).isSome)
    (hmanifest : r.kind = .manifest → r.visits s.blobs.now = true ∧ r.id ∉ s.blobs.aborted ∧
      Affords net r) : (s.call net r).phases r.id = .done true := by
  obtain ⟨limits, hlimits⟩ := Option.isSome_iff_exists.mp hlimits
  unfold Joins at hjoins
  unfold call
  rw [if_neg (by simp [hidle])]
  cases hkind : r.kind with
  | direct size ceiling =>
    simp only [hkind] at hjoins
    simp only [fetch, hlimits, Option.isSome_iff_ne_none.mpr hjoins, if_true, setPhase_self]
  | manifest =>
    simp only [hkind] at hjoins
    obtain ⟨hvisits, hlive, haffords⟩ := hmanifest hkind
    have hnow : s.blobs.now < r.budget.deadline := by
      simp only [Request.visits, decide_eq_true_eq] at hvisits
      exact hvisits.1
    simp only [load, hvisits, Bool.true_eq_false, if_false]
    split
    · next content hcontent =>
      rw [setPhase_self]
      simp [hlive, settles_of_affords haffords (hsealed.completed content hcontent) hnow]
    · next hcompleted =>
      obtain ⟨hload, hstored⟩ := not_or.mp (not_and.mp hjoins hcompleted)
      obtain ⟨content, hcontent⟩ := Option.ne_none_iff_exists'.mp hstored
      simp only [if_neg hload, hlimits, hcontent, setPhase_self]
      simp [hlive, settles_of_affords haffords (hsealed.stored content hcontent) hnow]

def Opens (net : Network) (r : Request) (s : Fetching) : Prop :=
  s.phases r.id = .loading r ∨ s.phases r.id = .done false ∨
    s.phases r.id = .done true ∧ ∃ now content, net.hash content = net.expected ∧
      r.settles net now content = true

theorem run_opens (hsealed : Sealed net s) (h : Opens net r s) (hquiet : Quiet events) :
    Opens net r (run (step net) s events) := by
  have hstep : ∀ s e, Sealed net s ∧ Opens net r s → isCall e = false →
      Sealed net (step net s e) ∧ Opens net r (step net s e) := by
    intro s e ⟨hsealed, hopens⟩ he
    refine ⟨step_sealed hsealed e, ?_⟩
    rcases hopens with hphase | hphase | ⟨hphase, hcontent⟩
    · cases e with
      | call r => simp [isCall] at he
      | abort id =>
        by_cases hid : r.id = id
        · right
          left
          subst hid
          simp [step, abort, hphase]
        · left
          simp only [step, abort, hid, if_false, hphase]
      | tick =>
        by_cases hsettling : Settling net s
        · right
          have hbrings := settling_content hsealed hsettling
          simp only [step, tick_phases_settling hsettling, hphase, land]
          generalize (s.blobs.tick net).landed.getLastD false = ok at hbrings
          cases ok with
          | false => exact Or.inl (by simp)
          | true =>
            cases hsettles : r.settles net s.blobs.now ((s.blobs.tick net).stored.getD []) with
            | false => exact Or.inl (by simp)
            | true => exact Or.inr ⟨by simp, _, _, hbrings rfl, hsettles⟩
        · left
          simp only [step, tick_phases_flying hsettling, hphase]
    · right
      left
      exact step_done hphase he
    · right
      right
      exact ⟨step_done hphase he, hcontent⟩
  exact (run_of_labels (I := fun s : Fetching => Sealed net s ∧ Opens net r s) hstep
    ⟨hsealed, h⟩ hquiet).2

structure Able (net : Network) (s : Fetching) (r : Request) : Prop where
  limits : (r.limits net s.blobs.now).isSome
  manifest : r.kind = .manifest →
    r.visits s.blobs.now = true ∧ r.id ∉ s.blobs.aborted ∧ Affords net r

theorem able_of_succeeds (hinjective : Function.Injective net.hash) (hsealed : Sealed net s)
    (hfresh : Fresh s) (hquiet : Quiet events)
    (hdone : (run (step net) (s.call net r) events).phases r.id = .done true) : Able net s r := by
  have hfailed : (s.call net r).phases r.id ≠ .done false := by
    intro hphase
    rw [run_done hphase hquiet] at hdone
    simp at hdone
  rcases (call_first net r hfresh).1 with ⟨hphase, -⟩ | ⟨hkind, hlimits, -, -⟩ |
    ⟨hkind, hlimits, hvisits, hphase, -⟩
  · exact absurd hphase hfailed
  · exact ⟨hlimits, fun h => absurd h hkind⟩
  · by_cases haborted : r.id ∈ s.blobs.aborted
    · rw [if_pos haborted] at hphase
      exact absurd hphase hfailed
    · rw [if_neg haborted] at hphase
      refine ⟨hlimits, fun _ => ⟨hvisits, haborted, ?_⟩⟩
      rcases run_opens (call_sealed hsealed) (Or.inl hphase) hquiet with
        hloading | hfalse | ⟨-, now, content, hcontent, hsettles⟩
      · rw [hdone] at hloading
        simp at hloading
      · rw [hdone] at hfalse
        simp at hfalse
      · obtain ⟨bytes, hdecodes, -, hbudget⟩ := settles_iff.mp hsettles
        intro other hother
        obtain rfl : other = content := hinjective (hother.trans hcontent.symm)
        exact ⟨bytes, hdecodes, hbudget⟩

end Calls

section Isolation

variable {first second : Request} {before between after : List Event} {b : ℕ}

theorem quiet_append {xs ys : List Event} (hxs : Quiet xs) (hys : Quiet ys) : Quiet (xs ++ ys) := by
  intro e he
  rcases List.mem_append.mp he with he | he
  · exact hxs e he
  · exact hys e he

theorem quiet_ticks (k : ℕ) : Quiet (List.replicate k .tick) := by
  intro e he
  rw [List.eq_of_mem_replicate he]
  rfl

theorem alone_quiet (id : ℕ) {events : List Event} (hquiet : Quiet events) :
    alone id events = events := by
  apply List.filter_eq_self.mpr
  intro e he
  have hcall := hquiet e he
  cases e with
  | call r => simp [isCall] at hcall
  | abort id => rfl
  | tick => rfl

theorem alone_append (id : ℕ) (xs ys : List Event) : alone id (xs ++ ys) = alone id xs ++ alone id ys :=
  List.filter_append xs ys

theorem alone_call (r : Request) (events : List Event) :
    alone r.id (.call r :: events) = .call r :: alone r.id events := by
  simp [alone, otherCall]

theorem alone_other {id : ℕ} {r : Request} (hne : r.id ≠ id) (events : List Event) :
    alone id (.call r :: events) = alone id events := by
  simp [alone, otherCall, hne]

structure Overlaps (net : Network) (quarantined : List String) (first second : Request)
    (before between after : List Event) : Prop where
  distinct : first.id ≠ second.id
  quietBefore : Quiet before
  quietBetween : Quiet between
  quietAfter : Quiet after
  inflight : (run (step net) (initial quarantined)
    (before ++ .call first :: between)).blobs.inflight.isSome

def both (first second : Request) (before between after : List Event) : List Event :=
  (before ++ .call first :: between) ++ .call second :: after

variable (h : Overlaps net quarantined first second before between after)

include h

theorem Overlaps.alone_first : alone first.id (both first second before between after) =
    (before ++ .call first :: between) ++ after := by
  rw [both, alone_append, alone_append, alone_call, alone_other (Ne.symm h.distinct),
    alone_quiet _ h.quietBefore, alone_quiet _ h.quietBetween, alone_quiet _ h.quietAfter]

theorem Overlaps.alone_second : alone second.id (both first second before between after) =
    (before ++ between) ++ .call second :: after := by
  rw [both, alone_append, alone_append, alone_call, alone_other h.distinct,
    alone_quiet _ h.quietBefore, alone_quiet _ h.quietBetween, alone_quiet _ h.quietAfter]

theorem Overlaps.quiet_later (k : ℕ) : Quiet (after ++ List.replicate k .tick) :=
  quiet_append h.quietAfter (quiet_ticks k)

omit h

/-- The state before the call of the second request. -/
def joint (net : Network) (quarantined : List String) (first : Request) (before between : List Event) :
    Fetching :=
  run (step net) (initial quarantined) (before ++ .call first :: between)

theorem succeeds_both : Succeeds net quarantined (both first second before between after) b ↔
    ∃ k, (run (step net) ((joint net quarantined first before between).call net second)
      (after ++ List.replicate k .tick)).phases b = .done true := by
  simp only [Succeeds, both, joint, List.append_assoc, run_append, List.cons_append, run_cons]
  rfl

include h

theorem Overlaps.first_agrees (events : List Event) (hquiet : Quiet events) :
    Agree first.id (run (step net) ((joint net quarantined first before between).call net second) events)
      (run (step net) (joint net quarantined first before between) events) := by
  apply run_agree _ hquiet
  exact ⟨call_blobs h.inflight, call_phases h.distinct⟩

theorem Overlaps.first_isolated :
    Isolated net quarantined (both first second before between after) first.id := by
  rintro ⟨k, hdone⟩
  rw [h.alone_first, List.append_assoc, run_append] at hdone
  rw [succeeds_both]
  refine ⟨k, ?_⟩
  rw [(h.first_agrees _ (h.quiet_later k)).phase]
  exact hdone

theorem Overlaps.first_landed : (joint net quarantined first before between).blobs.landed = [] := by
  have hstep : ∀ s e, s.blobs.landed = [] ∨ s.blobs.inflight = none → isCall e = false →
      (step net s e).blobs.landed = [] ∨ (step net s e).blobs.inflight = none := by
    intro s e hs he
    cases e with
    | call r => simp [isCall] at he
    | abort id => exact hs
    | tick =>
      cases hinflight : s.blobs.inflight with
      | none =>
        simp only [step, tick_idle hinflight]
        exact Or.inr hinflight
      | some f =>
        simp only [step, tick_blobs]
        rcases tick_inflight net (by rw [hinflight]; rfl) with ⟨hsettling, -⟩ | ⟨-, hland⟩
        · exact Or.inr hsettling.2
        · left
          rw [hland]
          exact hs.resolve_right (by simp [hinflight])
  have hfresh : Fresh (run (step net) (initial quarantined) before) :=
    run_fresh (initial_fresh quarantined) h.quietBefore
  have hlanded := run_of_labels (I := fun s : Fetching => s.blobs.landed = [] ∨ s.blobs.inflight = none)
    hstep (Or.inl (call_first net first hfresh).2.1) h.quietBetween
  have hinflight := h.inflight
  rw [run_append, run_cons] at hinflight
  rw [joint, run_append, run_cons]
  apply hlanded.resolve_right
  intro hnone
  have hnone' : (run (step net) (step net (run (step net) (initial quarantined) before) (.call first))
      between).blobs.inflight = none := hnone
  rw [hnone'] at hinflight
  simp at hinflight

theorem Overlaps.second_idle :
    (joint net quarantined first before between).phases second.id = .idle := by
  have hstep : ∀ s : Fetching, ∀ e, s.phases second.id = .idle → isCall e = false →
      (step net s e).phases second.id = .idle := by
    intro s e hs he
    cases e with
    | call r => simp [isCall] at he
    | abort id =>
      simp only [step, abort, hs]
      split <;> rfl
    | tick =>
      by_cases hsettling : Settling net s
      · simp only [step, tick_phases_settling hsettling, hs, land]
      · simp only [step, tick_phases_flying hsettling, hs]
  have hfresh : Fresh (run (step net) (initial quarantined) before) :=
    run_fresh (initial_fresh quarantined) h.quietBefore
  rw [joint, run_append, run_cons]
  apply run_of_labels (I := fun s : Fetching => s.phases second.id = .idle) hstep _ h.quietBetween
  exact (call_phases (Ne.symm h.distinct)).trans (hfresh.phases second.id)

omit h in
theorem joint_sealed : Sealed net (joint net quarantined first before between) :=
  run_sealed (initial_sealed quarantined) _

theorem Overlaps.second_able (hinjective : Function.Injective net.hash)
    (halone : Succeeds net quarantined (alone second.id (both first second before between after))
      second.id) : Able net (joint net quarantined first before between) second := by
  obtain ⟨k, hdone⟩ := halone
  rw [h.alone_second, List.append_assoc, List.cons_append, run_append, run_cons] at hdone
  have hquiet := quiet_append h.quietBefore h.quietBetween
  have hable := able_of_succeeds hinjective
    (run_sealed (initial_sealed quarantined) _)
    (run_fresh (initial_fresh quarantined) hquiet) (h.quiet_later k) hdone
  obtain ⟨hnow, haborted⟩ := run_clock net (initial quarantined) (before ++ between)
  obtain ⟨hjointNow, hjointAborted⟩ := run_clock net (initial quarantined)
    (before ++ .call first :: between)
  have hsameNow : (joint net quarantined first before between).blobs.now =
      (run (step net) (initial quarantined) (before ++ between)).blobs.now := by
    rw [joint, hnow, hjointNow]
    simp
  obtain ⟨hlimits, hmanifest⟩ := hable
  refine ⟨by rw [hsameNow]; exact hlimits, ?_⟩
  intro hkind
  obtain ⟨hvisits, hlive, haffords⟩ := hmanifest hkind
  refine ⟨by rw [hsameNow]; exact hvisits, ?_, haffords⟩
  rw [joint, hjointAborted]
  rw [haborted] at hlive
  simpa using hlive

theorem Overlaps.second_agrees {events : List Event} (hquiet : Quiet events) :
    (run (step net) ((joint net quarantined first before between).call net second) events).blobs =
      (run (step net) (initial quarantined) ((before ++ .call first :: between) ++ events)).blobs := by
  rw [run_append]
  exact (h.first_agrees events hquiet).blobs

theorem Overlaps.quiet_seen {k : ℕ} {seen : List Event} (hseen : seen <+: after ++ List.replicate k .tick) :
    Quiet seen := by
  intro e he
  exact h.quiet_later k e (hseen.subset he)

theorem Overlaps.seen_succeeds {k : ℕ} {seen : List Event}
    (hseen : seen <+: after ++ List.replicate k .tick)
    (hdone : (run (step net) ((joint net quarantined first before between).call net second)
      seen).phases second.id = .done true) :
    Succeeds net quarantined (both first second before between after) second.id := by
  obtain ⟨rest, hrest⟩ := hseen
  have hquiet : Quiet rest := by
    intro e he
    exact h.quiet_later k e (hrest ▸ List.mem_append_right seen he)
  rw [succeeds_both]
  refine ⟨k, ?_⟩
  rw [← hrest, run_append]
  exact run_done hdone hquiet

theorem Overlaps.direct_succeeds_iff (hkind : second.kind ≠ .manifest)
    (hphase : ((joint net quarantined first before between).call net second).phases second.id =
      .waiting) :
    Succeeds net quarantined (both first second before between after) second.id ↔
      Serves net quarantined (before ++ .call first :: between) after second := by
  have hawaits : ∀ events, Quiet events → AwaitsDirect second.id
      (run (step net) ((joint net quarantined first before between).call net second) events) := by
    intro events hquiet
    have hstep : ∀ s e, AwaitsDirect second.id s → isCall e = false →
        AwaitsDirect second.id (step net s e) := fun _ _ hs he => step_awaitsDirect hs he
    apply run_of_labels hstep _ hquiet
    have hblobs : ((joint net quarantined first before between).call net second).blobs =
        (joint net quarantined first before between).blobs := call_blobs h.inflight
    left
    rw [hblobs]
    exact ⟨h.inflight, h.first_landed, hphase⟩
  constructor
  · rw [succeeds_both]
    rintro ⟨k, hdone⟩
    refine ⟨k, _, List.prefix_refl _, ?_, fun hmanifest => absurd hmanifest hkind⟩
    rw [← h.second_agrees (h.quiet_later k)]
    rcases hawaits _ (h.quiet_later k) with ⟨-, -, hwaiting⟩ | ⟨-, ok, hlanded, hfinished⟩
    · rw [hdone] at hwaiting
      simp at hwaiting
    · rw [hdone, Phase.done.injEq] at hfinished
      rw [hlanded, ← hfinished]
  · rintro ⟨k, seen, hseen, hlanded, -⟩
    apply h.seen_succeeds hseen
    rw [← h.second_agrees (h.quiet_seen hseen)] at hlanded
    rcases hawaits seen (h.quiet_seen hseen) with ⟨-, hnone, -⟩ | ⟨-, ok, hland, hfinished⟩
    · rw [hnone] at hlanded
      simp at hlanded
    · rw [hland, List.cons.injEq] at hlanded
      rw [hfinished, hlanded.1]

theorem Overlaps.load_succeeds_iff (hkind : second.kind = .manifest) (haffords : Affords net second)
    (hlive : second.id ∉ (joint net quarantined first before between).blobs.aborted)
    (hphase : ((joint net quarantined first before between).call net second).phases second.id =
      .loading second) :
    Succeeds net quarantined (both first second before between after) second.id ↔
      Serves net quarantined (before ++ .call first :: between) after second := by
  have hsealed : Sealed net ((joint net quarantined first before between).call net second) :=
    call_sealed joint_sealed
  have hblobs : ((joint net quarantined first before between).call net second).blobs =
      (joint net quarantined first before between).blobs := call_blobs h.inflight
  have hawaits : AwaitsLoad second ((joint net quarantined first before between).call net second) := by
    left
    rw [hblobs]
    exact ⟨h.inflight, h.first_landed, Or.inl ⟨hlive, hphase⟩⟩
  constructor
  · rw [succeeds_both]
    rintro ⟨k, hdone⟩
    obtain ⟨seen, hseen, hlanded, hheld, hdeadline⟩ := awaitsLoad_succeeds haffords hsealed hawaits
      (by rw [hphase]; simp) (h.quiet_later k) hdone
    rw [h.second_agrees (h.quiet_seen hseen)] at hlanded hheld hdeadline
    exact ⟨k, seen, hseen, hlanded, fun _ => ⟨hheld, hdeadline⟩⟩
  · rintro ⟨k, seen, hseen, hlanded, hmanifest⟩
    obtain ⟨hheld, hdeadline⟩ := hmanifest hkind
    apply h.seen_succeeds hseen
    rw [← h.second_agrees (h.quiet_seen hseen)] at hlanded hheld hdeadline
    rcases (run_awaitsLoad haffords hsealed hawaits (h.quiet_seen hseen)).2 with
      ⟨-, hnone, -⟩ | ⟨-, ok, finished, hland, hfinished, hserved⟩
    · rw [hnone] at hlanded
      simp at hlanded
    · rw [hland, List.cons.injEq] at hlanded
      rw [hfinished, hserved hlanded.1 hheld hdeadline]

/-- Of two overlapping fetches the first is isolated, and the second is exactly if it does not wait for
the first, or the first serves it. -/
theorem overlapping_isolated (hinjective : Function.Injective net.hash) :
    Isolated net quarantined (both first second before between after) first.id ∧
      (Isolated net quarantined (both first second before between after) second.id ↔
        (Joins (joint net quarantined first before between) second →
          Succeeds net quarantined (alone second.id (both first second before between after)) second.id →
            Serves net quarantined (before ++ .call first :: between) after second)) := by
  refine ⟨h.first_isolated, ?_⟩
  have hjoined : Joins (joint net quarantined first before between) second →
      Succeeds net quarantined (alone second.id (both first second before between after)) second.id →
        (Succeeds net quarantined (both first second before between after) second.id ↔
          Serves net quarantined (before ++ .call first :: between) after second) := by
    intro hjoins halone
    have hable := h.second_able hinjective halone
    have hcall := call_joins h.second_idle hjoins hable.limits fun hkind => (hable.manifest hkind).1
    by_cases hkind : second.kind = .manifest
    · obtain ⟨-, hlive, haffords⟩ := hable.manifest hkind
      rw [if_pos hkind, if_neg hlive] at hcall
      exact h.load_succeeds_iff hkind haffords hlive hcall
    · rw [if_neg hkind] at hcall
      exact h.direct_succeeds_iff hkind hcall
  constructor
  · intro hisolated hjoins halone
    exact (hjoined hjoins halone).mp (hisolated halone)
  · intro hserves halone
    by_cases hjoins : Joins (joint net quarantined first before between) second
    · exact (hjoined hjoins halone).mpr (hserves hjoins halone)
    · have hable := h.second_able hinjective halone
      have hserved := call_served joint_sealed h.second_idle hjoins hable.limits hable.manifest
      exact h.seen_succeeds (k := 0) (List.nil_prefix) hserved

end Isolation

section Samples

open Nix.StagingArea (sampleDigest sampleDigest_injective)

def sampleSource : SourceCandidate :=
  ⟨"https://blobs.example", "https://blobs.example", .publisher, .publisher⟩

/-- A network whose sources send the blob in one chunk. -/
def sampleNetwork : Network where
  hash := sampleDigest
  expected := sampleDigest [1]
  answer _ := ⟨1, false, 200, .absent, [some [1]]⟩
  reserves _ := true
  decodes _ := some 1
  maxCachedBytes := 10
  maxWireBytes := 10

def sampleRequest (id : ℕ) (kind : RequestKind) : Request where
  id := id
  kind := kind
  sources := [sampleSource]
  budget := ⟨10, 10, 10, 10, 10, 10, 100, 0, 0, 0, 0, 0⟩

theorem overlapping_isolated_sample :
    Isolated sampleNetwork [] (both (sampleRequest 1 (.direct none 10)) (sampleRequest 2 .manifest) []
        [.tick] [.tick]) 1 ∧
      (Isolated sampleNetwork [] (both (sampleRequest 1 (.direct none 10)) (sampleRequest 2 .manifest)
          [] [.tick] [.tick]) 2 ↔
        (Joins (joint sampleNetwork [] (sampleRequest 1 (.direct none 10)) [] [.tick])
            (sampleRequest 2 .manifest) →
          Succeeds sampleNetwork [] (alone 2 (both (sampleRequest 1 (.direct none 10))
            (sampleRequest 2 .manifest) [] [.tick] [.tick])) 2 →
            Serves sampleNetwork [] [.call (sampleRequest 1 (.direct none 10)), .tick] [.tick]
              (sampleRequest 2 .manifest))) :=
  overlapping_isolated ⟨by decide, by simp [Quiet], by simp [Quiet, isCall], by simp [Quiet, isCall],
    by decide +kernel⟩ sampleDigest_injective

/-- The signal of the first request ends the fetch for the second one too. -/
theorem abort_fails_other : ¬Isolated sampleNetwork [] (both (sampleRequest 1 (.direct none 10))
    (sampleRequest 2 (.direct none 10)) [] [.tick] (.abort 1 :: List.replicate 6 .tick)) 2 := by
  intro hisolated
  obtain ⟨k, hdone⟩ := hisolated ⟨0, by decide +kernel⟩
  have hfailed : (run (step sampleNetwork) (initial []) (both (sampleRequest 1 (.direct none 10))
      (sampleRequest 2 (.direct none 10)) [] [.tick] (.abort 1 :: List.replicate 6 .tick))).phases 2 =
        .done false := by decide +kernel
  rw [run_append, run_done hfailed (quiet_ticks k)] at hdone
  simp at hdone

end Samples

end Fetching

end NixstrCache.Blossom
