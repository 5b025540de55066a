import NixstrCache.Nix.Staging

/-!
The eligibility of staged store paths.

A recompute starts from the narinfos that a change affects and passes over them until a pass admits
nothing: a candidate is admitted when its NAR is staged and each of its references is the path
itself, in the overlay, admitted before, or in the lower cache.  The source awaits every question to
the lower cache, so a recompute is a machine with one check at each tick.
-/

namespace NixstrCache.Write

open Durable KeyedTable Rounds Persistence
open Persistence.WriteRepository (StagedNarInfo StagingNarInfo)

structure EligibilityOptions where
  maxVisited : ℕ
  maxMetadataBytes : ℕ
deriving Repr

/-- A recompute under way: `pass` are the candidates that the running pass has not decided, and
`references` what is left to check of the first of them once its NAR has been found. -/
structure Recompute where
  candidates : List StagedNarInfo
  committed : List String
  admitted : List String
  pass : List StagedNarInfo
  references : Option (List String)
  progressed : Bool
deriving DecidableEq, Repr

namespace Recompute

/-- The reading at the start of a recompute. -/
def start (options : EligibilityOptions) (s : WriteRepository) (changed : String) :
    Except Failure Recompute :=
  match s.affectedCandidates changed options.maxVisited with
  | .error e => .error e
  | .ok candidates =>
    if options.maxMetadataBytes < (candidates.map StagedNarInfo.metadataBytes).sum then
      .error (.rangeError "eligibility metadata ceiling exceeded")
    else
      .ok
        { candidates
          committed := s.overlayStorePathsOf s.currentGeneration
          admitted := []
          pass := candidates
          references := none
          progressed := false }

def knows (r : Recompute) (hash : String) : Bool :=
  hash ∈ r.committed ∨ hash ∈ r.admitted

def question (r : Recompute) : Option String :=
  match r.pass, r.references with
  | candidate :: _, some (reference :: _) =>
    if reference = candidate.storePathHash ∨ r.knows reference then none else some reference
  | _, _ => none

/-- One check, or the admitted store paths at the end. -/
def tick (lower : String → Bool) (s : WriteRepository) (r : Recompute) :
    Recompute ⊕ List String :=
  match r.pass, r.references with
  | [], _ =>
    if r.progressed then .inl { r with pass := r.candidates, references := none, progressed := false }
    else .inr r.admitted
  | candidate :: rest, none =>
    if r.knows candidate.storePathHash ∨ (s.lookup candidate.narRoute).isNone then
      .inl { r with pass := rest }
    else .inl { r with references := some candidate.references }
  | candidate :: rest, some [] =>
    .inl { r with
      admitted := r.admitted ++ [candidate.storePathHash]
      pass := rest
      references := none
      progressed := true }
  | candidate :: rest, some (reference :: references) =>
    if reference = candidate.storePathHash ∨ r.knows reference ∨ lower reference then
      .inl { r with references := some references }
    else .inl { r with pass := rest, references := none }

def passCost (candidates : List StagedNarInfo) : ℕ :=
  (candidates.map fun c => c.references.length + 2).sum

def leftInPass : List StagedNarInfo → Option (List String) → ℕ
  | [], _ => 0
  | pass, none => passCost pass
  | _ :: rest, some references => references.length + 1 + passCost rest

theorem passCost_cons (c : StagedNarInfo) (rest : List StagedNarInfo) :
    passCost (c :: rest) = c.references.length + 2 + passCost rest := by
  simp [passCost]

theorem leftInPass_none (pass : List StagedNarInfo) : leftInPass pass none = passCost pass := by
  cases pass <;> simp [leftInPass, passCost]

theorem leftInPass_some (c : StagedNarInfo) (rest : List StagedNarInfo) (references : List String) :
    leftInPass (c :: rest) (some references) = references.length + 1 + passCost rest := rfl

def waiting (r : Recompute) : ℕ :=
  (r.candidates.filter fun c => c.storePathHash ∉ r.admitted).length

def measure (r : Recompute) : ℕ :=
  (2 * r.waiting + if r.progressed then 1 else 0) * (passCost r.candidates + 1) +
    leftInPass r.pass r.references

/-- A recompute that nothing interrupts: what it admits, or nothing when its reading fails. -/
def admits (options : EligibilityOptions) (lower : String → Bool) (s : WriteRepository)
    (changed : String) : List String :=
  match start options s changed with
  | .error _ => []
  | .ok r => (drain (tick lower s) (r.measure + 1) r).getD []

section Ticks

variable {lower : String → Bool} {found : StagedNarInfo → Prop} {s : WriteRepository}
  {r t : Recompute}

def Closed (lower : String → Bool) (r : Recompute) (hash : String) (references : List String) : Prop :=
  ∀ reference ∈ references, reference = hash ∨ r.knows reference = true ∨ lower reference = true

theorem knows_eq {hash : String} : r.knows hash = true ↔ hash ∈ r.committed ∨ hash ∈ r.admitted := by
  simp [knows]

theorem not_knows {hash : String} : r.knows hash = false ↔ hash ∉ r.committed ∧ hash ∉ r.admitted := by
  simp [knows]

theorem Closed.mono {lower' : String → Bool} {hash : String} {references : List String}
    (h : Closed lower r hash references) (hlower : ∀ x, lower x = true → lower' x = true)
    (hcommitted : t.committed = r.committed) (hadmitted : ∀ x ∈ r.admitted, x ∈ t.admitted) :
    Closed lower' t hash references := by
  intro reference hreference
  rcases h reference hreference with hself | hknown | hin
  · exact Or.inl hself
  · right
    left
    rw [knows_eq] at hknown ⊢
    rw [hcommitted]
    exact hknown.imp id (hadmitted reference)
  · exact Or.inr (Or.inr (hlower reference hin))

inductive Ticked (lower : String → Bool) (s : WriteRepository) (r : Recompute) : Recompute → Prop
  | again (hpass : r.pass = []) (hprogressed : r.progressed = true) :
    Ticked lower s r { r with pass := r.candidates, references := none, progressed := false }
  | skip {c rest} (hpass : r.pass = c :: rest) (hreferences : r.references = none)
    (h : r.knows c.storePathHash = true ∨ s.lookup c.narRoute = none) :
    Ticked lower s r { r with pass := rest }
  | examine {c rest} (hpass : r.pass = c :: rest) (hreferences : r.references = none)
    (hknows : r.knows c.storePathHash = false) (hfound : (s.lookup c.narRoute).isSome) :
    Ticked lower s r { r with references := some c.references }
  | grant {c rest} (hpass : r.pass = c :: rest) (hreferences : r.references = some []) :
    Ticked lower s r { r with
      admitted := r.admitted ++ [c.storePathHash]
      pass := rest
      references := none
      progressed := true }
  | accept {c rest reference references} (hpass : r.pass = c :: rest)
    (hreferences : r.references = some (reference :: references))
    (h : reference = c.storePathHash ∨ r.knows reference = true ∨ lower reference = true) :
    Ticked lower s r { r with references := some references }
  | refuse {c rest reference references} (hpass : r.pass = c :: rest)
    (hreferences : r.references = some (reference :: references))
    (h : reference ≠ c.storePathHash ∧ r.knows reference = false ∧ lower reference = false) :
    Ticked lower s r { r with pass := rest, references := none }

theorem tick_inl (h : tick lower s r = .inl t) : Ticked lower s r t := by
  unfold tick at h
  split at h
  · next _ hpass =>
    split_ifs at h with hprogressed
    cases h
    exact .again hpass hprogressed
  · next c rest hpass hreferences =>
    split_ifs at h with hskip
    · cases h
      exact .skip hpass hreferences (hskip.imp id Option.isNone_iff_eq_none.mp)
    · cases h
      obtain ⟨hknows, hfound⟩ := not_or.mp hskip
      apply Ticked.examine hpass hreferences
      · simpa using hknows
      · simpa [Option.isSome_iff_ne_none] using hfound
  · next c rest hpass hreferences =>
    cases h
    exact .grant hpass hreferences
  · next c rest reference references hpass hreferences =>
    split_ifs at h with haccept
    · cases h
      exact .accept hpass hreferences haccept
    · cases h
      obtain ⟨hself, hrest⟩ := not_or.mp haccept
      obtain ⟨hknows, hlower⟩ := not_or.mp hrest
      exact .refuse hpass hreferences ⟨hself, by simpa using hknows, by simpa using hlower⟩

theorem tick_inr {admitted : List String} (h : tick lower s r = .inr admitted) :
    r.pass = [] ∧ r.progressed = false ∧ r.admitted = admitted := by
  unfold tick at h
  split at h
  · next _ hpass =>
    split_ifs at h with hprogressed
    cases h
    exact ⟨hpass, by simpa using hprogressed, rfl⟩
  · split_ifs at h
  · simp at h
  · split_ifs at h

structure Granted (lower : String → Bool) (found : StagedNarInfo → Prop) (r : Recompute)
    (c : StagedNarInfo) (references : List String) : Prop where
  candidate : c ∈ r.candidates
  found : found c
  closed : Closed lower r c.storePathHash references

theorem Granted.mono {lower' : String → Bool} {c : StagedNarInfo} {references : List String}
    (h : Granted lower found r c references) (hlower : ∀ x, lower x = true → lower' x = true)
    (hcandidates : t.candidates = r.candidates) (hcommitted : t.committed = r.committed)
    (hadmitted : ∀ x ∈ r.admitted, x ∈ t.admitted) : Granted lower' found t c references where
  candidate := hcandidates ▸ h.candidate
  found := h.found
  closed := h.closed.mono hlower hcommitted hadmitted

/-- Where a recompute stands in its pass, and why it has admitted what it has. -/
structure Sound (lower : String → Bool) (found : StagedNarInfo → Prop) (r : Recompute) : Prop where
  pass : ∃ decided, r.candidates = decided ++ r.pass
  head : ∀ references, r.references = some references → ∃ c rest checked,
    r.pass = c :: rest ∧ c.references = checked ++ references ∧
      r.knows c.storePathHash = false ∧ Granted lower found r c checked
  admitted : ∀ hash ∈ r.admitted, hash ∉ r.committed ∧
    ∃ c, c.storePathHash = hash ∧ Granted lower found r c c.references

theorem Sound.mono {lower' : String → Bool} (h : Sound lower found r)
    (hlower : ∀ x, lower x = true → lower' x = true) : Sound lower' found r := by
  refine ⟨h.pass, ?_, ?_⟩
  · intro references hreferences
    obtain ⟨c, rest, checked, hpass, hsplit, hknows, hgranted⟩ := h.head references hreferences
    exact ⟨c, rest, checked, hpass, hsplit, hknows, hgranted.mono hlower rfl rfl fun _ hx => hx⟩
  · intro hash hhash
    obtain ⟨hnew, c, hid, hgranted⟩ := h.admitted hash hhash
    exact ⟨hnew, c, hid, hgranted.mono hlower rfl rfl fun _ hx => hx⟩

theorem Sound.of_found (h : Sound lower found r) : Sound lower (fun _ => True) r := by
  refine ⟨h.pass, ?_, ?_⟩
  · intro references hreferences
    obtain ⟨c, rest, checked, hpass, hsplit, hknows, hgranted⟩ := h.head references hreferences
    exact ⟨c, rest, checked, hpass, hsplit, hknows, hgranted.candidate, trivial, hgranted.closed⟩
  · intro hash hhash
    obtain ⟨hnew, c, hid, hgranted⟩ := h.admitted hash hhash
    exact ⟨hnew, c, hid, hgranted.candidate, trivial, hgranted.closed⟩

theorem Sound.justified (h : Sound lower found r) (hcandidates : t.candidates = r.candidates)
    (hcommitted : t.committed = r.committed) (hadmitted : t.admitted = r.admitted) :
    ∀ hash ∈ t.admitted, hash ∉ t.committed ∧
      ∃ c, c.storePathHash = hash ∧ Granted lower found t c c.references := by
  intro hash hhash
  rw [hadmitted] at hhash
  obtain ⟨hnew, c, hid, hgranted⟩ := h.admitted hash hhash
  refine ⟨hcommitted ▸ hnew, c, hid, ?_⟩
  exact hgranted.mono (fun _ hx => hx) hcandidates hcommitted fun _ hx => hadmitted ▸ hx

theorem Sound.rest {c : StagedNarInfo} {rest : List StagedNarInfo} (h : Sound lower found r)
    (hpass : r.pass = c :: rest) : ∃ decided, r.candidates = decided ++ rest := by
  obtain ⟨decided, hdecided⟩ := h.pass
  exact ⟨decided ++ [c], by rw [hdecided, hpass]; simp⟩

theorem Sound.pass_mem {c : StagedNarInfo} (h : Sound lower found r) (hc : c ∈ r.pass) :
    c ∈ r.candidates := by
  obtain ⟨decided, hdecided⟩ := h.pass
  rw [hdecided]
  exact List.mem_append_right _ hc

theorem Sound.examined {c : StagedNarInfo} {rest : List StagedNarInfo} {references : List String}
    (h : Sound lower found r) (hpass : r.pass = c :: rest)
    (hreferences : r.references = some references) : ∃ checked,
    c.references = checked ++ references ∧ r.knows c.storePathHash = false ∧
      Granted lower found r c checked := by
  obtain ⟨c', rest', checked, hpass', hsplit, hknows, hgranted⟩ := h.head references hreferences
  obtain ⟨rfl, rfl⟩ : c = c' ∧ rest = rest' := by simpa [hpass] using hpass'
  exact ⟨checked, hsplit, hknows, hgranted⟩

theorem Sound.granted {c : StagedNarInfo} {rest : List StagedNarInfo} (h : Sound lower found r)
    (hpass : r.pass = c :: rest) (hreferences : r.references = some []) :
    r.knows c.storePathHash = false ∧ Granted lower found r c c.references := by
  obtain ⟨checked, hsplit, hknows, hgranted⟩ := h.examined hpass hreferences
  rw [List.append_nil] at hsplit
  exact ⟨hknows, hsplit ▸ hgranted⟩

theorem tick_sound {answer : String → Bool} (hfound : ∀ c, (s.lookup c.narRoute).isSome → found c)
    (hanswer : ∀ reference, r.question = some reference → answer reference = true →
      lower reference = true)
    (h : Sound lower found r) (htick : Ticked answer s r t) : Sound lower found t := by
  cases htick with
  | again hpass hprogressed =>
    exact ⟨⟨[], rfl⟩, by simp, h.justified rfl rfl rfl⟩
  | skip hpass hreferences hskip =>
    exact ⟨h.rest hpass, by simp [hreferences], h.justified rfl rfl rfl⟩
  | @examine c rest hpass hreferences hknows hlookup =>
    refine ⟨h.pass, ?_, h.justified rfl rfl rfl⟩
    intro references heq
    cases heq
    exact ⟨c, rest, [], hpass, rfl, hknows, h.pass_mem (by simp [hpass]), hfound c hlookup,
      by simp [Closed]⟩
  | @grant c rest hpass hreferences =>
    obtain ⟨hknows, hgranted⟩ := h.granted hpass hreferences
    have hmono : ∀ c' references, Granted lower found r c' references →
        Granted lower found { r with
          admitted := r.admitted ++ [c.storePathHash]
          pass := rest
          references := none
          progressed := true } c' references := fun c' references hold =>
      hold.mono (fun _ hx => hx) rfl rfl fun _ hx => List.mem_append_left _ hx
    refine ⟨h.rest hpass, by simp, ?_⟩
    intro hash hhash
    rcases List.mem_append.mp hhash with hold | hlast
    · obtain ⟨hnew, d, hid, hdgranted⟩ := h.admitted hash hold
      exact ⟨hnew, d, hid, hmono _ _ hdgranted⟩
    · obtain rfl := List.mem_singleton.mp hlast
      exact ⟨(not_knows.mp hknows).1, c, rfl, hmono _ _ hgranted⟩
  | @accept c rest reference references hpass hreferences haccept =>
    obtain ⟨checked, hsplit, hknows, hgranted⟩ := h.examined hpass hreferences
    refine ⟨h.pass, ?_, h.justified rfl rfl rfl⟩
    intro references' heq
    cases heq
    refine ⟨c, rest, checked ++ [reference], hpass, by simp [hsplit], hknows, hgranted.candidate,
      hgranted.found, ?_⟩
    intro x hx
    rcases List.mem_append.mp hx with hold | hlast
    · exact hgranted.closed x hold
    · rw [List.mem_singleton.mp hlast]
      by_cases hasked : reference = c.storePathHash ∨ r.knows reference = true
      · exact hasked.elim Or.inl fun hknown => Or.inr (Or.inl hknown)
      · right
        right
        obtain ⟨hself, hunknown⟩ := not_or.mp hasked
        apply hanswer
        · simp only [question, hpass, hreferences, if_neg hasked]
        · exact (haccept.resolve_left hself).resolve_left hunknown
  | refuse hpass hreferences hrefuse => exact ⟨h.rest hpass, by simp, h.justified rfl rfl rfl⟩

theorem waiting_grant {c : StagedNarInfo} (hc : c ∈ r.candidates) (hnew : c.storePathHash ∉ r.admitted)
    (htcandidates : t.candidates = r.candidates)
    (htadmitted : t.admitted = r.admitted ++ [c.storePathHash]) : t.waiting < r.waiting := by
  have hfilter : (r.candidates.filter fun d =>
      d.storePathHash ∉ r.admitted ++ [c.storePathHash]) =
      (r.candidates.filter fun d => d.storePathHash ∉ r.admitted).filter fun d =>
        d.storePathHash ≠ c.storePathHash := by
    rw [List.filter_filter]
    apply List.filter_congr
    intro d _
    simp [and_comm]
  rw [waiting, htcandidates, htadmitted, hfilter, waiting]
  apply List.length_filter_lt_length_iff_exists.mpr
  exact ⟨c, by simp [hc, hnew], by simp⟩

theorem tick_measure (h : Sound lower found r) (htick : Ticked lower s r t) :
    t.measure < r.measure := by
  cases htick with
  | again hpass hprogressed =>
    simp only [measure, waiting, hpass, hprogressed, leftInPass_none, if_true, Nat.add_mul]
    simp [leftInPass]
  | skip hpass hreferences hskip =>
    simp only [measure, waiting, hpass, hreferences, leftInPass_none, passCost_cons]
    omega
  | examine hpass hreferences hknows hlookup =>
    simp only [measure, waiting, hpass, hreferences, leftInPass_none, leftInPass_some, passCost_cons]
    omega
  | @grant c rest hpass hreferences =>
    obtain ⟨hknows, hgranted⟩ := h.granted hpass hreferences
    generalize ht : ({ r with
      admitted := r.admitted ++ [c.storePathHash]
      pass := rest
      references := none
      progressed := true } : Recompute) = t
    have hwaiting : t.waiting < r.waiting :=
      waiting_grant hgranted.candidate (not_knows.mp hknows).2 (by rw [← ht]) (by rw [← ht])
    have hmul : (2 * t.waiting + 1) * (passCost r.candidates + 1) ≤
        (2 * r.waiting + if r.progressed then 1 else 0) * (passCost r.candidates + 1) := by
      apply Nat.mul_le_mul_right
      omega
    have hmeasure : t.measure = (2 * t.waiting + 1) * (passCost r.candidates + 1) + passCost rest := by
      rw [measure, ← ht]
      simp only [leftInPass_none, if_true]
    rw [hmeasure, measure, hpass, hreferences, leftInPass_some]
    omega
  | accept hpass hreferences haccept =>
    simp only [measure, waiting, hpass, hreferences, leftInPass_some, List.length_cons]
    omega
  | refuse hpass hreferences hrefuse =>
    simp only [measure, waiting, hpass, hreferences, leftInPass_none, leftInPass_some]
    omega

theorem Ticked.reading (htick : Ticked lower s r t) :
    t.candidates = r.candidates ∧ t.committed = r.committed := by
  cases htick <;> exact ⟨rfl, rfl⟩

def Blocked (lower : String → Bool) (s : WriteRepository) (r : Recompute) (c : StagedNarInfo) : Prop :=
  s.lookup c.narRoute = none ∨ ∃ reference ∈ c.references,
    reference ≠ c.storePathHash ∧ r.knows reference = false ∧ lower reference = false

/-- As long as a pass admits nothing, the candidates it has left are known or blocked. -/
def Settled (lower : String → Bool) (s : WriteRepository) (r : Recompute) : Prop :=
  r.progressed = false → ∀ c ∈ r.candidates,
    c ∈ r.pass ∨ r.knows c.storePathHash = true ∨ Blocked lower s r c

theorem Settled.skip {c : StagedNarInfo} {rest : List StagedNarInfo} (h : Settled lower s r)
    (hpass : r.pass = c :: rest) (hc : r.knows c.storePathHash = true ∨ Blocked lower s r c) :
    r.progressed = false → ∀ d ∈ r.candidates,
      d ∈ rest ∨ r.knows d.storePathHash = true ∨ Blocked lower s r d := by
  intro hprogressed d hd
  rcases h hprogressed d hd with hleft | hdecided
  · rw [hpass, List.mem_cons] at hleft
    rcases hleft with rfl | hrest
    · exact Or.inr hc
    · exact Or.inl hrest
  · exact Or.inr hdecided

theorem tick_settled (hsound : Sound lower found r) (h : Settled lower s r)
    (htick : Ticked lower s r t) : Settled lower s t := by
  cases htick with
  | again hpass hprogressed =>
    intro _ c hc
    exact Or.inl hc
  | skip hpass hreferences hskip => exact h.skip hpass (hskip.imp id Or.inl)
  | examine hpass hreferences hknows hlookup => exact h
  | grant hpass hreferences => simp [Settled]
  | accept hpass hreferences haccept => exact h
  | @refuse c rest reference references hpass hreferences hrefuse =>
    obtain ⟨checked, hsplit, -, -⟩ := hsound.examined hpass hreferences
    apply h.skip hpass
    right
    right
    exact ⟨reference, by simp [hsplit], hrefuse⟩

/-- A set that holds every candidate whose NAR is found and whose references are the path itself, in
the set, or in the lower cache. -/
def Saturates (lower : String → Bool) (found : StagedNarInfo → Prop) (r : Recompute)
    (E : Set String) : Prop :=
  ∀ c ∈ r.candidates, found c →
    (∀ reference ∈ c.references,
      reference = c.storePathHash ∨ reference ∈ E ∨ lower reference = true) →
    c.storePathHash ∈ E

theorem tick_least {E : Set String} (hE : Saturates lower found r E)
    (hcommitted : ∀ hash ∈ r.committed, hash ∈ E) (hsound : Sound lower found r)
    (h : ∀ hash ∈ r.admitted, hash ∈ E) (htick : Ticked lower s r t) :
    ∀ hash ∈ t.admitted, hash ∈ E := by
  cases htick with
  | @grant c rest hpass hreferences =>
    obtain ⟨-, hgranted⟩ := hsound.granted hpass hreferences
    have hc : c.storePathHash ∈ E := by
      apply hE c hgranted.candidate hgranted.found
      intro reference hreference
      rcases hgranted.closed reference hreference with hself | hknows | hlower
      · exact Or.inl hself
      · right
        left
        exact (knows_eq.mp hknows).elim (hcommitted reference) (h reference)
      · exact Or.inr (Or.inr hlower)
    intro hash hhash
    rcases List.mem_append.mp hhash with hold | hlast
    · exact h hash hold
    · rw [List.mem_singleton.mp hlast]
      exact hc
  | _ => exact h

/-- Whether the NAR of a candidate is staged. -/
def Found (s : WriteRepository) (c : StagedNarInfo) : Prop :=
  (s.lookup c.narRoute).isSome

/-- What holds between two ticks of a recompute that started from `r`. -/
structure Running (lower : String → Bool) (s : WriteRepository) (r t : Recompute) : Prop where
  candidates : t.candidates = r.candidates
  committed : t.committed = r.committed
  sound : Sound lower (Found s) t
  settled : Settled lower s t
  least : ∀ E : Set String, Saturates lower (Found s) r E → (∀ hash ∈ r.committed, hash ∈ E) →
    ∀ hash ∈ t.admitted, hash ∈ E

theorem tick_running {u : Recompute} (h : Running lower s r t) (htick : Ticked lower s t u) :
    Running lower s r u := by
  obtain ⟨hcandidates, hcommitted⟩ := htick.reading
  refine ⟨hcandidates.trans h.candidates, hcommitted.trans h.committed,
    tick_sound (fun _ hc => hc) (fun _ _ hlower => hlower) h.sound htick, tick_settled h.sound h.settled htick, ?_⟩
  intro E hE hin
  apply tick_least _ _ h.sound (h.least E hE hin) htick
  · intro c hc
    exact hE c (h.candidates ▸ hc)
  · intro hash hhash
    exact hin hash (h.committed ▸ hhash)

theorem start_ok {options : EligibilityOptions} {changed : String}
    (h : start options s changed = .ok r) :
    s.affectedCandidates changed options.maxVisited = .ok r.candidates ∧
      r.committed = s.overlayStorePathsOf s.currentGeneration ∧ r.admitted = [] ∧
      r.pass = r.candidates ∧ r.references = none ∧ r.progressed = false := by
  unfold start at h
  split at h
  · simp at h
  · next candidates hcandidates =>
    split_ifs at h
    cases h
    exact ⟨hcandidates, rfl, rfl, rfl, rfl, rfl⟩

theorem start_running (lower : String → Bool) {options : EligibilityOptions} {changed : String}
    (h : start options s changed = .ok r) : Running lower s r r := by
  obtain ⟨-, -, hadmitted, hpass, hreferences, hprogressed⟩ := start_ok h
  refine ⟨rfl, rfl, ⟨⟨[], by simp [hpass]⟩, by simp [hreferences], by simp [hadmitted]⟩, ?_,
    by simp [hadmitted]⟩
  intro _ c hc
  exact Or.inl (hpass ▸ hc)

/-- What a recompute that nothing interrupts admits: of its candidates all those, and only those,
that the rule yields from the current overlay. -/
theorem admits_spec (lower : String → Bool) {options : EligibilityOptions} {changed : String}
    (h : start options s changed = .ok r) : ∃ t, admits options lower s changed = t.admitted ∧
      Running lower s r t ∧
      ∀ c ∈ r.candidates, t.knows c.storePathHash = true ∨ Blocked lower s t c := by
  have hstep : ∀ t u, Running lower s r t → tick lower s t = .inl u →
      Running lower s r u ∧ u.measure < t.measure := by
    intro t u ht htick
    exact ⟨tick_running ht (tick_inl htick), tick_measure ht.sound (tick_inl htick)⟩
  obtain ⟨admitted, hdrain⟩ := drain_isSome hstep (start_running lower h) (Nat.lt_succ_self r.measure)
  obtain ⟨t, ht, hlast⟩ := drain_spec (fun t u ht htick => (hstep t u ht htick).1)
    (start_running lower h) hdrain
  obtain ⟨hpass, hprogressed, hadmitted⟩ := tick_inr hlast
  refine ⟨t, ?_, ht, ?_⟩
  · simp only [admits, h, hdrain, Option.getD_some, hadmitted]
  · intro c hc
    rcases ht.settled hprogressed c (ht.candidates ▸ hc) with hleft | hdecided
    · simp [hpass] at hleft
    · exact hdecided

end Ticks

end Recompute

end NixstrCache.Write
