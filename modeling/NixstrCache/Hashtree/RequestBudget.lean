import NixstrCache.Blossom.Population
import NixstrCache.Config.DaemonObjects
import NixstrCache.Lib.Programs
import NixstrCache.Lib.Runs

/-!
The budget of a request, and everything that spends it at the same time.

Any number of fetches and of body streams share one budget.  A fetch takes a slot, asks its sources in
turn and debits every attempt and every chunk that has arrived; a body stream debits every chunk before
it passes it on.  All of them take their steps in any order, next to debits by other callers.
-/

namespace NixstrCache.Hashtree.Serving

open Blossom Config Persistence Programs Protocol Runs

section Budget

/-- The limits of a budget that has been made. -/
structure Limits extends BudgetLimits where
  made : newRequestBudget toBudgetLimits = .ok ()

inductive BudgetError where
  /-- `BudgetExceeded`. -/
  | exceeded (message : String)
  | range (message : String)
deriving DecidableEq, Repr

/-- What has been spent, with `held` of every slot that has been handed out. -/
structure RequestBudget where
  links : ℤ
  nodes : List String
  decoded : ℤ
  attempts : ℤ
  redirects : ℤ
  concurrent : ℤ
  transferred : ℤ
  output : ℤ
  slots : List Bool
deriving DecidableEq, Repr

def RequestBudget.initial : RequestBudget :=
  ⟨0, [], 0, 0, 0, 0, 0, 0, []⟩

abbrev Program := EStateM BudgetError RequestBudget

variable (limits : Limits) (now : ℤ)

/-- An operation that is refused or does its update.  The deadline is checked first. -/
def debit {α : Type} (refusal : RequestBudget → Option BudgetError) (update : RequestBudget → RequestBudget)
    (value : RequestBudget → α) : Program α := fun b =>
  if limits.deadline ≤ now then .error (.exceeded "request deadline exceeded") b
  else
    match refusal b with
    | some e => .error e b
    | none => .ok (value b) (update b)

def exceeded (beyond : Bool) (message : String) : Option BudgetError :=
  if beyond then some (.exceeded message) else none

def checkDepth (depth : ℤ) : Program Unit :=
  debit limits now (fun _ => exceeded (limits.maxDepth < depth) "traversal depth exceeded") id fun _ => ()

def debitLinks (count : ℤ) : Program Unit :=
  debit limits now (fun b => exceeded (limits.maxLinks < b.links + count) "link budget exceeded")
    (fun b => { b with links := b.links + count }) fun _ => ()

def visit (hash : String) : Program Bool :=
  debit limits now
    (fun b => exceeded (hash ∉ b.nodes ∧ limits.maxUniqueNodes ≤ b.nodes.length)
      "unique-node budget exceeded")
    (fun b => if hash ∈ b.nodes then b else { b with nodes := b.nodes ++ [hash] })
    fun b => hash ∉ b.nodes

def debitDecoded (count : ℤ) : Program Unit :=
  debit limits now
    (fun b => exceeded (limits.maxDecodedBytes < b.decoded + count) "decoded-byte budget exceeded")
    (fun b => { b with decoded := b.decoded + count }) fun _ => ()

def debitAttempt : Program Unit :=
  debit limits now (fun b => exceeded (limits.maxAttempts ≤ b.attempts) "source-attempt budget exceeded")
    (fun b => { b with attempts := b.attempts + 1 }) fun _ => ()

def debitRedirect : Program Unit :=
  debit limits now (fun b => exceeded (limits.maxRedirects ≤ b.redirects) "redirect budget exceeded")
    (fun b => { b with redirects := b.redirects + 1 }) fun _ => ()

def RequestBudget.remainingTransferBytes (b : RequestBudget) : ℤ :=
  limits.maxTransferredBytes - b.transferred

def RequestBudget.remainingOutputBytes (b : RequestBudget) : ℤ :=
  limits.maxOutputBytes - b.output

def transferRefusal (count : ℤ) (b : RequestBudget) : Option BudgetError :=
  if isSafeInteger count = false ∨ count < 0 then
    some (.range "transfer debit must be a non-negative safe integer")
  else exceeded (b.remainingTransferBytes limits < count) "request transfer budget exceeded"

def debitTransfer (count : ℤ) : Program Unit :=
  debit limits now (transferRefusal limits count)
    (fun b => { b with transferred := b.transferred + count }) fun _ => ()

def outputRefusal (count : ℤ) (b : RequestBudget) : Option BudgetError :=
  if isSafeInteger count = false ∨ count < 0 then
    some (.range "output size must be a non-negative safe integer")
  else exceeded (b.remainingOutputBytes limits < count) "request output budget exceeded"

def ensureOutputAvailable (count : ℤ) : Program Unit :=
  debit limits now (outputRefusal limits count) id fun _ => ()

def debitOutput (count : ℤ) : Program Unit := do
  ensureOutputAvailable limits now count
  modify fun b => { b with output := b.output + count }

def acquire : Program ℕ :=
  debit limits now (fun b => exceeded (limits.maxConcurrent ≤ b.concurrent) "concurrency budget exceeded")
    (fun b => { b with concurrent := b.concurrent + 1, slots := b.slots ++ [true] })
    fun b => b.slots.length

def RequestBudget.release (b : RequestBudget) (slot : ℕ) : RequestBudget :=
  match b.slots[slot]? with
  | some true => { b with concurrent := b.concurrent - 1, slots := b.slots.set slot false }
  | _ => b

inductive Operation where
  | checkDepth (depth : ℤ)
  | debitLinks (count : ℤ)
  | visit (hash : String)
  | debitDecoded (count : ℤ)
  | debitAttempt
  | debitRedirect
  | debitTransfer (count : ℤ)
  | ensureOutputAvailable (count : ℤ)
  | debitOutput (count : ℤ)
  | acquire
  | release (slot : ℕ)
deriving DecidableEq, Repr

/-- An operation by some caller, who drops what it returns. -/
def Operation.program : Operation → Program Unit
  | .checkDepth depth => Serving.checkDepth limits now depth
  | .debitLinks count => Serving.debitLinks limits now count
  | .visit hash => discard (Serving.visit limits now hash)
  | .debitDecoded count => Serving.debitDecoded limits now count
  | .debitAttempt => Serving.debitAttempt limits now
  | .debitRedirect => Serving.debitRedirect limits now
  | .debitTransfer count => Serving.debitTransfer limits now count
  | .ensureOutputAvailable count => Serving.ensureOutputAvailable limits now count
  | .debitOutput count => Serving.debitOutput limits now count
  | .acquire => discard (Serving.acquire limits now)
  | .release slot => modify fun b => b.release slot

end Budget

section Model

structure Flight where
  hash : String
  population : Population
deriving DecidableEq, Repr

/-- `cleanupStream`, with the pieces in which the file of the blob is still read. -/
structure Body where
  expected : ℕ
  emitted : ℕ
  pieces : List Bytes
  finished : Bool
deriving DecidableEq, Repr

structure State where
  now : ℤ
  budget : RequestBudget
  quarantined : List String
  flights : List Flight
  bodies : List Body
  /-- The bytes that have arrived from sources. -/
  received : ℕ
  /-- The chunks on which the debit has failed. -/
  refused : List ℕ
  /-- The bytes that body streams have passed on. -/
  emitted : ℕ
deriving DecidableEq, Repr

inductive Label where
  | clock (now : ℤ)
  | operate (op : Operation)
  /-- `#fetch`.  The blob may be in the store, or be fetched by another request. -/
  | fetch (hash : String) (sources : List SourceCandidate) (declaredSize : Option ℕ)
      (transferCeiling : ℤ) (elsewhere : Bool)
  /-- The await of a fetch ends, with a blob or an error, and `finally` releases the slot. -/
  | settle (slot : ℕ)
  | advance (flight : ℕ) (e : PopulateEvent)
  /-- Other requests change the quarantine. -/
  | quarantine (origins : List String)
  | openBody (expected : ℕ) (pieces : List Bytes)
  | pull (body : ℕ)
  | cancel (body : ℕ)
deriving DecidableEq, Repr

def State.initial (now : ℤ) (quarantined : List String) : State :=
  ⟨now, .initial, quarantined, [], [], 0, [], 0⟩

variable (hash : Bytes → String) (limits : Limits)

/-- `maxTransferBytes` of a fetch. -/
def transferLimit (declaredSize : Option ℕ) (transferCeiling : ℤ) (b : RequestBudget) : ℤ :=
  min (min limits.maxBlobTransferBytes (b.remainingTransferBytes limits))
    (min transferCeiling ((declaredSize.map Int.ofNat).getD 9007199254740991))

def inFlight : PopulatePhase → Bool
  | .settled _ => false
  | _ => true

def State.busy (s : State) (expected : String) : Bool :=
  s.flights.any fun f => f.hash = expected ∧ inFlight f.population.phase

def State.fetch (s : State) (expected : String) (sources : List SourceCandidate) (declaredSize : Option ℕ)
    (transferCeiling : ℤ) (elsewhere : Bool) : State :=
  if declaredSize.any fun size => limits.maxBlobTransferBytes < size then s
  else
    match acquire limits s.now s.budget with
    | .error _ b => { s with budget := b }
    | .ok slot b =>
      let maxTransferBytes := transferLimit limits declaredSize transferCeiling b
      if maxTransferBytes ≤ 0 then { s with budget := b.release slot }
      else if elsewhere ∨ s.busy expected then { s with budget := b }
      else
        let population := Population.start sources
          ⟨limits.maxAttempts.toNat, maxTransferBytes.toNat, declaredSize⟩ s.quarantined
        { s with budget := b, flights := s.flights ++ [⟨expected, population⟩] }

/-- The loop over the sources has come to one that `beforeAttempt` is called for. -/
def asksAttempt (quarantined : List String) (p : Population) : Bool :=
  match p.phase, p.sources with
  | .choosing, source :: _ => p.attempts < p.limits.maxAttempts ∧ source.origin ∉ quarantined
  | _, _ => false

/-- A read of the body is pending, and what arrives is handed to `onTransfer`. -/
def awaitsChunk (p : Population) : Bool :=
  match p.phase with
  | .transferring _ t => t.reading
  | _ => false

def State.move (s : State) (flight : ℕ) (f : Flight) (e : PopulateEvent) : State :=
  let r := f.population.step hash f.hash s.quarantined e
  { s with
    quarantined := r.quarantines.toList ++ s.quarantined
    flights := s.flights.set flight { f with population := r.population } }

def State.choose (s : State) (flight : ℕ) (f : Flight) : State :=
  if asksAttempt s.quarantined f.population then
    match debitAttempt limits s.now s.budget with
    | .ok _ b => { s with budget := b }.move hash flight f (.choose false)
    | .error _ b => { s with budget := b }.move hash flight f (.choose true)
  else s.move hash flight f (.choose false)

def State.chunk (s : State) (flight : ℕ) (f : Flight) (bytes : Bytes) : State :=
  if awaitsChunk f.population then
    match debitTransfer limits s.now bytes.length s.budget with
    | .ok _ b =>
      { s with budget := b, received := s.received + bytes.length }.move hash flight f
        (.chunk bytes false)
    | .error _ b =>
      { s with
        budget := b
        received := s.received + bytes.length
        refused := bytes.length :: s.refused }.move hash flight f (.chunk bytes true)
  else s

def State.advance (s : State) (flight : ℕ) (e : PopulateEvent) : State :=
  match s.flights[flight]? with
  | none => s
  | some f =>
    match e with
    | .choose _ => s.choose hash limits flight f
    | .chunk bytes _ => s.chunk hash limits flight f bytes
    | e => s.move hash flight f e

/-- `pull` of a body stream. -/
def State.pull (s : State) (body : ℕ) : State :=
  match s.bodies[body]? with
  | none => s
  | some b =>
    if b.finished then s
    else
      match b.pieces with
      | [] => { s with bodies := s.bodies.set body { b with finished := true } }
      | piece :: rest =>
        let read := { b with emitted := b.emitted + piece.length, pieces := rest }
        if b.expected < read.emitted then
          { s with bodies := s.bodies.set body { read with finished := true } }
        else
          match debitOutput limits s.now piece.length s.budget with
          | .ok _ t =>
            { s with
              budget := t
              bodies := s.bodies.set body read
              emitted := s.emitted + piece.length }
          | .error _ t =>
            { s with budget := t, bodies := s.bodies.set body { read with finished := true } }

def State.cancel (s : State) (body : ℕ) : State :=
  match s.bodies[body]? with
  | none => s
  | some b => { s with bodies := s.bodies.set body { b with finished := true } }

def step (s : State) : Label → State
  | .clock now => { s with now := now }
  | .operate op => { s with budget := final (op.program limits s.now) s.budget }
  | .fetch expected sources declaredSize transferCeiling elsewhere =>
    s.fetch limits expected sources declaredSize transferCeiling elsewhere
  | .settle slot => { s with budget := s.budget.release slot }
  | .advance flight e => s.advance hash limits flight e
  | .quarantine origins => { s with quarantined := origins }
  | .openBody expected pieces => { s with bodies := s.bodies ++ [⟨expected, 0, pieces, false⟩] }
  | .pull body => s.pull limits body
  | .cancel body => s.cancel body

end Model

section Operations

/-- No counter is above its limit, and what is concurrent are the slots that are held. -/
structure RequestBudget.Within (limits : Limits) (b : RequestBudget) : Prop where
  links : b.links ≤ limits.maxLinks
  nodes : b.nodes.length ≤ limits.maxUniqueNodes
  decoded : b.decoded ≤ limits.maxDecodedBytes
  attempts : b.attempts ≤ limits.maxAttempts
  redirects : b.redirects ≤ limits.maxRedirects
  concurrent : b.concurrent ≤ limits.maxConcurrent
  transferred : b.transferred ≤ limits.maxTransferredBytes
  output : b.output ≤ limits.maxOutputBytes
  held : b.concurrent = b.slots.count true

structure Spends (limits : Limits) (b t : RequestBudget) : Prop where
  within : b.Within limits → t.Within limits
  transferred : b.transferred ≤ t.transferred
  output : b.output ≤ t.output

variable {limits : Limits} {now : ℤ} {b t : RequestBudget} {e : BudgetError} {count : ℤ}

theorem Spends.refl (b : RequestBudget) : Spends limits b b :=
  ⟨id, le_refl _, le_refl _⟩

theorem checkPositive_pos {message : String} {entries : List (String × ℤ)}
    (h : checkPositive message entries = .ok ()) : ∀ entry ∈ entries, 0 < entry.2 := by
  induction entries with
  | nil => simp
  | cons entry entries ih =>
    obtain ⟨name, value⟩ := entry
    rw [checkPositive] at h
    split at h
    · cases h
    next positive =>
      push Not at positive
      intro other held
      rcases List.mem_cons.mp held with rfl | held
      · exact positive.2
      · exact ih h other held

theorem Limits.pos (limits : Limits) : ∀ entry ∈ limits.entries, 0 < entry.2 :=
  checkPositive_pos limits.made

theorem initial_within (limits : Limits) : RequestBudget.initial.Within limits := by
  have pos := limits.pos
  simp only [BudgetLimits.entries, List.forall_mem_cons] at pos
  obtain ⟨-, links, nodes, decoded, attempts, redirects, concurrent, -, transferred, output, -⟩ := pos
  exact ⟨links.le, nodes.le, decoded.le, attempts.le, redirects.le, concurrent.le, transferred.le,
    output.le, rfl⟩

def Refuses {α : Type} (p : Program α) : Prop :=
  ∀ b e t, p b = .error e t → t = b

section Debits

variable {α : Type} {refusal : RequestBudget → Option BudgetError}
variable {update : RequestBudget → RequestBudget} {value : RequestBudget → α}

theorem debit_refuses : Refuses (debit limits now refusal update value) := by
  intro b e t h
  unfold debit at h
  split at h
  · cases h
    rfl
  · split at h
    · cases h
      rfl
    · cases h

theorem debit_ok {a : α} (h : debit limits now refusal update value b = .ok a t) :
    now < limits.deadline ∧ refusal b = none ∧ a = value b ∧ t = update b := by
  unfold debit at h
  split at h
  · cases h
  next live =>
    split at h
    · cases h
    next allowed =>
      cases h
      exact ⟨not_le.mp live, allowed, rfl, rfl⟩

theorem debit_runs (live : now < limits.deadline) (allowed : refusal b = none) :
    debit limits now refusal update value b = .ok (value b) (update b) := by
  rw [debit, if_neg (not_le.mpr live), allowed]

theorem debit_spends (h : ∀ b, refusal b = none → Spends limits b (update b)) :
    Keeps (Spends limits) (debit limits now refusal update value) := by
  intro b
  cases run : debit limits now refusal update value b with
  | error e t =>
    rw [final_error run, debit_refuses b e t run]
    exact Spends.refl b
  | ok a t =>
    obtain ⟨-, allowed, -, rfl⟩ := debit_ok run
    rw [final_ok run]
    exact h b allowed

end Debits

theorem exceeded_none {beyond : Bool} {message : String} (h : exceeded beyond message = none) :
    beyond = false := by
  cases beyond
  · rfl
  · cases h

theorem transferRefusal_none (h : transferRefusal limits count b = none) :
    0 ≤ count ∧ b.transferred + count ≤ limits.maxTransferredBytes := by
  unfold transferRefusal at h
  split at h
  · cases h
  next counts =>
    push Not at counts
    have room := of_decide_eq_false (exceeded_none h)
    rw [RequestBudget.remainingTransferBytes] at room
    exact ⟨counts.2, by omega⟩

theorem outputRefusal_none (h : outputRefusal limits count b = none) :
    0 ≤ count ∧ b.output + count ≤ limits.maxOutputBytes := by
  unfold outputRefusal at h
  split at h
  · cases h
  next counts =>
    push Not at counts
    have room := of_decide_eq_false (exceeded_none h)
    rw [RequestBudget.remainingOutputBytes] at room
    exact ⟨counts.2, by omega⟩

theorem debitOutput_eq (limits : Limits) (now count : ℤ) :
    debitOutput limits now count = debit limits now (outputRefusal limits count)
      (fun b => { b with output := b.output + count }) fun _ => () := by
  funext b
  unfold debitOutput ensureOutputAvailable
  cases run : debit limits now (outputRefusal limits count) id (fun _ => ()) b with
  | error e t =>
    rw [bind_error.mpr (.inl run)]
    unfold debit at run ⊢
    split at run
    next late => rw [if_pos late, ← run]
    next live =>
      rw [if_neg live]
      cases found : outputRefusal limits count b with
      | some refused =>
        rw [found] at run
        exact run.symm
      | none =>
        rw [found] at run
        cases run
  | ok a t =>
    obtain ⟨live, allowed, -, rfl⟩ := debit_ok run
    rw [bind_eq run, debit_runs live allowed]
    rfl

theorem discard_ok {α : Type} {p : Program α} {a : α} (h : p b = .ok a t) :
    discard p b = .ok ⟨⟩ t := by
  change (p >>= fun _ => pure PUnit.unit) b = _
  rw [bind_eq h]
  rfl

theorem discard_error {α : Type} {p : Program α} (h : p b = .error e t) :
    discard p b = .error e t := by
  change (p >>= fun _ => pure PUnit.unit) b = _
  exact bind_error.mpr (.inl h)

theorem discard_refuses {α : Type} {p : Program α} (h : Refuses p) : Refuses (discard p) := by
  intro b e t failed
  cases run : p b with
  | ok a u =>
    rw [discard_ok run] at failed
    cases failed
  | error e' u =>
    rw [discard_error run] at failed
    cases failed
    exact h b e t run

theorem discard_spends {α : Type} {p : Program α} (h : Keeps (Spends limits) p) :
    Keeps (Spends limits) (discard p) := by
  intro b
  have spends := h b
  cases run : p b with
  | ok a t =>
    rw [final_ok run] at spends
    rwa [final_ok (discard_ok run)]
  | error e t =>
    rw [final_error run] at spends
    rwa [final_error (discard_error run)]

theorem count_release {slots : List Bool} {slot : ℕ} (h : slots[slot]? = some true) :
    slots.count true = (slots.set slot false).count true + 1 := by
  induction slots generalizing slot with
  | nil => cases h
  | cons held slots ih =>
    cases slot with
    | zero =>
      obtain rfl : held = true := by simpa using h
      simp
    | succ slot =>
      have there : slots[slot]? = some true := by simpa using h
      have rest := ih there
      simp only [List.set_cons_succ, List.count_cons]
      omega

theorem release_spends (slot : ℕ) (b : RequestBudget) : Spends limits b (b.release slot) := by
  unfold RequestBudget.release
  split
  next held =>
    refine ⟨?_, le_refl _, le_refl _⟩
    intro h
    have slots := count_release held
    have concurrent := h.held
    refine { h with concurrent := ?_, held := ?_ }
    · have := h.concurrent
      change b.concurrent - 1 ≤ _
      omega
    · change b.concurrent - 1 = ((b.slots.set slot false).count true : ℕ)
      omega
  · exact Spends.refl b

theorem acquire_spends : Keeps (Spends limits) (acquire limits now) := by
  refine debit_spends fun b allowed => ⟨fun h => ?_, le_refl _, le_refl _⟩
  have room := not_le.mp (of_decide_eq_false (exceeded_none allowed))
  refine { h with concurrent := room, held := ?_ }
  change b.concurrent + 1 = ((b.slots ++ [true]).count true : ℕ)
  rw [List.count_append, h.held]
  rfl

theorem program_spends (op : Operation) : Keeps (Spends limits) (op.program limits now) := by
  cases op with
  | checkDepth depth => exact debit_spends fun b _ => Spends.refl b
  | debitLinks count =>
    refine debit_spends fun b allowed => ⟨fun h => { h with links := ?_ }, le_refl _, le_refl _⟩
    exact not_lt.mp (of_decide_eq_false (exceeded_none allowed))
  | visit hash =>
    refine discard_spends (debit_spends fun b allowed => ?_)
    have room := of_decide_eq_false (exceeded_none allowed)
    split
    · exact Spends.refl b
    next fresh =>
      refine ⟨fun h => { h with nodes := ?_ }, le_refl _, le_refl _⟩
      rw [List.length_append, List.length_singleton]
      push Not at room
      have := room fresh
      push_cast
      omega
  | debitDecoded count =>
    refine debit_spends fun b allowed => ⟨fun h => { h with decoded := ?_ }, le_refl _, le_refl _⟩
    exact not_lt.mp (of_decide_eq_false (exceeded_none allowed))
  | debitAttempt =>
    refine debit_spends fun b allowed => ⟨fun h => { h with attempts := ?_ }, le_refl _, le_refl _⟩
    exact not_le.mp (of_decide_eq_false (exceeded_none allowed))
  | debitRedirect =>
    refine debit_spends fun b allowed => ⟨fun h => { h with redirects := ?_ }, le_refl _, le_refl _⟩
    exact not_le.mp (of_decide_eq_false (exceeded_none allowed))
  | debitTransfer count =>
    refine debit_spends fun b allowed => ?_
    obtain ⟨natural, room⟩ := transferRefusal_none allowed
    exact ⟨fun h => { h with transferred := room }, le_add_of_nonneg_right natural, le_refl _⟩
  | ensureOutputAvailable count => exact debit_spends fun b _ => Spends.refl b
  | debitOutput count =>
    change Keeps _ (Serving.debitOutput limits now count)
    rw [debitOutput_eq]
    refine debit_spends fun b allowed => ?_
    obtain ⟨natural, room⟩ := outputRefusal_none allowed
    exact ⟨fun h => { h with output := room }, le_refl _, le_add_of_nonneg_right natural⟩
  | acquire => exact discard_spends acquire_spends
  | release slot => exact release_spends slot

theorem program_refuses (op : Operation) : Refuses (op.program limits now) := by
  cases op with
  | checkDepth depth => exact debit_refuses
  | debitLinks count => exact debit_refuses
  | visit hash => exact discard_refuses debit_refuses
  | debitDecoded count => exact debit_refuses
  | debitAttempt => exact debit_refuses
  | debitRedirect => exact debit_refuses
  | debitTransfer count => exact debit_refuses
  | ensureOutputAvailable count => exact debit_refuses
  | debitOutput count =>
    change Refuses (Serving.debitOutput limits now count)
    rw [debitOutput_eq]
    exact debit_refuses
  | acquire => exact discard_refuses debit_refuses
  | release slot =>
    intro b e t h
    cases h

end Operations

section Runs

variable {hash : Bytes → String} {limits : Limits} {s t : State} {flight : ℕ} {f : Flight}

/-- A chunk that arrives has been debited, or its debit has failed; what a body passes on has been
debited. -/
structure Sound (limits : Limits) (s : State) : Prop where
  within : s.budget.Within limits
  received : s.received ≤ s.budget.transferred + s.refused.sum
  emitted : s.emitted ≤ s.budget.output

theorem initial_sound (limits : Limits) (now : ℤ) (quarantined : List String) :
    Sound limits (.initial now quarantined) :=
  ⟨initial_within limits, le_refl _, le_refl _⟩

/-- A step that spends and receives nothing, and passes nothing on. -/
structure Quiet (limits : Limits) (s t : State) : Prop where
  budget : Spends limits s.budget t.budget
  received : t.received = s.received
  refused : t.refused = s.refused
  emitted : t.emitted = s.emitted

theorem Quiet.sound (h : Quiet limits s t) (hs : Sound limits s) : Sound limits t := by
  refine ⟨h.budget.within hs.within, ?_, ?_⟩
  · rw [h.received, h.refused]
    have := hs.received
    have := h.budget.transferred
    omega
  · rw [h.emitted]
    exact hs.emitted.trans h.budget.output

theorem Quiet.refl (s : State) : Quiet limits s s :=
  ⟨Spends.refl _, rfl, rfl, rfl⟩

theorem move_quiet (s : State) (flight : ℕ) (f : Flight) (e : PopulateEvent) :
    Quiet limits s (s.move hash flight f e) :=
  ⟨Spends.refl _, rfl, rfl, rfl⟩

theorem Spends.quiet {b : RequestBudget} (h : Spends limits s.budget b) :
    Quiet limits s { s with budget := b } :=
  ⟨h, rfl, rfl, rfl⟩

theorem fetch_quiet (s : State) (expected : String) (sources : List SourceCandidate)
    (declaredSize : Option ℕ) (transferCeiling : ℤ) (elsewhere : Bool) :
    Quiet limits s (s.fetch limits expected sources declaredSize transferCeiling elsewhere) := by
  have spends : Spends limits s.budget (final (acquire limits s.now) s.budget) := acquire_spends s.budget
  unfold State.fetch
  split
  · exact Quiet.refl s
  · split
    next run =>
      rw [final_error run] at spends
      exact spends.quiet
    next slot b run =>
      rw [final_ok run] at spends
      dsimp only
      split_ifs
      · have released : Spends limits b (b.release slot) := release_spends slot b
        exact Spends.quiet ⟨fun h => released.within (spends.within h),
          spends.transferred.trans released.transferred, spends.output.trans released.output⟩
      · exact spends.quiet
      · exact ⟨spends, rfl, rfl, rfl⟩

theorem choose_quiet (s : State) (flight : ℕ) (f : Flight) :
    Quiet limits s (s.choose hash limits flight f) := by
  have spends : Spends limits s.budget (final (debitAttempt limits s.now) s.budget) :=
    program_spends .debitAttempt s.budget
  unfold State.choose
  split
  · split
    next run =>
      rw [final_ok run] at spends
      exact ⟨spends, rfl, rfl, rfl⟩
    next run =>
      rw [final_error run] at spends
      exact ⟨spends, rfl, rfl, rfl⟩
  · exact move_quiet s flight f _

theorem chunk_cases (hash : Bytes → String) (limits : Limits) (s : State) (flight : ℕ) (f : Flight)
    (bytes : Bytes) :
    (awaitsChunk f.population = false ∧ s.chunk hash limits flight f bytes = s) ∨
    (s.now < limits.deadline ∧ transferRefusal limits bytes.length s.budget = none ∧
      s.chunk hash limits flight f bytes =
        { s with
          budget := { s.budget with transferred := s.budget.transferred + bytes.length }
          received := s.received + bytes.length }.move hash flight f (.chunk bytes false)) ∨
    (awaitsChunk f.population = true ∧
      ¬(s.now < limits.deadline ∧ transferRefusal limits bytes.length s.budget = none) ∧
      s.chunk hash limits flight f bytes =
        { s with
          received := s.received + bytes.length
          refused := bytes.length :: s.refused }.move hash flight f (.chunk bytes true)) := by
  unfold State.chunk
  cases awaits : awaitsChunk f.population with
  | false => exact .inl ⟨rfl, rfl⟩
  | true =>
    rw [if_pos rfl]
    cases run : debitTransfer limits s.now bytes.length s.budget with
    | ok a b =>
      obtain ⟨live, allowed, -, rfl⟩ := debit_ok run
      exact .inr (.inl ⟨live, allowed, rfl⟩)
    | error e b =>
      obtain rfl := debit_refuses _ _ _ run
      refine .inr (.inr ⟨rfl, ?_, rfl⟩)
      rintro ⟨live, allowed⟩
      rw [debitTransfer, debit_runs live allowed] at run
      cases run

theorem chunk_sound (bytes : Bytes) (hs : Sound limits s) :
    Sound limits (s.chunk hash limits flight f bytes) := by
  rcases chunk_cases hash limits s flight f bytes with ⟨-, same⟩ |
    ⟨-, allowed, same⟩ | ⟨-, -, same⟩
  · rwa [same]
  · rw [same]
    obtain ⟨-, room⟩ := transferRefusal_none allowed
    refine (move_quiet _ flight f _).sound ⟨{ hs.within with transferred := room }, ?_, hs.emitted⟩
    have before := hs.received
    change ((s.received + bytes.length : ℕ) : ℤ) ≤ s.budget.transferred + bytes.length + s.refused.sum
    omega
  · rw [same]
    refine (move_quiet _ flight f _).sound ⟨hs.within, ?_, hs.emitted⟩
    have before := hs.received
    change ((s.received + bytes.length : ℕ) : ℤ) ≤ s.budget.transferred + (bytes.length :: s.refused).sum
    rw [List.sum_cons]
    omega

theorem advance_sound (flight : ℕ) (e : PopulateEvent) (hs : Sound limits s) :
    Sound limits (s.advance hash limits flight e) := by
  unfold State.advance
  split
  · exact hs
  · split
    · exact (choose_quiet s flight _).sound hs
    · exact chunk_sound _ hs
    · exact (move_quiet s flight _ e).sound hs

theorem pull_sound (body : ℕ) (hs : Sound limits s) : Sound limits (s.pull limits body) := by
  unfold State.pull
  split
  · exact hs
  next b _ =>
    split
    · exact hs
    · split
      · exact ⟨hs.within, hs.received, hs.emitted⟩
      next piece rest _ =>
        dsimp only
        split
        · exact ⟨hs.within, hs.received, hs.emitted⟩
        · split
          next t run =>
            rw [debitOutput_eq] at run
            obtain ⟨-, allowed, -, rfl⟩ := debit_ok run
            obtain ⟨-, room⟩ := outputRefusal_none allowed
            refine ⟨{ hs.within with output := room }, hs.received, ?_⟩
            have before := hs.emitted
            change ((s.emitted + piece.length : ℕ) : ℤ) ≤ s.budget.output + piece.length
            omega
          next t run =>
            rw [debitOutput_eq] at run
            obtain rfl := debit_refuses _ _ _ run
            exact ⟨hs.within, hs.received, hs.emitted⟩

theorem step_sound (label : Label) (hs : Sound limits s) : Sound limits (step hash limits s label) := by
  cases label with
  | clock now => exact ⟨hs.within, hs.received, hs.emitted⟩
  | operate op => exact (program_spends op s.budget).quiet.sound hs
  | fetch expected sources declaredSize transferCeiling elsewhere =>
    exact (fetch_quiet s expected sources declaredSize transferCeiling elsewhere).sound hs
  | settle slot => exact (release_spends slot s.budget).quiet.sound hs
  | advance flight e => exact advance_sound flight e hs
  | quarantine origins => exact ⟨hs.within, hs.received, hs.emitted⟩
  | openBody expected pieces => exact ⟨hs.within, hs.received, hs.emitted⟩
  | pull body => exact pull_sound body hs
  | cancel body =>
    change Sound limits (s.cancel body)
    unfold State.cancel
    split
    · exact hs
    · exact ⟨hs.within, hs.received, hs.emitted⟩

def State.arrives (s : State) (flight : ℕ) : Bool :=
  s.flights[flight]?.any fun f => awaitsChunk f.population

/-- Where the debit of a chunk has failed, no other chunk arrives whose debit fails. -/
def OneRefusal (limits : Limits) (s : State) : Label → Prop
  | .advance flight (.chunk bytes _) => s.refused = [] ∨ s.arrives flight = false ∨
      (s.now < limits.deadline ∧ transferRefusal limits bytes.length s.budget = none)
  | _ => True

instance (limits : Limits) (s : State) : (label : Label) → Decidable (OneRefusal limits s label)
  | .advance _ (.chunk _ _) => inferInstanceAs (Decidable (_ ∨ _ ∨ _))
  | .advance _ (.choose _) | .advance _ .refuse | .advance _ (.respond _ _) | .advance _ .pull
  | .advance _ .finish | .advance _ .disconnect | .advance _ .take | .advance _ .storeFails
  | .advance _ .reject | .advance _ (.settle _ _) | .advance _ .abort | .clock _ | .operate _
  | .fetch _ _ _ _ _ | .settle _ | .quarantine _ | .openBody _ _ | .pull _ | .cancel _ =>
    inferInstanceAs (Decidable True)

theorem fetch_refused (s : State) (expected : String) (sources : List SourceCandidate)
    (declaredSize : Option ℕ) (transferCeiling : ℤ) (elsewhere : Bool) :
    (s.fetch limits expected sources declaredSize transferCeiling elsewhere).refused = s.refused :=
  (fetch_quiet s expected sources declaredSize transferCeiling elsewhere).refused

theorem pull_refused (s : State) (body : ℕ) : (s.pull limits body).refused = s.refused := by
  unfold State.pull
  split
  · rfl
  · split
    · rfl
    · split
      · rfl
      · dsimp only
        split_ifs
        · rfl
        · split <;> rfl

theorem chunk_refused {bytes : Bytes} {refused : Bool} (found : s.flights[flight]? = some f)
    (h : OneRefusal limits s (.advance flight (.chunk bytes refused))) (hs : s.refused.length ≤ 1) :
    (s.chunk hash limits flight f bytes).refused.length ≤ 1 := by
  rcases chunk_cases hash limits s flight f bytes with ⟨-, same⟩ |
    ⟨-, -, same⟩ | ⟨awaits, failed, same⟩
  · rwa [same]
  · rw [same]
    exact hs
  · have first : s.refused = [] := by
      rcases h with first | absent | debited
      · exact first
      · rw [State.arrives, found, Option.any_some, awaits] at absent
        cases absent
      · exact absurd debited failed
    rw [same]
    simp [State.move, first]

theorem step_refused (label : Label) (h : OneRefusal limits s label) (hs : s.refused.length ≤ 1) :
    (step hash limits s label).refused.length ≤ 1 := by
  cases label with
  | advance flight e =>
    change (s.advance hash limits flight e).refused.length ≤ 1
    unfold State.advance
    split
    · exact hs
    next f found =>
      split
      · rwa [(choose_quiet s flight f).refused]
      · exact chunk_refused found h hs
      · exact hs
  | fetch expected sources declaredSize transferCeiling elsewhere =>
    change (s.fetch limits expected sources declaredSize transferCeiling elsewhere).refused.length ≤ 1
    rwa [fetch_refused]
  | pull body =>
    change (s.pull limits body).refused.length ≤ 1
    rwa [pull_refused]
  | cancel body =>
    change (s.cancel body).refused.length ≤ 1
    unfold State.cancel
    split <;> exact hs
  | clock | operate | settle | quarantine | openBody => exact hs

/-- In every run all counters stay within their limits, an operation that fails changes nothing, what
is concurrent are the slots that are held, and what is passed on is within its limit.  Where the debit of
at most one chunk fails, so is what is received but for that chunk. -/
theorem budget_sound (hash : Bytes → String) (limits : Limits) (now : ℤ) (quarantined : List String)
    (labels : List Label) :
    let s := run (step hash limits) (.initial now quarantined) labels
    s.budget.Within limits ∧
      (∀ (op : Operation) (e : BudgetError) (b : RequestBudget),
        op.program limits s.now s.budget = .error e b → b = s.budget) ∧
      (s.budget.concurrent = s.budget.slots.count true ∧ 0 ≤ s.budget.concurrent) ∧
      s.emitted ≤ limits.maxOutputBytes ∧
      (Always (step hash limits) (OneRefusal limits) (.initial now quarantined) labels →
        s.refused = [] ∧ s.received ≤ limits.maxTransferredBytes ∨
          ∃ chunk, s.refused = [chunk] ∧ s.received ≤ limits.maxTransferredBytes + chunk) := by
  intro s
  have sound : Sound limits s :=
    run_preserves (fun s label hs => step_sound label hs) labels (initial_sound limits now quarantined)
  have held := sound.within.held
  refine ⟨sound.within, ?_, ⟨held, by omega⟩, sound.emitted.trans sound.within.output, ?_⟩
  · exact fun op e b failed => program_refuses op _ e b failed
  · intro h
    have single : s.refused.length ≤ 1 :=
      run_invariant (I := fun s => s.refused.length ≤ 1)
        (fun s label hs hlabel => step_refused label hlabel hs) (Nat.zero_le _) h
    have received := sound.received
    have transferred := sound.within.transferred
    match refused : s.refused, single with
    | [], _ =>
      refine .inl ⟨rfl, ?_⟩
      rw [refused, List.sum_nil] at received
      omega
    | [chunk], _ =>
      refine .inr ⟨chunk, rfl, ?_⟩
      rw [refused, List.sum_singleton] at received
      omega

end Runs

section Samples

def smallLimits : Limits where
  maxDepth := 4
  maxLinks := 8
  maxUniqueNodes := 8
  maxDecodedBytes := 100
  maxAttempts := 4
  maxRedirects := 4
  maxConcurrent := 2
  maxBlobTransferBytes := 10
  maxTransferredBytes := 10
  maxOutputBytes := 10
  deadline := 1000
  made := rfl

def sampleServer (origin : String) : SourceCandidate :=
  ⟨origin, origin, .publisher, .publisher⟩

def sends (bytes : ℕ) : List Label :=
  [.advance 0 (.choose false), .advance 0 (.respond 200 .absent), .advance 0 .pull,
    .advance 0 (.chunk (List.replicate bytes 0) false)]

/-- The first source sends more than the budget has left, and the next one is asked. -/
def twoSources (bytes : ℕ) : List Label :=
  [Label.fetch "blob" [sampleServer "https://a.example", sampleServer "https://b.example"] none 10 false] ++
    sends 11 ++ [Label.advance 0 .reject] ++ sends bytes

theorem budget_sound_sample :
    ∃ chunk, (run (step (fun _ => "") smallLimits) (.initial 0 []) (twoSources 5)).refused = [chunk] ∧
      (run (step (fun _ => "") smallLimits) (.initial 0 []) (twoSources 5)).received ≤
        smallLimits.maxTransferredBytes + chunk := by
  obtain ⟨-, -, -, -, transfers⟩ := budget_sound (fun _ => "") smallLimits 0 [] (twoSources 5)
  have single : Always (step (fun _ => "") smallLimits) (OneRefusal smallLimits) (.initial 0 [])
      (twoSources 5) := by decide +kernel
  rcases transfers single with ⟨none_refused, -⟩ | bounded
  · exact absurd none_refused (by decide +kernel)
  · exact bounded

/-- The failure of the debit is taken for a failure of the source, so that both sources send a chunk
that the budget refuses. -/
theorem budget_exceeded : ¬∀ labels : List Label,
    let s := run (step (fun _ => "") smallLimits) (.initial 0 []) labels
    ∃ chunk, (chunk = 0 ∨ chunk ∈ s.refused) ∧ s.received ≤ smallLimits.maxTransferredBytes + chunk := by
  intro h
  obtain ⟨chunk, one, bound⟩ := h (twoSources 11)
  have refused : (run (step (fun _ => "") smallLimits) (.initial 0 []) (twoSources 11)).refused =
      [11, 11] := by decide +kernel
  have received : (run (step (fun _ => "") smallLimits) (.initial 0 []) (twoSources 11)).received =
      22 := by decide +kernel
  have limit : smallLimits.maxTransferredBytes = 10 := rfl
  rw [refused] at one
  rw [received, limit] at bound
  simp only [List.mem_cons, List.not_mem_nil, or_false, or_self] at one
  rcases one with rfl | rfl <;> norm_num at bound

end Samples

end NixstrCache.Hashtree.Serving
