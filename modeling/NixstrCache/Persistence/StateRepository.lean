import Mathlib.Data.List.Induction
import Mathlib.Data.Prod.Lex
import Mathlib.Data.String.Basic
import Mathlib.Order.OrderDual
import NixstrCache.Lib.KeyedTable
import NixstrCache.Lib.Runs
import NixstrCache.Protocol.Publication

/-!
The repository of selected publications.

It keeps one event for each identity: the newest one it was given, and of two events of one time the
one with the smaller id.  An identity that has shown a signed publication takes an unsigned one only
with consent.  Events are ids in hex, so the order of their texts is the order of their characters.
-/

namespace NixstrCache.Persistence

open KeyedTable Runs Protocol

structure IdentityRow where
  identity : String
  event : Option RawPublication
  createdAt : Option ℤ
  eventId : Option String
  signedHistory : Bool
  unsignedConsent : Bool
deriving DecidableEq, Repr

structure StoredSelection where
  identity : String
  event : RawPublication
  createdAt : ℤ
  eventId : String
  signed : Bool
deriving DecidableEq, Repr

structure IdentityPolicy where
  signedHistory : Bool
  unsignedConsent : Bool
deriving DecidableEq, Repr

inductive RefusalReason where
  | stale
  | downgradeConsentRequired
deriving DecidableEq, Repr

structure AcceptanceResult where
  accepted : Bool
  reason : Option RefusalReason
  selection : Option StoredSelection
deriving DecidableEq, Repr

structure StateRepository where
  identityState : Table IdentityRow.identity

namespace StateRepository

section Operations

def empty : StateRepository := ⟨.empty⟩

def row (s : StateRepository) (identity : String) : Option IdentityRow :=
  s.identityState.find? identity

def loadSelection (s : StateRepository) (identity : String) : Option StoredSelection :=
  match s.row identity with
  | some ⟨_, some event, some createdAt, some eventId, _, _⟩ =>
    some ⟨identity, event, createdAt, eventId,
      event.tags.any fun tag => tag.head? = some "nixSigKey"⟩
  | _ => none

def loadSelections (s : StateRepository) : List StoredSelection :=
  (s.identityState.rows.filter fun r => r.event.isSome).filterMap fun r => s.loadSelection r.identity

def loadPolicy (s : StateRepository) (identity : String) : IdentityPolicy where
  signedHistory := (s.row identity).any IdentityRow.signedHistory
  unsignedConsent := (s.row identity).any IdentityRow.unsignedConsent

/-- A publication is newer than the selection of a row, if there is one. -/
def newer (p : ValidatedPublication) (current : IdentityRow) : Bool :=
  match current.createdAt, current.eventId with
  | some createdAt, some eventId =>
    eventId = "" ∨ createdAt < p.event.createdAt ∨
      (p.event.createdAt = createdAt ∧ p.event.id < eventId)
  | _, _ => true

def signed (p : ValidatedPublication) : Bool :=
  p.nixSigKeys ≠ []

/-- Why `accept` turns a publication down. -/
def refusal (s : StateRepository) (p : ValidatedPublication) : Option RefusalReason :=
  match s.row (cacheIdentity p) with
  | none => none
  | some current =>
    if current.signedHistory ∧ signed p = false ∧ current.unsignedConsent = false then
      some .downgradeConsentRequired
    else if newer p current then none
    else some .stale

/-- The upsert of `accept`. -/
def store (s : StateRepository) (p : ValidatedPublication) : StateRepository where
  identityState := s.identityState.upsert
    ⟨cacheIdentity p, some p.event, some p.event.createdAt, some p.event.id, signed p, false⟩
    (fun r => { r with
      event := some p.event
      createdAt := some p.event.createdAt
      eventId := some p.event.id
      signedHistory := r.signedHistory || signed p })
    fun _ => rfl

/-- `accept`.  A transaction that does not commit throws. -/
def accept (s : StateRepository) (commits : Bool) (p : ValidatedPublication) :
    Option (AcceptanceResult × StateRepository) :=
  match s.refusal p with
  | some reason => some (⟨false, some reason, none⟩, s)
  | none =>
    if commits then
      some (⟨true, none, (s.store p).loadSelection (cacheIdentity p)⟩, s.store p)
    else none

def setUnsignedConsent (s : StateRepository) (identity : String) (allowed : Bool) :
    StateRepository where
  identityState := s.identityState.upsert ⟨identity, none, none, none, false, allowed⟩
    (fun r => { r with unsignedConsent := allowed }) fun _ => rfl

end Operations

section Machine

variable (v : Validator)

inductive StateLabel where
  | accept (publication : Branded v) (commits : Bool)
  | setUnsignedConsent (identity : String) (allowed : Bool)
  | restart

variable {v}

def stateStep (s : StateRepository) : StateLabel v → StateRepository
  | .accept p commits => (s.accept commits p.val).elim s Prod.snd
  | .setUnsignedConsent identity allowed => s.setUnsignedConsent identity allowed
  | .restart => s

end Machine

section Keys

def keyOf (createdAt : ℤ) (eventId : String) : ℤᵒᵈ ×ₗ String :=
  toLex (OrderDual.toDual createdAt, eventId)

def keyOfEvent (event : RawPublication) : ℤᵒᵈ ×ₗ String :=
  keyOf event.createdAt event.id

theorem keyOf_lt {a b : ℤ} {x y : String} : keyOf a x < keyOf b y ↔ b < a ∨ a = b ∧ x < y := by
  rw [keyOf, keyOf, Prod.Lex.toLex_lt_toLex]
  rfl

theorem keyOf_inj {a b : ℤ} {x y : String} (h : keyOf a x = keyOf b y) : a = b ∧ x = y := by
  simpa [keyOf] using h

end Keys

section Rows

variable {s : StateRepository} {p : ValidatedPublication} {identity : String}

theorem store_row (s : StateRepository) (p : ValidatedPublication) (identity : String) :
    (s.store p).row identity = if identity = cacheIdentity p then
      some ⟨cacheIdentity p, some p.event, some p.event.createdAt, some p.event.id,
        (s.loadPolicy identity).signedHistory || signed p, (s.loadPolicy identity).unsignedConsent⟩
      else s.row identity := by
  unfold row store loadPolicy
  rw [Table.find?_upsert]
  split_ifs with h
  · subst h
    cases hrow : s.identityState.find? (cacheIdentity p) with
    | none => simp [row, hrow]
    | some r =>
      have hid := (Table.find?_eq_some.mp hrow).2
      simp [row, hrow, hid]
  · rfl

theorem setUnsignedConsent_row (s : StateRepository) (id identity : String) (allowed : Bool) :
    (s.setUnsignedConsent id allowed).row identity = if identity = id then
      some ((s.row identity).elim ⟨id, none, none, none, false, allowed⟩
        fun r => { r with unsignedConsent := allowed })
      else s.row identity := by
  unfold row setUnsignedConsent
  rw [Table.find?_upsert]

def IdentityRow.Whole (r : IdentityRow) : Prop :=
  (r.event = none ∧ r.createdAt = none ∧ r.eventId = none) ∨
    ∃ e, r.event = some e ∧ r.createdAt = some e.createdAt ∧ r.eventId = some e.id ∧ e.id ≠ ""

def StateInvariant (s : StateRepository) : Prop :=
  ∀ identity r, s.row identity = some r → IdentityRow.Whole r

def selectionOf (identity : String) (event : RawPublication) : StoredSelection :=
  ⟨identity, event, event.createdAt, event.id, event.tags.any fun tag => tag.head? = some "nixSigKey"⟩

theorem empty_invariant : StateInvariant empty := by
  intro identity r h
  simp [row, empty] at h

theorem store_invariant (h : StateInvariant s) (hid : p.event.id ≠ "") :
    StateInvariant (s.store p) := by
  intro identity r hr
  rw [store_row] at hr
  split_ifs at hr
  · obtain rfl := Option.some.inj hr
    exact Or.inr ⟨p.event, rfl, rfl, rfl, hid⟩
  · exact h identity r hr

theorem setUnsignedConsent_invariant (h : StateInvariant s) (id : String) (allowed : Bool) :
    StateInvariant (s.setUnsignedConsent id allowed) := by
  intro identity r hr
  rw [setUnsignedConsent_row] at hr
  split_ifs at hr
  · obtain rfl := Option.some.inj hr
    cases hrow : s.row identity with
    | none => exact Or.inl ⟨rfl, rfl, rfl⟩
    | some q => exact h identity q hrow
  · exact h identity r hr

theorem loadSelection_some (h : StateInvariant s) {selection : StoredSelection} :
    s.loadSelection identity = some selection ↔ ∃ r e, s.row identity = some r ∧ r.event = some e ∧
      selection = selectionOf identity e := by
  unfold loadSelection
  constructor
  · intro hload
    split at hload
    · next id e createdAt eventId signed consent hrow =>
      rcases h identity _ hrow with ⟨hnone, -⟩ | ⟨e', hevent, hcreated, hid, -⟩
      · simp at hnone
      · simp only [Option.some.injEq] at hevent hcreated hid hload
        subst hevent hcreated hid
        exact ⟨_, e, hrow, rfl, hload.symm⟩
    · simp at hload
  · rintro ⟨r, e, hrow, hevent, rfl⟩
    rcases h identity r hrow with ⟨hnone, -⟩ | ⟨e', hevent', hcreated, hid, -⟩
    · simp [hnone] at hevent
    · obtain rfl := Option.some.inj (hevent.symm.trans hevent')
      obtain ⟨id, event, createdAt, eventId, signed, consent⟩ := r
      simp only at hevent hcreated hid
      subst hevent hcreated hid
      rw [hrow]
      rfl

theorem mem_loadSelections {selection : StoredSelection} (h : selection ∈ s.loadSelections) :
    ∃ identity, s.loadSelection identity = some selection := by
  obtain ⟨r, -, hr⟩ := List.mem_filterMap.mp h
  exact ⟨r.identity, hr⟩

theorem store_selection (s : StateRepository) (p : ValidatedPublication) (identity : String) :
    (s.store p).loadSelection identity =
      if identity = cacheIdentity p then some (selectionOf identity p.event)
      else s.loadSelection identity := by
  unfold loadSelection
  rw [store_row]
  split_ifs with h
  · rfl
  · rfl

theorem store_policy (s : StateRepository) (p : ValidatedPublication) (identity : String) :
    (s.store p).loadPolicy identity = if identity = cacheIdentity p then
      ⟨(s.loadPolicy identity).signedHistory || signed p, (s.loadPolicy identity).unsignedConsent⟩
      else s.loadPolicy identity := by
  rw [loadPolicy, store_row]
  split_ifs with h
  · rfl
  · rfl

theorem setUnsignedConsent_selection (s : StateRepository) (id identity : String) (allowed : Bool) :
    (s.setUnsignedConsent id allowed).loadSelection identity = s.loadSelection identity := by
  unfold loadSelection
  rw [setUnsignedConsent_row]
  split_ifs with h
  · cases hrow : s.row identity with
    | none => rfl
    | some r =>
      obtain ⟨-, event, createdAt, eventId, -, -⟩ := r
      cases event <;> cases createdAt <;> cases eventId <;> rfl
  · rfl

theorem setUnsignedConsent_history (s : StateRepository) (id identity : String) (allowed : Bool) :
    ((s.setUnsignedConsent id allowed).loadPolicy identity).signedHistory =
      (s.loadPolicy identity).signedHistory := by
  unfold loadPolicy
  rw [setUnsignedConsent_row]
  split_ifs with h
  · cases hrow : s.row identity with
    | none => rfl
    | some r => rfl
  · rfl

theorem newer_iff {r : IdentityRow} {e : RawPublication} (hcreated : r.createdAt = some e.createdAt)
    (hid : r.eventId = some e.id) (hne : e.id ≠ "") :
    newer p r = true ↔ keyOfEvent p.event < keyOfEvent e := by
  rw [keyOfEvent, keyOfEvent, keyOf_lt]
  simp [newer, hcreated, hid, hne]

/-- What `accept` has checked when it stores a publication. -/
theorem refusal_none (h : StateInvariant s) (hrefusal : s.refusal p = none) :
    (∀ old, s.loadSelection (cacheIdentity p) = some old →
      keyOfEvent p.event < keyOf old.createdAt old.eventId) ∧
    ((s.loadPolicy (cacheIdentity p)).signedHistory = true → signed p = false →
      (s.loadPolicy (cacheIdentity p)).unsignedConsent = true) := by
  unfold refusal at hrefusal
  cases hrow : s.row (cacheIdentity p) with
  | none =>
    refine ⟨fun old hold => ?_, by simp [loadPolicy, hrow]⟩
    obtain ⟨r, e, hr, -⟩ := (loadSelection_some h).mp hold
    simp [hrow] at hr
  | some r =>
    simp only [hrow] at hrefusal
    split_ifs at hrefusal with hdowngrade hnewer
    refine ⟨fun old hold => ?_, fun hhistory hsigned => ?_⟩
    · obtain ⟨q, e, hq, hevent, rfl⟩ := (loadSelection_some h).mp hold
      obtain rfl := Option.some.inj (hrow.symm.trans hq)
      rcases h _ r hrow with ⟨hnone, -⟩ | ⟨e', hevent', hcreated, hid, hne⟩
      · simp [hnone] at hevent
      · obtain rfl := Option.some.inj (hevent.symm.trans hevent')
        exact (newer_iff hcreated hid hne).mp hnewer
    · have hhistory : r.signedHistory = true := by simpa [loadPolicy, hrow] using hhistory
      simpa [loadPolicy, hrow, hhistory, hsigned] using hdowngrade

theorem refusal_signed (h : StateInvariant s) {reason : RefusalReason}
    (hrefusal : s.refusal p = some reason) (hsigned : signed p = true) :
    ∃ old, s.loadSelection (cacheIdentity p) = some old ∧
      keyOf old.createdAt old.eventId ≤ keyOfEvent p.event := by
  unfold refusal at hrefusal
  cases hrow : s.row (cacheIdentity p) with
  | none => simp [hrow] at hrefusal
  | some r =>
    simp only [hrow] at hrefusal
    split_ifs at hrefusal with hdowngrade hnewer
    · simp [hsigned] at hdowngrade
    · rcases h _ r hrow with ⟨-, hcreated, -⟩ | ⟨e, hevent, hcreated, hid, hne⟩
      · simp [newer, hcreated] at hnewer
      · refine ⟨_, (loadSelection_some h).mpr ⟨r, e, hrow, hevent, rfl⟩, ?_⟩
        have hlt : ¬keyOfEvent p.event < keyOfEvent e := fun hlt =>
          hnewer ((newer_iff hcreated hid hne).mpr hlt)
        exact not_lt.mp hlt

/-- The result of an `accept` that does not throw. -/
theorem accept_ok {t : StateRepository} {commits : Bool} {result : AcceptanceResult}
    (h : s.accept commits p = some (result, t)) :
    (∃ reason, s.refusal p = some reason ∧ result.accepted = false ∧ t = s) ∨
      s.refusal p = none ∧ result.accepted = true ∧ t = s.store p := by
  unfold accept at h
  split at h
  · next reason hreason =>
    cases h
    exact Or.inl ⟨reason, hreason, rfl, rfl⟩
  · next hnone =>
    split_ifs at h
    cases h
    exact Or.inr ⟨hnone, rfl, rfl⟩

end Rows

section Runs

variable {v : Validator}

theorem stateStep_accept (s : StateRepository) (p : Branded v) (commits : Bool) :
    stateStep s (.accept p commits) = s ∨
      s.refusal p.val = none ∧ commits = true ∧ stateStep s (.accept p commits) = s.store p.val := by
  cases hrefusal : s.refusal p.val with
  | some reason =>
    left
    simp [stateStep, accept, hrefusal]
  | none =>
    cases commits with
    | false =>
      left
      simp [stateStep, accept, hrefusal]
    | true =>
      right
      simp [stateStep, accept, hrefusal]

theorem stateStep_invariant {s : StateRepository} (h : StateInvariant s) (l : StateLabel v) :
    StateInvariant (stateStep s l) := by
  cases l with
  | accept p commits =>
    rcases stateStep_accept s p commits with hsame | ⟨-, -, hstored⟩
    · rw [hsame]
      exact h
    · rw [hstored]
      exact store_invariant h p.event_id_ne
  | setUnsignedConsent identity allowed => exact setUnsignedConsent_invariant h identity allowed
  | restart => exact h

theorem stateStep_run_invariant (labels : List (StateLabel v)) :
    StateInvariant (run stateStep empty labels) := by
  apply run_preserves (I := StateInvariant)
  · intro s l h
    exact stateStep_invariant h l
  · exact empty_invariant

def arrivals (identity : String) (labels : List (StateLabel v)) : List ValidatedPublication :=
  labels.filterMap fun
    | .accept p true => if cacheIdentity p.val = identity then some p.val else none
    | _ => none

theorem arrivals_event {labels : List (StateLabel v)} {identity : String} :
    ∀ p ∈ arrivals identity labels, ∀ q ∈ arrivals identity labels, p.event.id = q.event.id →
      { p.event with sig := q.event.sig } = q.event := by
  have hverified : ∀ p ∈ arrivals identity labels, v.verifyEvent p.event = some true := by
    intro p hp
    obtain ⟨l, -, hl⟩ := List.mem_filterMap.mp hp
    cases l with
    | accept q commits =>
      cases commits with
      | false => simp at hl
      | true =>
        simp only [Option.ite_none_right_eq_some, Option.some.injEq] at hl
        rw [← hl.2]
        exact q.verified
    | setUnsignedConsent id allowed => simp at hl
    | restart => simp at hl
  intro p hp q hq hid
  exact v.verified_event _ _ (hverified p hp) (hverified q hq) hid

def BestOf (publications : List ValidatedPublication) (selection : Option StoredSelection) : Prop :=
  match selection with
  | none => publications = []
  | some best => (∃ p ∈ publications, best.event = p.event ∧ best.createdAt = p.event.createdAt ∧
      best.eventId = p.event.id) ∧
    ∀ p ∈ publications, keyOf best.createdAt best.eventId ≤ keyOfEvent p.event

theorem BestOf.keep {publications : List ValidatedPublication} {best : StoredSelection}
    (h : BestOf publications (some best)) {p : ValidatedPublication}
    (hle : keyOf best.createdAt best.eventId ≤ keyOfEvent p.event) :
    BestOf (publications ++ [p]) (some best) := by
  obtain ⟨⟨q, hq, hbest⟩, hmin⟩ := h
  refine ⟨⟨q, List.mem_append_left _ hq, hbest⟩, fun r hr => ?_⟩
  rcases List.mem_append.mp hr with hr | hr
  · exact hmin r hr
  · rw [List.mem_singleton.mp hr]
    exact hle

theorem BestOf.replace {publications : List ValidatedPublication} {old : Option StoredSelection}
    (h : BestOf publications old) {p : ValidatedPublication} {identity : String}
    (hlt : ∀ best, old = some best → keyOfEvent p.event < keyOf best.createdAt best.eventId) :
    BestOf (publications ++ [p]) (some (selectionOf identity p.event)) := by
  refine ⟨⟨p, by simp, rfl, rfl, rfl⟩, fun q hq => ?_⟩
  rcases List.mem_append.mp hq with hq | hq
  · cases old with
    | none =>
      obtain rfl : publications = [] := h
      simp at hq
    | some best => exact (hlt best rfl).le.trans (h.2 q hq)
  · rw [List.mem_singleton.mp hq]
    exact le_rfl

theorem run_best {labels : List (StateLabel v)}
    (hsigned : ∀ p, .accept p true ∈ labels → signed p.val = true) (identity : String) :
    BestOf (arrivals identity labels) ((run stateStep empty labels).loadSelection identity) := by
  induction labels using List.reverseRecOn with
  | nil => rfl
  | append_singleton labels l ih =>
    have hinvariant := stateStep_run_invariant labels
    have hbest := ih fun p hp => hsigned p (List.mem_append_left _ hp)
    rw [run_snoc]
    cases l with
    | accept p commits =>
      have harrivals : arrivals identity (labels ++ [.accept p commits]) = arrivals identity labels ++
          (if commits = true ∧ cacheIdentity p.val = identity then [p.val] else []) := by
        cases commits with
        | false => simp [arrivals]
        | true => by_cases hid : cacheIdentity p.val = identity <;> simp [arrivals, hid]
      rw [harrivals]
      rcases stateStep_accept (run stateStep empty labels) p commits with hsame | ⟨hnone, rfl, hstored⟩
      · rw [hsame]
        split_ifs with hhere
        · obtain ⟨rfl, rfl⟩ := hhere
          have hp := hsigned p (by simp)
          cases hrefusal : (run stateStep empty labels).refusal p.val with
          | none =>
            have hstored : stateStep (run stateStep empty labels) (.accept p true) =
                (run stateStep empty labels).store p.val := by
              simp [stateStep, accept, hrefusal]
            have hload := store_selection (run stateStep empty labels) p.val (cacheIdentity p.val)
            rw [if_pos rfl, ← hstored, hsame] at hload
            obtain ⟨hlt, -⟩ := refusal_none hinvariant hrefusal
            exact absurd (hlt _ hload) (lt_irrefl _)
          | some reason =>
            obtain ⟨old, hold, hle⟩ := refusal_signed hinvariant hrefusal hp
            rw [hold] at hbest ⊢
            exact hbest.keep hle
        · simpa using hbest
      · rw [hstored, store_selection]
        by_cases hid : identity = cacheIdentity p.val
        · subst hid
          simp only [and_self, if_true]
          exact hbest.replace (refusal_none hinvariant hnone).1
        · simpa [hid, Ne.symm hid] using hbest
    | setUnsignedConsent id allowed =>
      have harrivals : arrivals identity (labels ++ [.setUnsignedConsent id allowed]) =
          arrivals identity labels := by simp [arrivals]
      rw [harrivals, stateStep, setUnsignedConsent_selection]
      exact hbest
    | restart =>
      have harrivals : arrivals identity (labels ++ [.restart]) = arrivals identity labels := by
        simp [arrivals]
      rw [harrivals]
      exact hbest

theorem store_of_accepted {s t : StateRepository} {p : ValidatedPublication} {commits : Bool}
    {result : AcceptanceResult} (h : s.accept commits p = some (result, t))
    (haccepted : result.accepted = true) : s.refusal p = none ∧ t = s.store p := by
  rcases accept_ok h with ⟨reason, -, hrefused, -⟩ | ⟨hnone, -, hstored⟩
  · simp [hrefused] at haccepted
  · exact ⟨hnone, hstored⟩

theorem stateStep_history {s : StateRepository} {identity : String} (l : StateLabel v)
    (h : (s.loadPolicy identity).signedHistory = true) :
    ((stateStep s l).loadPolicy identity).signedHistory = true := by
  cases l with
  | accept p commits =>
    rcases stateStep_accept s p commits with hsame | ⟨-, -, hstored⟩
    · rw [hsame]
      exact h
    · rw [hstored, store_policy]
      split_ifs with hid
      · simp [h]
      · exact h
  | setUnsignedConsent id allowed =>
    have hhistory := setUnsignedConsent_history s id identity allowed
    exact hhistory.trans h
  | restart => exact h

theorem BestOf.key_le {publications publications' : List ValidatedPublication}
    {best best' : StoredSelection} (h : BestOf publications (some best))
    (h' : BestOf publications' (some best'))
    (hsub : ∀ p, p ∈ publications' → p ∈ publications) :
    keyOf best.createdAt best.eventId ≤ keyOf best'.createdAt best'.eventId := by
  obtain ⟨⟨p, hp, -, hcreated, hid⟩, -⟩ := h'
  rw [hcreated, hid]
  exact h.2 p (hsub p hp)

theorem BestOf.key_eq {publications publications' : List ValidatedPublication}
    {selection selection' : Option StoredSelection} (h : BestOf publications selection)
    (h' : BestOf publications' selection') (hsame : ∀ p, p ∈ publications ↔ p ∈ publications') :
    selection.map (fun best => (best.createdAt, best.eventId)) =
      selection'.map (fun best => (best.createdAt, best.eventId)) := by
  cases selection with
  | none =>
    obtain rfl : publications = [] := h
    cases selection' with
    | none => rfl
    | some best' =>
      obtain ⟨⟨p, hp, -⟩, -⟩ := h'
      simpa using (hsame p).mpr hp
  | some best =>
    cases selection' with
    | none =>
      obtain rfl : publications' = [] := h'
      obtain ⟨⟨p, hp, -⟩, -⟩ := h
      simpa using (hsame p).mp hp
    | some best' =>
      have hle := h.key_le h' fun p hp => (hsame p).mpr hp
      have hge := h'.key_le h fun p hp => (hsame p).mp hp
      obtain ⟨hcreated, hid⟩ := keyOf_inj (le_antisymm hle hge)
      simp [hcreated, hid]

theorem BestOf.event_eq {publications publications' : List ValidatedPublication}
    {best best' : StoredSelection} (h : BestOf publications (some best))
    (h' : BestOf publications' (some best')) (hsame : ∀ p, p ∈ publications ↔ p ∈ publications')
    (hids : ∀ p ∈ publications, ∀ q ∈ publications, p.event.id = q.event.id →
      { p.event with sig := q.event.sig } = q.event) :
    { best'.event with sig := best.event.sig } = best.event := by
  have hkeys := h.key_eq h' hsame
  obtain ⟨⟨p, hp, hevent, -, hid⟩, -⟩ := h
  obtain ⟨⟨q, hq, hevent', -, hid'⟩, -⟩ := h'
  have heventId : best.eventId = best'.eventId := by
    simp only [Option.map_some, Option.some.injEq, Prod.mk.injEq] at hkeys
    exact hkeys.2
  rw [hevent, hevent']
  apply hids q ((hsame q).mpr hq) p hp
  rw [← hid', ← hid, heventId]

/-- Selections only improve, the mark of signed history stays, and an unsigned publication needs
consent against it.  In runs whose publications are signed the stored selection depends only on
which publications have arrived: it is the newest one, and of several the one with the least id. -/
theorem accept_monotone_confluent :
    (∀ (labels : List (StateLabel v)) (p : Branded v) (commits : Bool) result t,
      let s := run stateStep empty labels
      s.accept commits p.val = some (result, t) →
      (result.accepted = false → t = s) ∧
      (result.accepted = true →
        (t.loadSelection (cacheIdentity p.val)).map StoredSelection.event = some p.val.event ∧
        (∀ old, s.loadSelection (cacheIdentity p.val) = some old →
          old.createdAt < p.val.event.createdAt ∨
            old.createdAt = p.val.event.createdAt ∧ p.val.event.id < old.eventId) ∧
        ((s.loadPolicy (cacheIdentity p.val)).signedHistory = true → signed p.val = false →
          (s.loadPolicy (cacheIdentity p.val)).unsignedConsent = true) ∧
        ∀ identity, identity ≠ cacheIdentity p.val → t.loadSelection identity = s.loadSelection identity)) ∧
    (∀ (labels later : List (StateLabel v)) identity,
      ((run stateStep empty labels).loadPolicy identity).signedHistory = true →
      ((run stateStep (run stateStep empty labels) later).loadPolicy identity).signedHistory = true) ∧
    ∀ (labels labels' : List (StateLabel v)) identity,
      (∀ p, .accept p true ∈ labels → signed p.val = true) →
      (∀ p, .accept p true ∈ labels' → signed p.val = true) →
      (∀ p, p ∈ arrivals identity labels ↔ p ∈ arrivals identity labels') →
      let selection := (run stateStep empty labels).loadSelection identity
      let selection' := (run stateStep empty labels').loadSelection identity
      selection.map (fun best => (best.createdAt, best.eventId)) =
        selection'.map (fun best => (best.createdAt, best.eventId)) ∧
      (selection = none ↔ arrivals identity labels = []) ∧
      ∀ best, selection = some best →
        (∃ p ∈ arrivals identity labels, best.event = p.event) ∧
        (∀ p ∈ arrivals identity labels, p.event.createdAt < best.createdAt ∨
          p.event.createdAt = best.createdAt ∧ best.eventId ≤ p.event.id) ∧
        selection'.map (fun best' => { best'.event with sig := best.event.sig }) =
          some best.event := by
  refine ⟨?_, ?_, ?_⟩
  · intro labels p commits result t s haccept
    have hinvariant : StateInvariant s := stateStep_run_invariant labels
    constructor
    · intro hrefused
      rcases accept_ok haccept with ⟨reason, -, -, hsame⟩ | ⟨-, haccepted, -⟩
      · exact hsame
      · simp [hrefused] at haccepted
    · intro haccepted
      obtain ⟨hnone, rfl⟩ := store_of_accepted haccept haccepted
      obtain ⟨hlt, hconsent⟩ := refusal_none hinvariant hnone
      refine ⟨?_, ?_, hconsent, ?_⟩
      · rw [store_selection, if_pos rfl]
        rfl
      · intro old hold
        have hkey := keyOf_lt.mp (hlt old hold)
        rcases hkey with hnewer | ⟨hcreated, hid⟩
        · exact Or.inl hnewer
        · exact Or.inr ⟨hcreated.symm, hid⟩
      · intro identity hne
        rw [store_selection, if_neg hne]
  · intro labels later identity h
    apply run_preserves (I := fun s => (loadPolicy s identity).signedHistory = true)
    · intro s l hs
      exact stateStep_history l hs
    · exact h
  · intro labels labels' identity hsigned hsigned' hsame selection selection'
    have hbest := run_best hsigned identity
    have hbest' := run_best hsigned' identity
    refine ⟨hbest.key_eq hbest' hsame, ?_, ?_⟩
    · constructor
      · intro hnone
        have hnone : (run stateStep empty labels).loadSelection identity = none := hnone
        rw [hnone] at hbest
        exact hbest
      · intro hnil
        rw [hnil] at hbest
        cases hselection : (run stateStep empty labels).loadSelection identity with
        | none => exact hselection
        | some best =>
          rw [hselection] at hbest
          obtain ⟨⟨p, hp, -⟩, -⟩ := hbest
          simp at hp
    · intro best hselection
      have hselection : (run stateStep empty labels).loadSelection identity = some best := hselection
      have hkeys := hbest.key_eq hbest' hsame
      rw [hselection] at hbest hkeys
      obtain ⟨⟨p, hp, hevent, -⟩, hmin⟩ := id hbest
      refine ⟨⟨p, hp, hevent⟩, ?_, ?_⟩
      · intro q hq
        rcases (hmin q hq).lt_or_eq with hlt | heq
        · rcases keyOf_lt.mp hlt with hnewer | ⟨hcreated, hid⟩
          · exact Or.inl hnewer
          · exact Or.inr ⟨hcreated.symm, hid.le⟩
        · obtain ⟨hcreated, hid⟩ := keyOf_inj heq
          exact Or.inr ⟨hcreated.symm, hid.le⟩
      · cases hselection' : (run stateStep empty labels').loadSelection identity with
        | none => simp [hselection'] at hkeys
        | some best' =>
          rw [hselection'] at hbest'
          have hload : selection' = some best' := hselection'
          rw [hload, Option.map_some, hbest.event_eq hbest' hsame arrivals_event]

end Runs

end StateRepository

end NixstrCache.Persistence
