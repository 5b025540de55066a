import NixstrCache.Nostr.Selection

/-!
Runs of the selection.

An emission arms the timer for the nearest expiration, or for the ceiling when that is further away.
The delay is counted from the whole second, so a timer that is armed inside a second is due late.  A
callback that finds nothing expired computes the value that was emitted last, so nothing is emitted and
the timer is not armed again.  What has expired lets an older publication of its identity through
when the store holds one that lasts longer.
-/

namespace NixstrCache.Nostr

open KeyedTable Runs Protocol Persistence

namespace Selector

section Steps

variable {v : Validator} {store : EventStore} {options : SelectionOptions} {s : Selector}

/-- What `accept` leaves. -/
inductive AcceptCase (v : Validator) (store : EventStore) (s : Selector) (event : RawPublication)
    (taken : Bool) : Selector → Prop
  | same : AcceptCase v store s event taken s
  | serverList (blossomEvents : Table RawPublication.pubkey) (hkind : event.kind = 10063) :
    AcceptCase v store s event taken (add v store { s with blossomEvents } event)
  | stored (publication : ValidatedPublication)
    (hvalid : validatePublication v event s.now = .ok publication)
    (hpubkey : publication.event.pubkey ∈ s.publishers)
    (hidentity : cacheIdentity publication ∈ s.identitySet)
    (hrefusal : s.repository.refusal publication = none) (htaken : taken = true) :
    AcceptCase v store s event taken
      (add v store { s with repository := s.repository.store publication } event)
  | lost (publication : ValidatedPublication)
    (hvalid : validatePublication v event s.now = .ok publication)
    (hrefusal : s.repository.refusal publication = none) (htaken : taken = false) :
    AcceptCase v store s event taken { s with repository := s.repository.store publication }

theorem acceptServerList_case (event : RawPublication) (taken : Bool) (hkind : event.kind = 10063) :
    AcceptCase v store s event taken (acceptServerList v store s event).2 := by
  unfold acceptServerList
  split
  · exact .same
  · split
    · exact .same
    · exact .same
    · split
      · exact .same
      · exact .serverList _ hkind

theorem accept_case (event : RawPublication) (commits taken : Bool) :
    AcceptCase v store s event taken (accept v store s event commits taken).2 := by
  unfold accept
  split
  · next hkind => exact acceptServerList_case event taken hkind
  · split
    · exact .same
    · next publication hvalid =>
      split
      · exact .same
      · next hpubkey =>
        split
        · exact .same
        · next hidentity =>
          split
          · exact .same
          · next acceptance repository haccept =>
            split
            · exact .same
            · next haccepted =>
              obtain ⟨hrefusal, rfl⟩ :=
                StateRepository.store_of_accepted haccept (by simpa using haccepted)
              split
              · next htaken =>
                rw [(validatePublication_ok.mp hvalid).event]
                exact .stored publication hvalid (not_not.mp hpubkey) (not_not.mp hidentity) hrefusal
                  htaken
              · next htaken => exact .lost publication hvalid hrefusal (by simpa using htaken)

theorem start_preserves {P : Selector → Prop} {repository : StateRepository} {clock : ℤ}
    (hfresh : P (fresh options repository clock))
    (hadd : ∀ s event publication, P s → s.repository = repository → s.clock = clock →
      (∃ stored ∈ repository.loadSelections, stored.event = event) →
      validatePublication v event (clock / 1000) = .ok publication → publication.event.pubkey ∈ s.publishers →
      cacheIdentity publication ∈ s.identitySet → P (add v store s event)) :
    P (start v store options repository clock) := by
  have hfold : ∀ selections : List StoredSelection,
      (∀ stored ∈ selections, stored ∈ repository.loadSelections) →
      ∀ s : Selector, P s → s.repository = repository → s.clock = clock →
        P (selections.foldl (restore v store) s) := by
    intro selections
    induction selections with
    | nil =>
      intro _ s hs _ _
      exact hs
    | cons stored selections ih =>
      intro hall s hs hrepository hclock
      have hrest : ∀ other ∈ selections, other ∈ repository.loadSelections := fun other hother =>
        hall other (List.mem_cons_of_mem _ hother)
      rw [List.foldl_cons]
      have hadded : ∀ event, (add v store s event).repository = s.repository ∧
          (add v store s event).clock = s.clock := by
        intro event
        rcases refresh_cases v store { s with given := s.given ++ [event] } with
          ⟨hsame, -⟩ | hemit
        · rw [add, hsame]
          exact ⟨rfl, rfl⟩
        · rw [add, hemit]
          exact ⟨rfl, rfl⟩
      unfold restore
      split
      · exact ih hrest s hs hrepository hclock
      · next publication hvalid =>
        split_ifs with hauthorized
        · have hevent := (validatePublication_ok.mp hvalid).event
          obtain ⟨hrepository', hclock'⟩ := hadded publication.event
          apply ih hrest
          · rw [now, hclock] at hvalid
            apply hadd s publication.event publication hs hrepository hclock
            · exact ⟨stored, hall stored (by simp), hevent.symm⟩
            · rw [hevent]
              exact hvalid
            · exact hauthorized.1
            · exact hauthorized.2
          · rw [hrepository', hrepository]
          · rw [hclock', hclock]
        · exact ih hrest s hs hrepository hclock
  exact hfold _ (fun _ h => h) _ hfresh rfl rfl

end Steps

section Samples

def samplePublication (id : Char) (createdAt : ℤ) (expiration : List (List String)) :
    RawPublication where
  id := String.ofList (List.replicate 64 id)
  pubkey := "p"
  createdAt
  kind := 17091
  tags := ["htree", "htree://nhash1"] :: expiration
  content := ""
  sig := ""

def samplePublications : List RawPublication :=
  [samplePublication 'a' 89 [], samplePublication 'b' 90 [["expiration", "110"]],
    samplePublication 'c' 91 [["expiration", "3000100"]]]

def sampleValidator : Validator where
  verifyEvent raw := some (decide (raw ∈ samplePublications))
  verified_id raw h := by
    have hmem : raw ∈ samplePublications := by simpa using h
    have hall : ∀ raw ∈ samplePublications, isEventId raw.id = true := by decide
    exact hall raw hmem
  verified_event a b ha hb hid := by
    have ha : a ∈ samplePublications := by simpa using ha
    have hb : b ∈ samplePublications := by simpa using hb
    have hall : ∀ a ∈ samplePublications, ∀ b ∈ samplePublications, a.id = b.id →
        { a with sig := b.sig } = b := by decide
    exact hall a ha b hb hid
  parseUrl _ := none
  toLowerCase := id
  bech32 := {
    decode := fun _ _ => some ("nhash", [])
    encode := fun _ _ _ => "nhash1"
    fromWords := fun _ => some (0 :: 32 :: List.replicate 32 0)
    toWords := fun _ => [] }

def sampleStore : EventStore where
  timeline kinds given := given.filter fun event => event.kind ∈ kinds

theorem sampleStore_showsAll : sampleStore.ShowsAll := fun kinds given event => by
  simp [sampleStore]

def sampleOptions : SelectionOptions :=
  ⟨["p"], ["17091:p:"]⟩

def sampleRun (events : List Event) : Selector :=
  run (step sampleValidator sampleStore sampleOptions)
    (start sampleValidator sampleStore sampleOptions .empty 100000) events

end Samples

section Expiry

variable {v : Validator} {store : EventStore} {options : SelectionOptions} {s : Selector}

def Expired (s : Selector) (item : SelectedPublication) : Prop :=
  ∃ time ∈ item.publication.expiresAt, time ≤ s.now

instance (s : Selector) (item : SelectedPublication) : Decidable (Expired s item) :=
  inferInstanceAs (Decidable (∃ time ∈ item.publication.expiresAt, time ≤ s.now))

/-- A timer that is armed for the value is due by its nearest expiration: the clock shows a whole second,
or the ceiling ends before the expiration. -/
def OnTime (clock : ℤ) (value : List SelectedPublication) : Prop :=
  ∀ nearest ∈ nearestExpiry value, clock % 1000 = 0 ∨ clock + timerCeiling ≤ nearest * 1000

instance (clock : ℤ) (value : List SelectedPublication) : Decidable (OnTime clock value) :=
  inferInstanceAs (Decidable (∀ nearest ∈ nearestExpiry value,
    clock % 1000 = 0 ∨ clock + timerCeiling ≤ nearest * 1000))

theorem wakeFor_due {value : List SelectedPublication} {clock nearest : ℤ}
    (hnearest : nearestExpiry value = some nearest) (hlater : clock / 1000 < nearest) :
    (∃ wake ∈ wakeFor value clock, wake.due ≤ nearest * 1000) ↔ OnTime clock value := by
  have hceiling : timerCeiling = 2147483647 := rfl
  have hwake : wakeFor value clock =
      some ⟨clock, min timerCeiling (max 0 (nearest - clock / 1000) * 1000)⟩ := by
    rw [wakeFor, hnearest]
    rfl
  simp only [hwake, OnTime, hnearest, Option.mem_some_iff, exists_eq_left', forall_eq', Wake.due]
  omega

/-- The current value was valid once, and the timer is armed for its nearest expiration. -/
structure Woken (v : Validator) (s : Selector) : Prop where
  validated : ∀ item ∈ s.current,
    ∃ now, validatePublication v item.publication.event now = .ok item.publication
  armed : ∀ nearest, nearestExpiry s.current = some nearest → ∃ wake ∈ s.expirationHandle,
    wake.due ≤ nearest * 1000 ∧ wake.delayMs ≤ timerCeiling

theorem wakeFor_delay {value : List SelectedPublication} {clock : ℤ} {wake : Wake}
    (h : wake ∈ wakeFor value clock) : wake.delayMs ≤ timerCeiling := by
  obtain ⟨nearest, -, rfl⟩ := Option.map_eq_some_iff.mp h
  exact min_le_left _ _

theorem woken_of_wakeFor (hvalid : ∀ item ∈ s.current,
      validatePublication v item.publication.event s.now = .ok item.publication)
    (hhandle : s.expirationHandle = wakeFor s.current s.clock) (htime : OnTime s.clock s.current) :
    Woken v s := by
  refine ⟨fun item hitem => ⟨s.now, hvalid item hitem⟩, fun nearest hnearest => ?_⟩
  have hspec := nearestExpiry_spec s.current
  simp only [hnearest] at hspec
  obtain ⟨⟨item, hitem, hexpires⟩, -⟩ := hspec
  have hlater := (validatePublication_ok.mp (hvalid item hitem)).expires_after hexpires
  obtain ⟨wake, hwake, hdue⟩ := (wakeFor_due hnearest hlater).mpr htime
  exact ⟨wake, hhandle ▸ hwake, hdue, wakeFor_delay hwake⟩

theorem emit_woken (htime : OnTime s.clock (selection v store s)) :
    Woken v (s.emit (selection v store s)) :=
  woken_of_wakeFor (s := s.emit (selection v store s)) (fun _ hitem => selection_now hitem) rfl htime

def EmitsOnTime (v : Validator) (store : EventStore) (s : Selector) : Prop :=
  shown (selection v store s) = shown s.current ∨ OnTime s.clock (selection v store s)

instance (v : Validator) (store : EventStore) (s : Selector) : Decidable (EmitsOnTime v store s) :=
  inferInstanceAs (Decidable (shown (selection v store s) = shown s.current ∨
    OnTime s.clock (selection v store s)))

theorem refresh_woken (h : Woken v s) (htime : EmitsOnTime v store s) : Woken v (refresh v store s) := by
  unfold refresh
  split_ifs with hshown
  · exact h
  · exact emit_woken (htime.resolve_left hshown)

theorem Woken.congr {t : Selector} (h : Woken v s) (hcurrent : t.current = s.current)
    (hhandle : t.expirationHandle = s.expirationHandle) : Woken v t := by
  constructor
  · rw [hcurrent]
    exact h.validated
  · rw [hcurrent, hhandle]
    exact h.armed

theorem refresh_expired (store : EventStore) (h : ∀ item ∈ s.current,
      ∃ now, validatePublication v item.publication.event now = .ok item.publication)
    (hexpired : ∃ item ∈ s.current, Expired s item) :
    refresh v store s = s.emit (selection v store s) := by
  rcases refresh_cases v store s with ⟨-, hshown⟩ | hemit
  · obtain ⟨item, hitem, time, htime, hle⟩ := hexpired
    obtain ⟨other, hother, hid⟩ := shown_eq hshown hitem
    obtain ⟨now, hvalid⟩ := h item hitem
    have hnow := selection_now hother
    have hexpires := (validatePublication_id hnow hvalid hid).2
    have hlater := (validatePublication_ok.mp hnow).expires_after (hexpires.trans htime)
    omega
  · exact hemit

theorem start_woken (repository : StateRepository) (clock : ℤ)
    (htime : OnTime clock (start v store options repository clock).current) :
    Woken v (start v store options repository clock) := by
  obtain ⟨hvalid, hhandle, hclock⟩ : (∀ item ∈ (start v store options repository clock).current,
      validatePublication v item.publication.event (clock / 1000) = .ok item.publication) ∧
      (start v store options repository clock).expirationHandle =
        wakeFor (start v store options repository clock).current clock ∧
      (start v store options repository clock).clock = clock := by
    apply start_preserves (P := fun s => (∀ item ∈ s.current,
      validatePublication v item.publication.event (clock / 1000) = .ok item.publication) ∧
        s.expirationHandle = wakeFor s.current clock ∧ s.clock = clock)
    · exact ⟨fun item hitem => absurd hitem List.not_mem_nil, rfl, rfl⟩
    · rintro s event publication h _ rfl _ _ _ _
      unfold add
      rcases refresh_cases v store { s with given := s.given ++ [event] } with ⟨hsame, -⟩ | hemit
      · rw [hsame]
        exact h
      · rw [hemit]
        have hnow : ∀ item ∈ selection v store { s with given := s.given ++ [event] },
            validatePublication v item.publication.event (s.clock / 1000) = .ok item.publication :=
          fun item hitem => selection_now (s := { s with given := s.given ++ [event] }) hitem
        exact ⟨hnow, rfl, rfl⟩
  refine woken_of_wakeFor ?_ ?_ ?_
  · rw [now, hclock]
    exact hvalid
  · rw [hclock]
    exact hhandle
  · rw [hclock]
    exact htime

/-- A callback that runs finds a publication that has expired, and whatever is emitted is emitted on
time. -/
def WakesToExpiry (v : Validator) (store : EventStore) (options : SelectionOptions) (s : Selector) :
    Event → Prop
  | .accept event commits taken => (accept v store s event commits taken).1 = .admitted →
      EmitsOnTime v store { s with given := s.given ++ [event] }
  | .authorizePublicationPublisher pubkey identity => EmitsOnTime v store
      { s with
        publishers := s.publishers.insert pubkey
        identitySet := s.identitySet.insert identity
        identityOrder := identity :: s.identityOrder.erase identity }
  | .callback => ∀ wake ∈ s.expirationHandle, wake.due ≤ s.clock →
      (∃ item ∈ s.current, Expired s item) ∧ OnTime s.clock (selection v store s)
  | .restart => OnTime s.clock (start v store options s.repository s.clock).current
  | .authorizeBlossomPublisher _ | .setUnsignedConsent .. | .advance _ => True

instance (v : Validator) (store : EventStore) (options : SelectionOptions) (s : Selector) :
    (e : Event) → Decidable (WakesToExpiry v store options s e)
  | .accept event commits taken => inferInstanceAs (Decidable
      ((accept v store s event commits taken).1 = .admitted →
        EmitsOnTime v store { s with given := s.given ++ [event] }))
  | .authorizePublicationPublisher pubkey identity => inferInstanceAs (Decidable (EmitsOnTime v store
      { s with
        publishers := s.publishers.insert pubkey
        identitySet := s.identitySet.insert identity
        identityOrder := identity :: s.identityOrder.erase identity }))
  | .callback => inferInstanceAs (Decidable (∀ wake ∈ s.expirationHandle, wake.due ≤ s.clock →
      (∃ item ∈ s.current, Expired s item) ∧ OnTime s.clock (selection v store s)))
  | .restart => inferInstanceAs (Decidable
      (OnTime s.clock (start v store options s.repository s.clock).current))
  | .authorizeBlossomPublisher _ | .setUnsignedConsent .. | .advance _ => isTrue trivial

def AdmitsOrKeeps (s : Selector) (result : Admission × Selector) : Prop :=
  result.1 = .admitted ∨
    result.2.current = s.current ∧ result.2.expirationHandle = s.expirationHandle

theorem acceptServerList_keeps (event : RawPublication) :
    AdmitsOrKeeps s (acceptServerList v store s event) := by
  unfold acceptServerList
  split
  · exact .inr ⟨rfl, rfl⟩
  · split
    · exact .inr ⟨rfl, rfl⟩
    · exact .inr ⟨rfl, rfl⟩
    · split
      · exact .inr ⟨rfl, rfl⟩
      · exact .inl rfl

theorem accept_keeps (event : RawPublication) (commits taken : Bool) :
    AdmitsOrKeeps s (accept v store s event commits taken) := by
  unfold accept
  split
  · exact acceptServerList_keeps event
  · split
    · exact .inr ⟨rfl, rfl⟩
    · split
      · exact .inr ⟨rfl, rfl⟩
      · split
        · exact .inr ⟨rfl, rfl⟩
        · split
          · exact .inr ⟨rfl, rfl⟩
          · split
            · exact .inr ⟨rfl, rfl⟩
            · split
              · exact .inl rfl
              · exact .inr ⟨rfl, rfl⟩

theorem Woken.accepted {event : RawPublication} {commits taken : Bool} (h : Woken v s)
    (htime : (accept v store s event commits taken).1 = .admitted →
      EmitsOnTime v store { s with given := s.given ++ [event] }) :
    Woken v (accept v store s event commits taken).2 := by
  have hkeeps : AdmitsOrKeeps s (accept v store s event commits taken) :=
    accept_keeps event commits taken
  rcases hkeeps with hadmitted | ⟨hcurrent, hhandle⟩
  · have hcase : AcceptCase v store s event taken (accept v store s event commits taken).2 :=
      accept_case event commits taken
    generalize (accept v store s event commits taken).2 = t at hcase
    cases hcase with
    | same => exact h
    | serverList blossomEvents => exact refresh_woken (h.congr rfl rfl) (htime hadmitted)
    | stored publication => exact refresh_woken (h.congr rfl rfl) (htime hadmitted)
    | lost publication => exact h.congr rfl rfl
  · exact h.congr hcurrent hhandle

theorem step_woken (h : Woken v s) (e : Event) (hwakes : WakesToExpiry v store options s e) :
    Woken v (step v store options s e) := by
  cases e with
  | accept event commits taken => exact h.accepted hwakes
  | authorizePublicationPublisher pubkey identity => exact refresh_woken (h.congr rfl rfl) hwakes
  | authorizeBlossomPublisher pubkey => exact h.congr rfl rfl
  | setUnsignedConsent identity allowed => exact h.congr rfl rfl
  | advance milliseconds => exact h.congr rfl rfl
  | callback =>
    change Woken v (callback v store s)
    unfold callback
    split
    · exact h
    · next wake hwake =>
      split
      · next hdue =>
        obtain ⟨hexpired, htime⟩ := hwakes wake hwake hdue
        rw [refresh_expired store (s := { s with expirationHandle := none }) h.validated hexpired]
        exact emit_woken htime
      · exact h
  | restart => exact start_woken s.repository s.clock hwakes

/-- When every callback that runs finds something expired and every timer is armed on time, what has
expired leaves the selection with the callback, and the timer is armed for whatever expires next. -/
theorem expired_leave_selection (clock : ℤ) (events : List Event)
    (h : Always (step v store options) (WakesToExpiry v store options) (start v store options .empty clock)
      events) :
    let s := run (step v store options) (start v store options .empty clock) events
    ((∀ wake ∈ s.expirationHandle, s.clock < wake.due) → ∀ item ∈ s.current, ¬Expired s item) ∧
      ∀ item ∈ s.current, ∀ time, item.publication.expiresAt = some time →
        ∃ wake ∈ s.expirationHandle, wake.due ≤ time * 1000 ∧ wake.due ≤ wake.armedAt + timerCeiling := by
  intro s
  have hstart : Woken v (start v store options .empty clock) :=
    start_woken _ clock fun nearest hnearest => absurd hnearest (by simp [start, fresh, nearestExpiry,
      StateRepository.loadSelections, StateRepository.empty])
  have hwoken : Woken v s :=
    run_invariant (I := Woken v) (C := WakesToExpiry v store options)
      (fun _ e hs hwakes => step_woken hs e hwakes) hstart h
  have hwake : ∀ item ∈ s.current, ∀ time, item.publication.expiresAt = some time →
      ∃ wake ∈ s.expirationHandle, wake.due ≤ time * 1000 ∧ wake.due ≤ wake.armedAt + timerCeiling := by
    intro item hitem time htime
    have hspec := nearestExpiry_spec s.current
    cases hnearest : nearestExpiry s.current with
    | none =>
      simp only [hnearest] at hspec
      simp [hspec item hitem] at htime
    | some nearest =>
      simp only [hnearest] at hspec
      obtain ⟨wake, hhandle, hdue, hdelay⟩ := hwoken.armed nearest hnearest
      have hle := hspec.2 item hitem time htime
      refine ⟨wake, hhandle, by omega, ?_⟩
      simp only [Wake.due]
      omega
  refine ⟨?_, hwake⟩
  rintro hpending item hitem ⟨time, htime, hle⟩
  obtain ⟨wake, hhandle, hdue, -⟩ := hwake item hitem time htime
  have hlater := hpending wake hhandle
  have hpast : s.clock / 1000 < time := by omega
  exact absurd hle (not_le.mpr hpast)

theorem expired_leave_selection_sample :
    let events := [.accept (samplePublication 'b' 90 [["expiration", "110"]]) true true, .advance 10000,
      .callback]
    ((∀ wake ∈ (sampleRun events).expirationHandle, (sampleRun events).clock < wake.due) →
      ∀ item ∈ (sampleRun events).current, ¬Expired (sampleRun events) item) ∧
      ∀ item ∈ (sampleRun events).current, ∀ time, item.publication.expiresAt = some time →
        ∃ wake ∈ (sampleRun events).expirationHandle, wake.due ≤ time * 1000 ∧
          wake.due ≤ wake.armedAt + timerCeiling :=
  expired_leave_selection 100000 _ (by decide +kernel)

/-- The wake-up at the ceiling finds nothing new, so none follows it. -/
theorem clamped_wake_up_is_last :
    let s := sampleRun [.accept (samplePublication 'c' 91 [["expiration", "3000100"]]) true true,
      .advance 2147484000, .callback, .advance 852516000]
    s.expirationHandle = none ∧ ∃ item ∈ s.current, Expired s item := by
  decide +kernel

/-- A timer that is armed inside a second comes late by what has passed of it. -/
example :
    let s := sampleRun [.advance 900, .accept (samplePublication 'b' 90 [["expiration", "110"]]) true true,
      .advance 9100]
    s.expirationHandle.map Wake.due = some 110900 ∧ s.clock = 110000 ∧ ∃ item ∈ s.current, Expired s item := by
  decide +kernel

end Expiry

section History

variable {v : Validator} {store : EventStore} {options : SelectionOptions} {s : Selector}

def Outlived : Option ℤ → Option ℤ → Prop
  | _, none => True
  | none, some _ => False
  | some older, some newer => older ≤ newer

instance : DecidableRel Outlived
  | _, none => isTrue trivial
  | none, some _ => isFalse id
  | some older, some newer => inferInstanceAs (Decidable (older ≤ newer))

theorem Outlived.refl (expiresAt : Option ℤ) : Outlived expiresAt expiresAt := by
  cases expiresAt with
  | none => trivial
  | some time => exact le_refl time

theorem Outlived.trans {a b c : Option ℤ} (hab : Outlived a b) (hbc : Outlived b c) :
    Outlived a c := by
  cases c with
  | none => trivial
  | some z =>
    cases b with
    | none => exact absurd hbc id
    | some y =>
      cases a with
      | none => exact absurd hab id
      | some x => exact le_trans (show x ≤ y from hab) (show y ≤ z from hbc)

def Genuine (v : Validator) (s : Selector) (identity : String) (selection : StoredSelection) : Prop :=
  ∃ publication, (∃ now ≤ s.now, validatePublication v selection.event now = .ok publication) ∧
    cacheIdentity publication = identity ∧ selection.eventId = selection.event.id

/-- A publication in the store is authorized, and the selection of its identity is in the store too,
comes before it and lasts at least as long. -/
structure Superseded (v : Validator) (s : Selector) (event : RawPublication)
    (publication : ValidatedPublication) (selection : StoredSelection) : Prop where
  valid : ∃ now ≤ s.now, validatePublication v event now = .ok publication
  pubkey : publication.event.pubkey ∈ s.publishers
  identity : cacheIdentity publication ∈ s.identitySet
  selected : s.repository.loadSelection (cacheIdentity publication) = some selection
  given : selection.event ∈ s.given
  kind : selection.event.kind ∈ [17091, 37091]
  before : TakenBefore selection.event event
  outlived : ∀ best now, validatePublication v selection.event now = .ok best →
    Outlived publication.expiresAt best.expiresAt

structure Recorded (v : Validator) (s : Selector) : Prop where
  repository : StateRepository.StateInvariant s.repository
  genuine : ∀ identity selection, s.repository.loadSelection identity = some selection →
    Genuine v s identity selection
  given : ∀ event ∈ s.given, event.kind ∈ [17091, 37091] →
    ∃ publication selection, Superseded v s event publication selection

def Selected (v : Validator) (s : Selector) : Prop :=
  ∀ item ∈ s.current,
    (∃ now, validatePublication v item.publication.event now = .ok item.publication) ∧
    (s.repository.loadSelection (cacheIdentity item.publication)).map StoredSelection.eventId =
      some item.publication.event.id

theorem winner_recorded (hstore : store.ShowsAll) (h : Recorded v s) {identity : String} {publication : ValidatedPublication}
    (hwinner : winner v store s identity = some publication) :
    (s.repository.loadSelection identity).map StoredSelection.eventId =
      some publication.event.id := by
  obtain ⟨hmem, hidentity, hfirst⟩ := winner_some hwinner
  obtain ⟨⟨event, hgiven, hkind, hvalid⟩, -⟩ := (mem_publications hstore).mp hmem
  obtain ⟨publication', selection, hsuperseded⟩ := h.given event hgiven hkind
  obtain ⟨now, -, hvalid'⟩ := hsuperseded.valid
  obtain rfl := validatePublication_eq hvalid hvalid'
  have hselected := hsuperseded.selected
  rw [hidentity] at hselected
  obtain ⟨best, ⟨earlier, hearlier, hbest⟩, hbestIdentity, heventId⟩ :=
    h.genuine identity selection hselected
  have hsafe := (checkEvent_ok.mp (validatePublication_ok.mp hvalid).checked).1
  -- the selection lasts at least as long as the winner, which holds now
  have hnow : validatePublication v selection.event s.now = .ok best := by
    apply validatePublication_later hbest hearlier hsafe
    intro time htime
    have houtlived := hsuperseded.outlived best earlier hbest
    rw [htime] at houtlived
    cases hexpires : publication.expiresAt with
    | none =>
      rw [hexpires] at houtlived
      exact absurd houtlived id
    | some older =>
      rw [hexpires] at houtlived
      have hle : older ≤ time := houtlived
      have hlater := (validatePublication_ok.mp hvalid).expires_after hexpires
      omega
  have hcandidate : best ∈ publications v store s := by
    obtain ⟨best', selection', hauthorized⟩ := h.given selection.event hsuperseded.given hsuperseded.kind
    obtain ⟨now', -, hvalid'⟩ := hauthorized.valid
    obtain rfl := validatePublication_eq hnow hvalid'
    exact (mem_publications hstore).mpr ⟨⟨selection.event, hsuperseded.given, hsuperseded.kind, hnow⟩,
      hauthorized.pubkey, hauthorized.identity⟩
  have hback := hfirst best hcandidate hbestIdentity
  rw [(validatePublication_ok.mp hbest).event] at hback
  have hbefore := hsuperseded.before
  rw [← (validatePublication_ok.mp hvalid).event] at hbefore
  rw [hselected, Option.map_some, heventId, hbefore.id_eq hback]

theorem refresh_selected (hstore : store.ShowsAll) (h : Recorded v s) (hvalid : ∀ item ∈ s.current,
      ∃ now, validatePublication v item.publication.event now = .ok item.publication) :
    Selected v (refresh v store s) := by
  have hselection : ∀ item ∈ selection v store s,
      (s.repository.loadSelection (cacheIdentity item.publication)).map StoredSelection.eventId =
        some item.publication.event.id := by
    intro item hitem
    obtain ⟨identity, -, hwinner⟩ := mem_selection hitem
    rw [(winner_some hwinner).2.1]
    exact winner_recorded hstore h hwinner
  rcases refresh_cases v store s with ⟨hsame, hshown⟩ | hemit
  · rw [hsame]
    intro item hitem
    obtain ⟨now, hitemValid⟩ := hvalid item hitem
    obtain ⟨other, hother, hid⟩ := shown_eq hshown hitem
    have hidentity := (validatePublication_id (selection_now hother) hitemValid hid).1
    have hcache : cacheIdentity other.publication = cacheIdentity item.publication := by
      rw [cacheIdentity, cacheIdentity, hidentity]
    refine ⟨⟨now, hitemValid⟩, ?_⟩
    rw [← hcache, ← hid]
    exact hselection other hother
  · rw [hemit]
    intro item hitem
    exact ⟨⟨s.now, selection_now hitem⟩, hselection item hitem⟩

theorem Recorded.congr {t : Selector} (h : Recorded v s) (hrepository : t.repository = s.repository)
    (hpublishers : ∀ pubkey ∈ s.publishers, pubkey ∈ t.publishers)
    (hidentities : ∀ identity ∈ s.identitySet, identity ∈ t.identitySet)
    (hgiven : ∀ event, event.kind ∈ [17091, 37091] → (event ∈ t.given ↔ event ∈ s.given))
    (hnow : s.now ≤ t.now) : Recorded v t := by
  constructor
  · rw [hrepository]
    exact h.repository
  · intro identity selection hselection
    rw [hrepository] at hselection
    obtain ⟨best, ⟨now, hle, hvalid⟩, hidentity, heventId⟩ := h.genuine identity selection hselection
    exact ⟨best, ⟨now, hle.trans hnow, hvalid⟩, hidentity, heventId⟩
  · intro event hevent hkind
    obtain ⟨publication, selection, hsuperseded⟩ := h.given event ((hgiven event hkind).mp hevent) hkind
    obtain ⟨now, hle, hvalid⟩ := hsuperseded.valid
    refine ⟨publication, selection, { hsuperseded with
      valid := ⟨now, hle.trans hnow, hvalid⟩
      pubkey := hpublishers _ hsuperseded.pubkey
      identity := hidentities _ hsuperseded.identity
      selected := by
        rw [hrepository]
        exact hsuperseded.selected
      given := (hgiven _ hsuperseded.kind).mpr hsuperseded.given }⟩

theorem refresh_recorded (h : Recorded v s) : Recorded v (refresh v store s) := by
  rcases refresh_cases v store s with ⟨hsame, -⟩ | hemit
  · rw [hsame]
    exact h
  · rw [hemit]
    exact h.congr rfl (fun _ h => h) (fun _ h => h) (fun _ _ => Iff.rfl) le_rfl

/-- An accepted event is given to the store and outlives what is selected for its identity. -/
def OutlivesSelection (v : Validator) (store : EventStore) (s : Selector) : Event → Prop
  | .accept event _ taken =>
    ∀ publication ∈ (validatePublication v event s.now).toOption,
      s.repository.refusal publication = none → taken = true ∧
        ∀ other ∈ publications v store s, cacheIdentity other = cacheIdentity publication →
          Outlived other.expiresAt publication.expiresAt
  | _ => True

instance (v : Validator) (store : EventStore) (s : Selector) :
    (e : Event) → Decidable (OutlivesSelection v store s e)
  | .accept event _ taken => inferInstanceAs (Decidable
      (∀ publication ∈ (validatePublication v event s.now).toOption,
        s.repository.refusal publication = none → taken = true ∧
          ∀ other ∈ publications v store s, cacheIdentity other = cacheIdentity publication →
            Outlived other.expiresAt publication.expiresAt))
  | .authorizePublicationPublisher .. | .authorizeBlossomPublisher _ | .setUnsignedConsent ..
  | .advance _ | .callback | .restart => isTrue trivial

theorem add_recorded (hstore : store.ShowsAll) {event : RawPublication}
    (h : Recorded v { s with given := s.given ++ [event] }) (hselected : Selected v s) :
    Recorded v (add v store s event) ∧ Selected v (add v store s event) :=
  ⟨refresh_recorded h, refresh_selected hstore h fun item hitem => (hselected item hitem).1⟩

/-- What the store holds for an identity comes after a publication that the repository takes, and
does not last longer. -/
theorem Superseded.replaced (hstore : store.ShowsAll) {event old : RawPublication}
    {publication oldPublication : ValidatedPublication} {oldSelection : StoredSelection}
    (h : Recorded v s) (hold : Superseded v s old oldPublication oldSelection) (hgiven : old ∈ s.given)
    (hkind : old.kind ∈ [17091, 37091])
    (hvalid : validatePublication v event s.now = .ok publication)
    (hrefusal : s.repository.refusal publication = none)
    (houtlived : ∀ other ∈ publications v store s,
      cacheIdentity other = cacheIdentity publication → Outlived other.expiresAt publication.expiresAt)
    (hidentity : cacheIdentity oldPublication = cacheIdentity publication) :
    TakenBefore event old ∧ Outlived oldPublication.expiresAt publication.expiresAt := by
  have hevent := (validatePublication_ok.mp hvalid).event
  constructor
  · have hselected := hold.selected
    rw [hidentity] at hselected
    have hlt := (StateRepository.refusal_none h.repository hrefusal).1 oldSelection hselected
    obtain ⟨r, e, -, -, rfl⟩ := (StateRepository.loadSelection_some h.repository).mp hselected
    rw [hevent] at hlt
    have hnew : TakenBefore event e := takenBefore_iff.mpr hlt.le
    exact hnew.trans hold.before
  · obtain ⟨now, hle, holdValid⟩ := hold.valid
    have hpassed := validatePublication_ok.mp hvalid
    by_cases hnow : validatePublication v old s.now = .ok oldPublication
    · apply houtlived _ _ hidentity
      exact (mem_publications hstore).mpr ⟨⟨old, hgiven, hkind, hnow⟩, hold.pubkey, hold.identity⟩
    · -- the older publication has expired, and the new one has not
      have hsafe := (checkEvent_ok.mp hpassed.checked).1
      have hexpired : ∃ time, oldPublication.expiresAt = some time ∧ time ≤ s.now := by
        by_contra hnone
        push Not at hnone
        exact hnow (validatePublication_later holdValid hle hsafe hnone)
      obtain ⟨time, htime, hpast⟩ := hexpired
      rw [htime]
      cases hexpires : publication.expiresAt with
      | none => trivial
      | some later =>
        have hfuture := hpassed.expires_after hexpires
        change time ≤ later
        omega

theorem Recorded.accepted (hstore : store.ShowsAll) {event : RawPublication} {publication : ValidatedPublication}
    (h : Recorded v s) (hvalid : validatePublication v event s.now = .ok publication)
    (hpubkey : publication.event.pubkey ∈ s.publishers)
    (hidentity : cacheIdentity publication ∈ s.identitySet)
    (hrefusal : s.repository.refusal publication = none)
    (houtlived : ∀ other ∈ publications v store s,
      cacheIdentity other = cacheIdentity publication →
        Outlived other.expiresAt publication.expiresAt) :
    Recorded v { s with repository := s.repository.store publication, given := s.given ++ [event] } := by
  have hpassed := validatePublication_ok.mp hvalid
  have hevent := hpassed.event
  have hload := StateRepository.store_selection s.repository publication
  have hkind : event.kind ∈ [17091, 37091] := by
    have hkinds := (checkEvent_ok.mp hpassed.checked).2.2.2.2.2
    simpa using hkinds
  have hnewest : ∀ best now, validatePublication v event now = .ok best →
      best.expiresAt = publication.expiresAt := by
    intro best now hbest
    rw [validatePublication_eq hbest hvalid]
  constructor
  · exact StateRepository.store_invariant h.repository
      (Branded.event_id_ne ⟨publication, event, s.now, hvalid⟩)
  · intro identity selection hselection
    rw [hload] at hselection
    split_ifs at hselection with hsame
    · cases hselection
      subst hsame
      refine ⟨publication, ⟨s.now, le_rfl, ?_⟩, rfl, rfl⟩
      rw [StateRepository.selectionOf, hevent]
      exact hvalid
    · exact h.genuine identity selection hselection
  · have hnew : ∀ old oldPublication, (∃ now ≤ s.now, validatePublication v old now = .ok oldPublication) →
        oldPublication.event.pubkey ∈ s.publishers → cacheIdentity oldPublication ∈ s.identitySet →
        cacheIdentity oldPublication = cacheIdentity publication → TakenBefore event old →
        Outlived oldPublication.expiresAt publication.expiresAt →
        Superseded v { s with repository := s.repository.store publication, given := s.given ++ [event] }
          old oldPublication (StateRepository.selectionOf (cacheIdentity publication) event) := by
      intro old oldPublication holdValid holdPubkey holdIdentity hsame hbefore hexpires
      refine ⟨holdValid, holdPubkey, holdIdentity, ?_, by simp [StateRepository.selectionOf], hkind,
        hbefore, ?_⟩
      · rw [hload, if_pos hsame, hsame, hevent]
      · intro best now hbest
        rw [hnewest best now hbest]
        exact hexpires
    intro old hold holdKind
    rcases List.mem_append.mp hold with hgiven | hlast
    · obtain ⟨oldPublication, oldSelection, hsuperseded⟩ := h.given old hgiven holdKind
      by_cases hsame : cacheIdentity oldPublication = cacheIdentity publication
      · obtain ⟨hbefore, hexpires⟩ :=
          hsuperseded.replaced hstore h hgiven holdKind hvalid hrefusal houtlived hsame
        exact ⟨oldPublication, _, hnew old oldPublication hsuperseded.valid hsuperseded.pubkey
          hsuperseded.identity hsame hbefore hexpires⟩
      · refine ⟨oldPublication, oldSelection, { hsuperseded with
          selected := ?_
          given := List.mem_append_left _ hsuperseded.given }⟩
        rw [hload, if_neg hsame]
        exact hsuperseded.selected
    · obtain rfl := List.mem_singleton.mp hlast
      exact ⟨publication, _, hnew old publication ⟨s.now, le_rfl, hvalid⟩ hpubkey hidentity rfl
        (takenBefore_iff.mpr le_rfl) (Outlived.refl _)⟩

theorem accept_recorded (hstore : store.ShowsAll) {t : Selector} {event : RawPublication} {commits taken : Bool}
    (h : Recorded v s) (hselected : Selected v s)
    (houtlives : OutlivesSelection v store s (.accept event commits taken))
    (hcase : AcceptCase v store s event taken t) : Recorded v t ∧ Selected v t := by
  cases hcase with
  | same => exact ⟨h, hselected⟩
  | serverList blossomEvents hkind =>
    have hgiven : ∀ other : RawPublication, other.kind ∈ [17091, 37091] →
        (other ∈ s.given ++ [event] ↔ other ∈ s.given) := by
      intro other hother
      have hne : other ≠ event := by
        rintro rfl
        simp [hkind] at hother
      simp [hne]
    exact add_recorded hstore (h.congr rfl (fun _ h => h) (fun _ h => h) hgiven le_rfl) hselected
  | stored publication hvalid hpubkey hidentity hrefusal htaken =>
    have houtlives := houtlives publication (by simp [hvalid, Except.toOption]) hrefusal
    have hrecorded := h.accepted hstore hvalid hpubkey hidentity hrefusal houtlives.2
    exact ⟨refresh_recorded hrecorded, refresh_selected hstore hrecorded fun item hitem =>
      (hselected item hitem).1⟩
  | lost publication hvalid hrefusal htaken =>
    have houtlives := houtlives publication (by simp [hvalid, Except.toOption]) hrefusal
    simp [htaken] at houtlives

theorem start_recorded (hstore : store.ShowsAll) {repository : StateRepository} {clock : ℤ}
    (h : Recorded v (fresh options repository clock)) :
    Recorded v (start v store options repository clock) ∧
      Selected v (start v store options repository clock) := by
  apply start_preserves (P := fun s => Recorded v s ∧ Selected v s)
  · refine ⟨h, ?_⟩
    intro item hitem
    simp [fresh] at hitem
  · rintro s event publication ⟨hs, hselected⟩ hrepository hclock ⟨stored, hstored, rfl⟩ hvalid hpubkey
      hidentity
    rw [← hclock] at hvalid
    rw [← hrepository] at hstored
    obtain ⟨identity, hload⟩ := StateRepository.mem_loadSelections hstored
    obtain ⟨best, ⟨earlier, -, hbest⟩, hbestIdentity, -⟩ := hs.genuine identity stored hload
    obtain rfl := validatePublication_eq hvalid hbest
    rw [← hbestIdentity] at hload
    apply add_recorded hstore _ hselected
    constructor
    · exact hs.repository
    · exact hs.genuine
    · intro other hother hkind
      rcases List.mem_append.mp hother with hgiven | hlast
      · obtain ⟨otherPublication, selection, hsuperseded⟩ := hs.given other hgiven hkind
        exact ⟨otherPublication, selection, { hsuperseded with
          given := List.mem_append_left _ hsuperseded.given }⟩
      · obtain rfl := List.mem_singleton.mp hlast
        refine ⟨publication, stored, ⟨s.now, le_rfl, hvalid⟩, hpubkey, hidentity, hload, by simp, hkind,
          takenBefore_iff.mpr le_rfl, ?_⟩
        intro newest later hnewest
        rw [validatePublication_eq hnewest hvalid]
        exact Outlived.refl _

theorem step_recorded (hstore : store.ShowsAll) (h : Recorded v s) (hselected : Selected v s) (e : Event)
    (houtlives : OutlivesSelection v store s e) :
    Recorded v (step v store options s e) ∧ Selected v (step v store options s e) := by
  cases e with
  | accept event commits taken =>
    exact accept_recorded hstore h hselected houtlives (accept_case event commits taken)
  | authorizePublicationPublisher pubkey identity =>
    have hrecorded : Recorded v { s with
        publishers := s.publishers.insert pubkey
        identitySet := s.identitySet.insert identity
        identityOrder := identity :: s.identityOrder.erase identity } := by
      refine h.congr rfl ?_ ?_ (fun _ _ => Iff.rfl) le_rfl
      · intro other hother
        exact List.mem_insert_of_mem hother
      · intro other hother
        exact List.mem_insert_of_mem hother
    exact ⟨refresh_recorded hrecorded, refresh_selected hstore hrecorded fun item hitem =>
      (hselected item hitem).1⟩
  | authorizeBlossomPublisher pubkey =>
    exact ⟨h.congr rfl (fun _ h => h) (fun _ h => h) (fun _ _ => Iff.rfl) le_rfl, hselected⟩
  | setUnsignedConsent identity allowed =>
    have hload := StateRepository.setUnsignedConsent_selection s.repository identity
    constructor
    · constructor
      · exact StateRepository.setUnsignedConsent_invariant h.repository identity allowed
      · intro other selection hselection
        apply h.genuine other selection
        rw [← hload other allowed]
        exact hselection
      · intro event hevent hkind
        obtain ⟨publication, selection, hsuperseded⟩ := h.given event hevent hkind
        refine ⟨publication, selection, { hsuperseded with selected := ?_ }⟩
        exact (hload _ allowed).trans hsuperseded.selected
    · intro item hitem
      obtain ⟨hvalid, hitemSelected⟩ := hselected item hitem
      refine ⟨hvalid, ?_⟩
      rw [← hitemSelected]
      exact congrArg _ (hload _ allowed)
  | advance milliseconds =>
    refine ⟨h.congr rfl (fun _ h => h) (fun _ h => h) (fun _ _ => Iff.rfl) ?_, hselected⟩
    change s.clock / 1000 ≤ (s.clock + milliseconds) / 1000
    omega
  | callback =>
    change Recorded v (callback v store s) ∧ Selected v (callback v store s)
    unfold callback
    split
    · exact ⟨h, hselected⟩
    · split
      · have hrecorded : Recorded v { s with expirationHandle := none } :=
          h.congr rfl (fun _ h => h) (fun _ h => h) (fun _ _ => Iff.rfl) le_rfl
        exact ⟨refresh_recorded hrecorded, refresh_selected hstore hrecorded fun item hitem =>
          (hselected item hitem).1⟩
      · exact ⟨h, hselected⟩
  | restart =>
    apply start_recorded hstore
    constructor
    · exact h.repository
    · exact h.genuine
    · intro event hevent
      simp [fresh] at hevent

/-- When the store shows every event it was given and every accepted event outlives what is selected for
its identity, the selection shows of each identity the last event that the repository accepted, or
nothing. -/
theorem selection_is_last_accepted (hstore : store.ShowsAll) (clock : ℤ) (events : List Event)
    (h : Always (step v store options) (OutlivesSelection v store)
      (start v store options .empty clock) events) :
    let s := run (step v store options) (start v store options .empty clock) events
    ∀ item ∈ s.current,
      (s.repository.loadSelection (cacheIdentity item.publication)).map StoredSelection.eventId =
        some item.publication.event.id := by
  intro s item hitem
  have hfresh : Recorded v (fresh options .empty clock) := by
    constructor
    · exact StateRepository.empty_invariant
    · intro identity selection hselection
      simp [fresh, StateRepository.loadSelection, StateRepository.row, StateRepository.empty] at hselection
    · intro event hevent
      simp [fresh] at hevent
  have hs : Recorded v s ∧ Selected v s := by
    apply run_invariant (I := fun s => Recorded v s ∧ Selected v s) (C := OutlivesSelection v store)
    · intro s e hs houtlives
      exact step_recorded hstore hs.1 hs.2 e houtlives
    · exact start_recorded hstore hfresh
    · exact h
  exact (hs.2 item hitem).2

theorem selection_is_last_accepted_sample :
    let s := sampleRun [.accept (samplePublication 'b' 90 [["expiration", "110"]]) true true,
      .accept (samplePublication 'c' 91 [["expiration", "3000100"]]) true true, .advance 10000]
    ∀ item ∈ s.current,
      (s.repository.loadSelection (cacheIdentity item.publication)).map StoredSelection.eventId =
        some item.publication.event.id :=
  selection_is_last_accepted sampleStore_showsAll 100000 _ (by decide +kernel)

/-- When the newer publication expires, the older one is selected again. -/
theorem expiry_selects_older :
    let s := sampleRun [.accept (samplePublication 'a' 89 []) true true,
      .accept (samplePublication 'b' 90 [["expiration", "110"]]) true true, .advance 10000, .callback]
    ∃ item ∈ s.current, item.publication.event = samplePublication 'a' 89 [] ∧
      (s.repository.loadSelection (cacheIdentity item.publication)).map StoredSelection.event =
        some (samplePublication 'b' 90 [["expiration", "110"]]) := by
  decide +kernel

end History

end Selector

end NixstrCache.Nostr
