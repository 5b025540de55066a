import Mathlib.Data.List.Sort
import NixstrCache.Persistence.StateRepository

/-!
The selection of publications.

An accepted event goes to the repository and then to the event store, whose timelines the selection
is computed from at every change.  A value is emitted when it differs from the last one in its ids or
its server lists, and every emission arms the timer anew.  The clock counts milliseconds, as the timers do,
and `now` reads the whole seconds.  Every call runs to its end before the next one, as there is one
thread.
-/

namespace NixstrCache.Nostr

open KeyedTable Runs Protocol Persistence

structure SelectedPublication where
  publication : ValidatedPublication
  bud03Servers : List String
deriving DecidableEq, Repr

structure SelectionOptions where
  publisherPubkeys : List String
  identities : List String
deriving Repr

/-- The timeline of some kinds, out of the events that the store was given. -/
structure EventStore where
  timeline : List ℕ → List RawPublication → List RawPublication

/-- The event store shows every event it was given. -/
def EventStore.ShowsAll (store : EventStore) : Prop :=
  ∀ kinds given event, event ∈ store.timeline kinds given ↔ event ∈ given ∧ event.kind ∈ kinds

/-- A callback that was scheduled, with the time of the call and the delay, in milliseconds. -/
structure Wake where
  armedAt : ℤ
  delayMs : ℤ
deriving DecidableEq, Repr

def Wake.due (wake : Wake) : ℤ :=
  wake.armedAt + wake.delayMs

structure Selector where
  repository : StateRepository
  publishers : List String
  blossomPublishers : List String
  identitySet : List String
  identityOrder : List String
  blossomEvents : Table RawPublication.pubkey
  given : List RawPublication
  current : List SelectedPublication
  expirationHandle : Option Wake
  /-- `Date.now()`. -/
  clock : ℤ

/-- `Math.floor(Date.now() / 1000)`. -/
def Selector.now (s : Selector) : ℤ :=
  s.clock / 1000

inductive RejectReason where
  | invalidBlossomServerList
  | invalid (code : PublicationRejectionCode)
  | unauthorizedPublisher
  | unauthorizedIdentity
  | refused (reason : Option RefusalReason)
deriving DecidableEq, Repr

inductive Admission where
  | admitted
  | ignored
  | rejected (reason : RejectReason)
  | failed
deriving DecidableEq, Repr

section Servers

variable (v : Validator)

def validServer (value : String) : Bool :=
  match v.parseUrl value with
  | none => false
  | some url => (url.protocol = "http:" ∨ url.protocol = "https:") ∧ url.username = "" ∧
      url.password = "" ∧ url.search = "" ∧ url.hash = ""

def projectBlossomServers (event : RawPublication) (publishers : List String) : List String :=
  if event.kind ≠ 10063 ∨ event.pubkey ∉ publishers then []
  else
    event.tags.filterMap fun tag =>
      match tag with
      | [name, value] => if name = "server" ∧ validServer v value then some value else none
      | _ => none

end Servers

def TakenBefore (a b : RawPublication) : Prop :=
  b.createdAt < a.createdAt ∨ (a.createdAt = b.createdAt ∧ a.id ≤ b.id)

instance : DecidableRel TakenBefore := fun a b =>
  inferInstanceAs (Decidable (b.createdAt < a.createdAt ∨ (a.createdAt = b.createdAt ∧ a.id ≤ b.id)))

section Order

theorem takenBefore_iff {a b : RawPublication} :
    TakenBefore a b ↔ StateRepository.keyOfEvent a ≤ StateRepository.keyOfEvent b := by
  rw [StateRepository.keyOfEvent, StateRepository.keyOfEvent, StateRepository.keyOf,
    StateRepository.keyOf, Prod.Lex.toLex_le_toLex]
  rfl

theorem TakenBefore.trans {a b c : RawPublication} (hab : TakenBefore a b) (hbc : TakenBefore b c) :
    TakenBefore a c := by
  rw [takenBefore_iff] at *
  exact hab.trans hbc

theorem TakenBefore.id_eq {a b : RawPublication} (hab : TakenBefore a b) (hba : TakenBefore b a) :
    a.id = b.id := by
  rw [takenBefore_iff] at *
  exact (StateRepository.keyOf_inj (le_antisymm hab hba)).2

instance takenBefore_total :
    Std.Total fun a b : ValidatedPublication => TakenBefore a.event b.event :=
  ⟨fun a b => by
    rw [takenBefore_iff, takenBefore_iff]
    exact le_total _ _⟩

instance takenBefore_trans :
    IsTrans ValidatedPublication fun a b => TakenBefore a.event b.event :=
  ⟨fun _ _ _ hab hbc => hab.trans hbc⟩

end Order

namespace Selector

section Model

variable (v : Validator) (store : EventStore)

/-- The publications that hold now, of the publishers and the identities that are authorized. -/
def publications (s : Selector) : List ValidatedPublication :=
  ((store.timeline [17091, 37091] s.given).filterMap fun event =>
    (validatePublication v event s.now).toOption).filter fun publication =>
      publication.event.pubkey ∈ s.publishers ∧ cacheIdentity publication ∈ s.identitySet

def winner (s : Selector) (identity : String) : Option ValidatedPublication :=
  (((publications v store s).filter fun item => cacheIdentity item = identity).insertionSort
    fun a b => TakenBefore a.event b.event).head?

def serversOf (s : Selector) (pubkey : String) : List String :=
  match (((store.timeline [10063] s.given).filter fun event => event.pubkey = pubkey).insertionSort
    TakenBefore).head? with
  | none => []
  | some event => projectBlossomServers v event s.publishers

/-- `CacheSelectionModel`. -/
def selection (s : Selector) : List SelectedPublication :=
  s.identityOrder.flatMap fun identity =>
    match winner v store s identity with
    | none => []
    | some publication => [⟨publication, serversOf v store s publication.event.pubkey⟩]

def shown (value : List SelectedPublication) : List (String × List String) :=
  value.map fun item => (item.publication.event.id, item.bud03Servers)

def nearestExpiry (value : List SelectedPublication) : Option ℤ :=
  value.foldl
    (fun nearest item =>
      match item.publication.expiresAt, nearest with
      | none, _ => nearest
      | some expiresAt, none => some expiresAt
      | some expiresAt, some nearest => some (min nearest expiresAt))
    none

def timerCeiling : ℤ :=
  2147483647

/-- The delay is counted from the whole second, and the timer runs from the millisecond. -/
def wakeFor (value : List SelectedPublication) (clock : ℤ) : Option Wake :=
  (nearestExpiry value).map fun nearest =>
    ⟨clock, min timerCeiling (max 0 (nearest - clock / 1000) * 1000)⟩

def emit (s : Selector) (value : List SelectedPublication) : Selector :=
  { s with current := value, expirationHandle := wakeFor value s.clock }

def refresh (s : Selector) : Selector :=
  if shown (selection v store s) = shown s.current then s else s.emit (selection v store s)

def add (s : Selector) (event : RawPublication) : Selector :=
  refresh v store { s with given := s.given ++ [event] }

end Model

section Calls

variable (v : Validator) (store : EventStore)

def acceptServerList (s : Selector) (event : RawPublication) : Admission × Selector :=
  if event.pubkey ∉ s.blossomPublishers then (.rejected .invalidBlossomServerList, s)
  else
    match v.verifyEvent event with
    | none => (.failed, s)
    | some false => (.rejected .invalidBlossomServerList, s)
    | some true =>
      if (s.blossomEvents.find? event.pubkey).any fun previous =>
          event.createdAt < previous.createdAt ∨
            (previous.createdAt = event.createdAt ∧ previous.id ≤ event.id) then (.ignored, s)
      else
        (.admitted, add v store { s with blossomEvents := s.blossomEvents.insertOrReplace event } event)

/-- `accept`.  The transaction may fail, and so may the store. -/
def accept (s : Selector) (event : RawPublication) (commits taken : Bool) : Admission × Selector :=
  if event.kind = 10063 then acceptServerList v store s event
  else
    match validatePublication v event s.now with
    | .error e => (.rejected (.invalid e.code), s)
    | .ok publication =>
      if publication.event.pubkey ∉ s.publishers then (.rejected .unauthorizedPublisher, s)
      else if cacheIdentity publication ∉ s.identitySet then (.rejected .unauthorizedIdentity, s)
      else
        match s.repository.accept commits publication with
        | none => (.failed, s)
        | some (acceptance, repository) =>
          if acceptance.accepted = false then (.rejected (.refused acceptance.reason), s)
          else if taken then (.admitted, add v store { s with repository } publication.event)
          else (.failed, { s with repository })

def authorizePublicationPublisher (s : Selector) (pubkey identity : String) : Selector :=
  refresh v store
    { s with
      publishers := s.publishers.insert pubkey
      identitySet := s.identitySet.insert identity
      identityOrder := identity :: s.identityOrder.erase identity }

def authorizeBlossomPublisher (s : Selector) (pubkey : String) : Selector :=
  { s with blossomPublishers := s.blossomPublishers.insert pubkey }

def callback (s : Selector) : Selector :=
  match s.expirationHandle with
  | none => s
  | some wake =>
    if wake.due ≤ s.clock then refresh v store { s with expirationHandle := none } else s

def restore (s : Selector) (stored : StoredSelection) : Selector :=
  match validatePublication v stored.event s.now with
  | .error _ => s
  | .ok publication =>
    if publication.event.pubkey ∈ s.publishers ∧ cacheIdentity publication ∈ s.identitySet then
      add v store s publication.event
    else s

def fresh (options : SelectionOptions) (repository : StateRepository) (clock : ℤ) : Selector where
  repository
  publishers := options.publisherPubkeys
  blossomPublishers := options.publisherPubkeys
  identitySet := options.identities
  identityOrder := options.identities
  blossomEvents := .empty
  given := []
  current := []
  expirationHandle := none
  clock

/-- `startPublicationSelection`. -/
def start (options : SelectionOptions) (repository : StateRepository) (clock : ℤ) : Selector :=
  repository.loadSelections.foldl (restore v store) (fresh options repository clock)

inductive Event where
  | accept (event : RawPublication) (commits taken : Bool)
  | authorizePublicationPublisher (pubkey identity : String)
  | authorizeBlossomPublisher (pubkey : String)
  | setUnsignedConsent (identity : String) (allowed : Bool)
  | advance (milliseconds : ℕ)
  | callback
  | restart
deriving Repr

def step (options : SelectionOptions) (s : Selector) : Event → Selector
  | .accept event commits taken => (accept v store s event commits taken).2
  | .authorizePublicationPublisher pubkey identity =>
    authorizePublicationPublisher v store s pubkey identity
  | .authorizeBlossomPublisher pubkey => s.authorizeBlossomPublisher pubkey
  | .setUnsignedConsent identity allowed =>
    { s with repository := s.repository.setUnsignedConsent identity allowed }
  | .advance milliseconds => { s with clock := s.clock + milliseconds }
  | .callback => callback v store s
  | .restart => start v store options s.repository s.clock

end Calls

section Values

variable {v : Validator} {store : EventStore} {s : Selector}

theorem publication_shown {publication : ValidatedPublication} (h : publication ∈ publications v store s) :
    (∃ event ∈ store.timeline [17091, 37091] s.given, validatePublication v event s.now = .ok publication) ∧
      publication.event.pubkey ∈ s.publishers ∧ cacheIdentity publication ∈ s.identitySet := by
  obtain ⟨hshown, hauthorized⟩ := List.mem_filter.mp h
  obtain ⟨event, hevent, hvalid⟩ := List.mem_filterMap.mp hshown
  refine ⟨⟨event, hevent, ?_⟩, of_decide_eq_true hauthorized⟩
  cases hresult : validatePublication v event s.now with
  | error e => simp [hresult, Except.toOption] at hvalid
  | ok other =>
    obtain rfl : other = publication := by simpa [hresult, Except.toOption] using hvalid
    rfl

theorem mem_publications (hstore : store.ShowsAll) {publication : ValidatedPublication} :
    publication ∈ publications v store s ↔
      (∃ event ∈ s.given, event.kind ∈ [17091, 37091] ∧
        validatePublication v event s.now = .ok publication) ∧
      publication.event.pubkey ∈ s.publishers ∧ cacheIdentity publication ∈ s.identitySet := by
  constructor
  · intro h
    obtain ⟨⟨event, hevent, hvalid⟩, hauthorized⟩ := publication_shown h
    obtain ⟨hgiven, hkind⟩ := (hstore _ _ _).mp hevent
    exact ⟨⟨event, hgiven, hkind, hvalid⟩, hauthorized⟩
  · rintro ⟨⟨event, hgiven, hkind, hvalid⟩, hauthorized⟩
    refine List.mem_filter.mpr ⟨List.mem_filterMap.mpr ⟨event, (hstore _ _ _).mpr ⟨hgiven, hkind⟩, ?_⟩,
      decide_eq_true hauthorized⟩
    rw [hvalid]
    rfl

theorem mem_publications_now {publication : ValidatedPublication}
    (h : publication ∈ publications v store s) :
    validatePublication v publication.event s.now = .ok publication := by
  obtain ⟨⟨event, -, hvalid⟩, -⟩ := publication_shown h
  rw [(validatePublication_ok.mp hvalid).event]
  exact hvalid

theorem winner_some {identity : String} {publication : ValidatedPublication}
    (h : winner v store s identity = some publication) :
    publication ∈ publications v store s ∧ cacheIdentity publication = identity ∧
      ∀ other ∈ publications v store s, cacheIdentity other = identity →
        TakenBefore publication.event other.event := by
  unfold winner at h
  set candidates := (publications v store s).filter fun item => cacheIdentity item = identity
    with hcandidates
  have hmem : ∀ item, item ∈ candidates ↔
      item ∈ publications v store s ∧ cacheIdentity item = identity := by
    intro item
    simp [hcandidates]
  have hsorted := List.pairwise_insertionSort
    (fun a b : ValidatedPublication => TakenBefore a.event b.event) candidates
  have hsame := List.perm_insertionSort
    (fun a b : ValidatedPublication => TakenBefore a.event b.event) candidates
  cases hlist : candidates.insertionSort fun a b => TakenBefore a.event b.event with
  | nil => simp [hlist] at h
  | cons first rest =>
    rw [hlist, List.head?_cons, Option.some.injEq] at h
    subst h
    rw [hlist] at hsorted hsame
    obtain ⟨hin, hidentity⟩ := (hmem first).mp (hsame.mem_iff.mp (by simp))
    refine ⟨hin, hidentity, ?_⟩
    intro other hother hsameIdentity
    have hcand := hsame.mem_iff.mpr ((hmem other).mpr ⟨hother, hsameIdentity⟩)
    rcases List.mem_cons.mp hcand with rfl | hrest
    · exact takenBefore_iff.mpr le_rfl
    · exact List.rel_of_pairwise_cons hsorted hrest

theorem mem_selection {item : SelectedPublication} (h : item ∈ selection v store s) :
    ∃ identity ∈ s.identityOrder, winner v store s identity = some item.publication := by
  obtain ⟨identity, hidentity, hitem⟩ := List.mem_flatMap.mp h
  refine ⟨identity, hidentity, ?_⟩
  cases hwinner : winner v store s identity with
  | none => simp [hwinner] at hitem
  | some publication =>
    simp only [hwinner, List.mem_singleton] at hitem
    rw [hitem]

theorem selection_now {item : SelectedPublication} (h : item ∈ selection v store s) :
    validatePublication v item.publication.event s.now = .ok item.publication := by
  obtain ⟨identity, -, hwinner⟩ := mem_selection h
  exact mem_publications_now (winner_some hwinner).1

theorem shown_eq {value value' : List SelectedPublication} (h : shown value = shown value')
    {item : SelectedPublication} (hitem : item ∈ value') :
    ∃ other ∈ value, other.publication.event.id = item.publication.event.id := by
  have hmem : (item.publication.event.id, item.bud03Servers) ∈ shown value := by
    rw [h]
    exact List.mem_map_of_mem hitem
  obtain ⟨other, hother, heq⟩ := List.mem_map.mp hmem
  exact ⟨other, hother, congrArg Prod.fst heq⟩

theorem nearestExpiry_append (value : List SelectedPublication) (item : SelectedPublication) :
    nearestExpiry (value ++ [item]) =
      match item.publication.expiresAt, nearestExpiry value with
      | none, nearest => nearest
      | some expiresAt, none => some expiresAt
      | some expiresAt, some nearest => some (min nearest expiresAt) := by
  simp only [nearestExpiry, List.foldl_append, List.foldl_cons, List.foldl_nil]
  split <;> simp_all

theorem nearestExpiry_spec (value : List SelectedPublication) :
    match nearestExpiry value with
    | none => ∀ item ∈ value, item.publication.expiresAt = none
    | some nearest => (∃ item ∈ value, item.publication.expiresAt = some nearest) ∧
        ∀ item ∈ value, ∀ time, item.publication.expiresAt = some time → nearest ≤ time := by
  induction value using List.reverseRecOn with
  | nil => simp [nearestExpiry]
  | append_singleton value item ih =>
    rw [nearestExpiry_append]
    cases hitem : item.publication.expiresAt with
    | none =>
      cases hnearest : nearestExpiry value with
      | none =>
        simp only [hnearest] at ih
        simp only [List.mem_append, List.mem_singleton]
        rintro other (hother | rfl)
        · exact ih other hother
        · exact hitem
      | some nearest =>
        simp only [hnearest] at ih
        obtain ⟨⟨first, hfirst, htime⟩, hmin⟩ := ih
        refine ⟨⟨first, List.mem_append_left _ hfirst, htime⟩, ?_⟩
        simp only [List.mem_append, List.mem_singleton]
        rintro other (hother | rfl)
        · exact hmin other hother
        · simp [hitem]
    | some expiresAt =>
      cases hnearest : nearestExpiry value with
      | none =>
        simp only [hnearest] at ih
        refine ⟨⟨item, by simp, hitem⟩, ?_⟩
        simp only [List.mem_append, List.mem_singleton]
        rintro other (hother | rfl) time htime
        · simp [ih other hother] at htime
        · simp_all
      | some nearest =>
        simp only [hnearest] at ih
        obtain ⟨⟨first, hfirst, htime⟩, hmin⟩ := ih
        constructor
        · rcases min_choice nearest expiresAt with hleft | hright
          · rw [hleft]
            exact ⟨first, List.mem_append_left _ hfirst, htime⟩
          · rw [hright]
            exact ⟨item, by simp, hitem⟩
        · simp only [List.mem_append, List.mem_singleton]
          rintro other (hother | rfl) time hother'
          · have := hmin other hother time hother'
            omega
          · rw [hitem, Option.some.injEq] at hother'
            omega

theorem refresh_cases (v : Validator) (store : EventStore) (s : Selector) :
    refresh v store s = s ∧ shown (selection v store s) = shown s.current ∨
      refresh v store s = s.emit (selection v store s) := by
  unfold refresh
  split_ifs with h
  · exact Or.inl ⟨rfl, h⟩
  · exact Or.inr rfl

end Values

end Selector

end NixstrCache.Nostr
