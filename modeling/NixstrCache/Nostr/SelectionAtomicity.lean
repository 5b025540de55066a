import NixstrCache.Nostr.SelectionRuns

/-!
Events that the store does not take.

The repository commits an event before the event store is given it.  An event that has been committed is
no newer than itself, so from then on the repository refuses it, and no delivery of it reaches the store.
-/

namespace NixstrCache.Nostr

open KeyedTable Runs Protocol Persistence

namespace Selector

section Repository

variable {v : Validator} {store : EventStore} {options : SelectionOptions} {s : Selector}

theorem refresh_repository (s : Selector) : (refresh v store s).repository = s.repository := by
  rcases refresh_cases v store s with ⟨hsame, -⟩ | hemit
  · rw [hsame]
  · rw [hemit]
    rfl

theorem add_repository (s : Selector) (event : RawPublication) :
    (add v store s event).repository = s.repository :=
  refresh_repository _

theorem start_repository (repository : StateRepository) (clock : ℤ) :
    (start v store options repository clock).repository = repository := by
  refine start_preserves (P := fun s => s.repository = repository) rfl ?_
  intro s event publication hs _ _ _ _ _ _
  rw [add_repository, hs]

inductive RepositoryStep (v : Validator) (s : Selector) : StateRepository → Prop
  | same : RepositoryStep v s s.repository
  | stored (event : RawPublication) (publication : ValidatedPublication)
    (hvalid : validatePublication v event s.now = .ok publication)
    (hrefusal : s.repository.refusal publication = none) :
    RepositoryStep v s (s.repository.store publication)
  | consent (identity : String) (allowed : Bool) :
    RepositoryStep v s (s.repository.setUnsignedConsent identity allowed)

theorem step_repository (s : Selector) (e : Event) :
    RepositoryStep v s (step v store options s e).repository := by
  cases e with
  | accept event commits taken =>
    have hcase : AcceptCase v store s event taken (accept v store s event commits taken).2 :=
      accept_case event commits taken
    change RepositoryStep v s (accept v store s event commits taken).2.repository
    generalize (accept v store s event commits taken).2 = t at hcase
    cases hcase with
    | same => exact .same
    | serverList blossomEvents =>
      rw [add_repository]
      exact .same
    | stored publication hvalid hpubkey hidentity hrefusal =>
      rw [add_repository]
      exact .stored event publication hvalid hrefusal
    | lost publication hvalid hrefusal => exact .stored event publication hvalid hrefusal
  | authorizePublicationPublisher pubkey identity =>
    change RepositoryStep v s (refresh v store _).repository
    rw [refresh_repository]
    exact .same
  | authorizeBlossomPublisher pubkey => exact .same
  | setUnsignedConsent identity allowed => exact .consent identity allowed
  | advance milliseconds => exact .same
  | callback =>
    change RepositoryStep v s (callback v store s).repository
    unfold callback
    split
    · exact .same
    · split
      · rw [refresh_repository]
        exact .same
      · exact .same
  | restart =>
    change RepositoryStep v s (start v store options s.repository s.clock).repository
    rw [start_repository]
    exact .same

/-- The repository holds something for the identity that the event is not newer than. -/
structure Settled (s : Selector) (identity : String) (event : RawPublication) : Prop where
  repository : StateRepository.StateInvariant s.repository
  selected : ∃ selection, s.repository.loadSelection identity = some selection ∧
    StateRepository.keyOf selection.createdAt selection.eventId ≤ StateRepository.keyOfEvent event

theorem validated_id_ne {event : RawPublication} {publication : ValidatedPublication} {now : ℤ}
    (h : validatePublication v event now = .ok publication) : publication.event.id ≠ "" := by
  have hpassed := validatePublication_ok.mp h
  have hid := v.verified_id event hpassed.verified
  rw [hpassed.event]
  intro hempty
  rw [hempty] at hid
  exact absurd hid (by decide)

theorem step_invariant (h : StateRepository.StateInvariant s.repository) (e : Event) :
    StateRepository.StateInvariant (step v store options s e).repository := by
  have hstep : RepositoryStep v s (step v store options s e).repository := step_repository s e
  generalize (step v store options s e).repository = repository at hstep
  cases hstep with
  | same => exact h
  | stored event publication hvalid => exact StateRepository.store_invariant h (validated_id_ne hvalid)
  | consent identity allowed => exact StateRepository.setUnsignedConsent_invariant h identity allowed

theorem Settled.step {identity : String} {event : RawPublication} (h : Settled s identity event)
    (e : Event) : Settled (step v store options s e) identity event := by
  refine ⟨step_invariant h.repository e, ?_⟩
  obtain ⟨selection, hselection, hkey⟩ := h.selected
  have hstep : RepositoryStep v s (Selector.step v store options s e).repository :=
    step_repository s e
  generalize (Selector.step v store options s e).repository = repository at hstep
  cases hstep with
  | same => exact ⟨selection, hselection, hkey⟩
  | stored other publication hvalid hrefusal =>
    rw [StateRepository.store_selection]
    split_ifs with hidentity
    · rw [hidentity] at hselection
      have hnewer := (StateRepository.refusal_none h.repository hrefusal).1 selection hselection
      exact ⟨_, rfl, hnewer.le.trans hkey⟩
    · exact ⟨selection, hselection, hkey⟩
  | consent other allowed =>
    rw [StateRepository.setUnsignedConsent_selection]
    exact ⟨selection, hselection, hkey⟩

theorem Settled.refused {event : RawPublication} {publication : ValidatedPublication} {now : ℤ}
    (h : Settled s (cacheIdentity publication) event)
    (hvalid : validatePublication v event now = .ok publication) (hkind : event.kind ≠ 10063)
    (commits taken : Bool) : (accept v store s event commits taken).1 ≠ .admitted := by
  unfold accept
  rw [if_neg hkind]
  split
  · exact nofun
  · next later hlater =>
    obtain rfl := validatePublication_eq hlater hvalid
    split
    · exact nofun
    · split
      · exact nofun
      · split
        · exact nofun
        · next acceptance repository haccept =>
          split
          · exact nofun
          · next haccepted =>
            obtain ⟨hrefusal, -⟩ := StateRepository.store_of_accepted haccept (by simpa using haccepted)
            obtain ⟨selection, hselection, hkey⟩ := h.selected
            have hnewer := (StateRepository.refusal_none h.repository hrefusal).1 selection hselection
            rw [(validatePublication_ok.mp hlater).event] at hnewer
            exact absurd hkey (not_le.mpr hnewer)

end Repository

section Failures

variable {v : Validator} {store : EventStore} {options : SelectionOptions} {s : Selector}

/-- The repository has accepted the event, and the store throws. -/
def LosesEvent (v : Validator) (s : Selector) : Event → Prop
  | .accept event commits taken => commits = true ∧ taken = false ∧ event.kind ≠ 10063 ∧
    ∃ publication, validatePublication v event s.now = .ok publication ∧
      publication.event.pubkey ∈ s.publishers ∧ cacheIdentity publication ∈ s.identitySet ∧
        s.repository.refusal publication = none
  | _ => False

/-- When the store throws for an event that the repository has accepted, the repository is as it was, or
a later delivery of the event is admitted. -/
def AtomicAdmission (v : Validator) (store : EventStore) (options : SelectionOptions) (s : Selector)
    (e : Event) : Prop :=
  LosesEvent v s e → match e with
    | .accept event commits taken =>
      (accept v store s event commits taken).2.repository = s.repository ∨
        ∃ later again, (accept v store
          (run (step v store options) (accept v store s event commits taken).2 later) event again
            true).1 = .admitted
    | _ => True

theorem accept_lost {event : RawPublication} {publication : ValidatedPublication}
    (hkind : event.kind ≠ 10063) (hvalid : validatePublication v event s.now = .ok publication)
    (hpubkey : publication.event.pubkey ∈ s.publishers)
    (hidentity : cacheIdentity publication ∈ s.identitySet)
    (hrefusal : s.repository.refusal publication = none) :
    accept v store s event true false =
      (.failed, { s with repository := s.repository.store publication }) := by
  unfold accept
  rw [if_neg hkind, hvalid]
  dsimp only
  rw [if_neg (not_not.mpr hpubkey), if_neg (not_not.mpr hidentity), StateRepository.accept, hrefusal]
  rfl

theorem lost_settled {event : RawPublication} {publication : ValidatedPublication}
    (h : StateRepository.StateInvariant s.repository)
    (hvalid : validatePublication v event s.now = .ok publication) :
    Settled { s with repository := s.repository.store publication } (cacheIdentity publication) event := by
  refine ⟨StateRepository.store_invariant h (validated_id_ne hvalid),
    StateRepository.selectionOf (cacheIdentity publication) publication.event, ?_, ?_⟩
  · exact (StateRepository.store_selection _ _ _).trans (if_pos rfl)
  · rw [← (validatePublication_ok.mp hvalid).event]
    exact le_rfl

theorem atomic_iff (h : StateRepository.StateInvariant s.repository) (e : Event) :
    AtomicAdmission v store options s e ↔ ¬ LosesEvent v s e := by
  constructor
  · intro hatomic hloses
    have hresult := hatomic hloses
    cases e with
    | accept event commits taken =>
      obtain ⟨rfl, rfl, hkind, publication, hvalid, hpubkey, hidentity, hrefusal⟩ := hloses
      dsimp only at hresult
      rw [accept_lost hkind hvalid hpubkey hidentity hrefusal] at hresult
      rcases hresult with hsame | ⟨later, again, hadmitted⟩
      · have hselection := StateRepository.store_selection s.repository publication (cacheIdentity publication)
        rw [show s.repository.store publication = s.repository from hsame, if_pos rfl] at hselection
        exact lt_irrefl _ ((StateRepository.refusal_none h hrefusal).1 _ hselection)
      · have hsettled : Settled (run (step v store options)
            { s with repository := s.repository.store publication } later) (cacheIdentity publication)
            event :=
          run_preserves (I := fun t => Settled t (cacheIdentity publication) event)
            (fun _ e ht => ht.step e) later (lost_settled h hvalid)
        exact hsettled.refused hvalid hkind again true hadmitted
    | _ => exact hloses
  · exact fun hnot hloses => absurd hloses hnot

/-- In a run every admission is atomic exactly if the store takes every event that the repository has
accepted. -/
theorem admission_atomic (v : Validator) (store : EventStore) (options : SelectionOptions) (clock : ℤ)
    (events : List Event) :
    Always (step v store options) (AtomicAdmission v store options)
        (start v store options .empty clock) events ↔
      Always (step v store options) (fun s e => ¬ LosesEvent v s e)
        (start v store options .empty clock) events := by
  have hstart : StateRepository.StateInvariant (start v store options .empty clock).repository := by
    rw [start_repository]
    exact StateRepository.empty_invariant
  constructor
  · refine always_of_invariant (I := fun s => StateRepository.StateInvariant s.repository) ?_ ?_ hstart
    · exact fun s e hs _ => step_invariant hs e
    · exact fun s e hs hatomic => (atomic_iff hs e).mp hatomic
  · refine always_of_invariant (I := fun s => StateRepository.StateInvariant s.repository) ?_ ?_ hstart
    · exact fun s e hs _ => step_invariant hs e
    · exact fun s e hs hnot => (atomic_iff hs e).mpr hnot

/-- An event that the store has thrown for is stored, is not shown, and is refused when it comes again. -/
theorem lost_event_is_stale :
    let event := samplePublication 'b' 90 [["expiration", "110"]]
    let s := sampleRun [.accept event true false]
    LosesEvent sampleValidator (sampleRun []) (.accept event true false) ∧
      (s.repository.loadSelection "17091:p:").map StoredSelection.event = some event ∧ s.given = [] ∧
        ¬ AtomicAdmission sampleValidator sampleStore sampleOptions (sampleRun [])
          (.accept event true false) := by
  have hloses : LosesEvent sampleValidator (sampleRun [])
      (.accept (samplePublication 'b' 90 [["expiration", "110"]]) true false) := by
    have hchecked : ((validatePublication sampleValidator (samplePublication 'b' 90 [["expiration", "110"]])
        100).toOption.any fun publication => publication.event.pubkey ∈ ["p"] ∧
          cacheIdentity publication ∈ ["17091:p:"] ∧
            StateRepository.empty.refusal publication = none) = true := by decide +kernel
    obtain ⟨publication, hsome, hpublication⟩ := (Option.any_eq_true _ _).mp hchecked
    obtain ⟨hpubkey, hidentity, hrefusal⟩ := of_decide_eq_true hpublication
    refine ⟨rfl, rfl, by decide, publication, ?_, hpubkey, hidentity, hrefusal⟩
    cases hvalid : validatePublication sampleValidator (samplePublication 'b' 90 [["expiration", "110"]]) 100 with
    | error e =>
      rw [hvalid] at hsome
      exact nomatch hsome
    | ok other =>
      rw [hvalid] at hsome
      obtain rfl := Option.some.inj hsome
      exact hvalid
  refine ⟨hloses, by decide +kernel, by decide +kernel, ?_⟩
  rw [atomic_iff StateRepository.empty_invariant]
  exact not_not.mpr hloses

end Failures

end Selector

end NixstrCache.Nostr
