import NixstrCache.Lib.Runs
import NixstrCache.Persistence.SagaInvariant

/-!
The states of a publication saga over every run of the repository.

A run interleaves all operations with arbitrary arguments, stops in the middle of an operation and
new openings of the database.
-/

namespace NixstrCache.Persistence.WriteRepository

open Durable KeyedTable Runs

section Machine

inductive RepositoryOp where
  | staging (op : StagingOp)
  | batch (op : BatchOp)
  | saga (op : SagaOp)
  | reopen (retries : String → Option String)

/-- An operation at a time, with the outcome of its file removals and, for an interrupted one, the
number of commits before the stop. -/
structure RepositoryLabel where
  op : RepositoryOp
  now : ℕ
  fails : String → Option String
  stop : Option ℕ

variable (digest : Bytes → String) (acceptable : RawPublication → Bool)

def RepositoryLabel.program (l : RepositoryLabel) : RepositoryProgram Unit :=
  match l.op with
  | .staging op => stagingProgram digest l.fails l.now op
  | .batch op => batchProgram l.fails l.now op
  | .saga op => sagaProgram acceptable l.fails l.now op
  | .reopen retries => WriteRepository.reopen digest l.fails retries l.now

def repositoryStep (s : WriteRepository) (l : RepositoryLabel) : WriteRepository :=
  match l.stop with
  | none => ((l.program digest acceptable).run s).final s
  | some k => (((l.program digest acceptable).run s).crash s k).forgetProcess

inductive RepositoryMove : WriteRepository → WriteRepository → Prop
  | same {s t} (h : t.ledger = s.ledger) : RepositoryMove s t
  | batch {s t} (h : BatchMove s t) : RepositoryMove s t
  | saga {s t} (h : SagaMove acceptable s t) : RepositoryMove s t
  | activate {s} : RepositoryMove s s.activateRows

theorem reopen_advances {R : WriteRepository → WriteRepository → Prop}
    (hsame : ∀ s t : WriteRepository, SameLedger s t → R s t) (hactivate : ∀ s, R s s.activateRows)
    (fails retries : String → Option String) (now : ℕ) :
    Advances R (WriteRepository.reopen digest fails retries now) := by
  refine fun s => AdvancesFrom.commit_bind (hsame _ _ ⟨rfl, rfl⟩) ?_
  refine Advances.bind (advances_onBlobs (fun _ _ => hsame _ _ ⟨rfl, rfl⟩) _) (fun _ s => ?_) _
  exact AdvancesFrom.commit (hactivate s)

theorem program_advances (l : RepositoryLabel) :
    Advances (RepositoryMove acceptable) (l.program digest acceptable) := by
  unfold RepositoryLabel.program
  split
  · exact Advances.mono (fun _ _ h => .same h.ledger) (staging_advances digest l.fails l.now _)
  · exact Advances.mono (fun _ _ h => .batch h) (batch_advances l.fails l.now _)
  · exact Advances.mono (fun _ _ h => .saga h) (saga_advances acceptable l.fails l.now _)
  · exact reopen_advances digest (fun _ _ h => .same h.1) (fun _ => .activate) l.fails _ l.now

theorem repositoryStep_moves (s : WriteRepository) (l : RepositoryLabel) :
    Relation.ReflTransGen (RepositoryMove acceptable) s (repositoryStep digest acceptable s l) := by
  have hadvances := program_advances digest acceptable l s
  unfold repositoryStep
  split
  · exact hadvances.final
  · exact (hadvances.crash _).tail (.same rfl)

end Machine

section Runs

variable (digest : Bytes → String) (acceptable : RawPublication → Bool)
variable {s t : WriteRepository}

theorem SagaInvariant.move_evolves {acceptable : RawPublication → Bool} (hI : SagaInvariant s)
    (h : RepositoryMove acceptable s t) : Evolves s t := by
  cases h with
  | same h => exact (hI.steady_of_ledger h).toEvolves
  | batch h => exact (hI.batch_steady h).toEvolves
  | saga h => exact hI.saga_evolves h
  | activate => exact hI.activate_steady.toEvolves

theorem SagaInvariant.step_evolves (hI : SagaInvariant s) (l : RepositoryLabel) :
    Evolves s (repositoryStep digest acceptable s l) :=
  hI.evolves_of_moves (fun _ _ hJ => hJ.move_evolves) (repositoryStep_moves digest acceptable s l)

theorem reachable_invariant (capacity : ℕ) (labels : List RepositoryLabel) :
    SagaInvariant (run (repositoryStep digest acceptable) (initial capacity) labels) :=
  run_preserves (fun _ l hI => (hI.step_evolves digest acceptable l).invariant) labels
    (initial_invariant capacity)

theorem SagaInvariant.run_follows (hI : SagaInvariant s) (labels : List RepositoryLabel) :
    Follows s (run (repositoryStep digest acceptable) s labels) := by
  induction labels generalizing s with
  | nil => exact .refl s
  | cons l labels ih =>
    obtain ⟨hJ, hfollows⟩ := hI.step_evolves digest acceptable l
    exact hfollows.trans (ih hJ)

theorem SagaInvariant.extends_of_same (hI : SagaInvariant s) (h : Follows s t) {r r' : SagaRow}
    (hr : r ∈ s.records) (hr' : r' ∈ t.records) (hsame : r.Same r') : r.Extends r' := by
  have hactive : ∀ a ∈ s.sagas.rows, r = a ∨ r.Before a := by
    intro a ha
    rcases mem_records.mp hr with hr | ⟨h, hh, rfl⟩
    · rw [hI.single.rows ha, List.mem_singleton] at hr
      exact Or.inl hr
    · exact Or.inr (hI.older a ha h hh)
  have hsome : ∃ a, a ∈ s.sagas.rows := by
    rcases hI.single.cases with hrows | ⟨a, hrows⟩
    · simp [records, hrows, hI.started hrows] at hr
    · exact ⟨a, by simp [hrows]⟩
  obtain ⟨a, ha⟩ := hsome
  rcases h.grown r' hr' with ⟨q, hq, hqsame, hext⟩ | hnew
  · have hqr : q = r := by
      have hids : q.batchId = r.batchId := hqsame.2.trans hsame.2.symm
      have hgenerations := hqsame.1.trans hsame.1.symm
      rcases mem_records.mp hr with hrow | ⟨h, hh, rfl⟩
      · rcases mem_records.mp hq with hqrow | ⟨h, hh, rfl⟩
        · rw [hI.single.rows hrow, List.mem_singleton] at hqrow
          exact hqrow
        · have := hI.older r hrow h hh
          unfold SagaRow.Before at this
          omega
      · rcases mem_records.mp hq with hqrow | ⟨h', hh', rfl⟩
        · have := hI.older q hqrow h hh
          unfold SagaRow.Before at this
          omega
        · rw [Table.eq_of_key hh' hh hids]
    exact hqr ▸ hext
  · have hbefore := hnew a ha
    have hle := hactive a ha
    unfold SagaRow.Before SagaRow.Same at *
    rcases hle with rfl | hle <;> omega

theorem SagaInvariant.active_of_moves {R : WriteRepository → WriteRepository → Prop}
    {Q : SagaRow → SagaRow → Prop} (hrefl : ∀ a, Q a a) (htrans : ∀ a b c, Q a b → Q b c → Q a c)
    (hR : ∀ s t, SagaInvariant s → R s t →
      Evolves s t ∧ ∀ a ∈ s.sagas.rows, ∀ b ∈ t.sagas.rows, Q a b)
    (hI : SagaInvariant s) (h : Relation.ReflTransGen R s t) :
    ∀ a ∈ s.sagas.rows, ∀ b ∈ t.sagas.rows, Q a b := by
  induction h with
  | refl =>
    intro a ha b hb
    rw [hI.single.rows ha, List.mem_singleton] at hb
    exact hb ▸ hrefl a
  | tail hmoves hmove ih =>
    intro a ha c hc
    obtain ⟨hJ, hfollows⟩ := hI.evolves_of_moves (fun s t hs hst => (hR s t hs hst).1) hmoves
    obtain ⟨b, hb, -⟩ := hfollows.forward a ha
    exact htrans a b c (ih a ha b hb) ((hR _ _ hJ hmove).2 b hb c hc)

theorem step_sagas {R : WriteRepository → WriteRepository → Prop} {l : RepositoryLabel}
    (h : Advances R (l.program digest acceptable)) (s : WriteRepository) :
    ∃ t, Relation.ReflTransGen R s t ∧ (repositoryStep digest acceptable s l).sagas = t.sagas := by
  unfold repositoryStep
  split
  · exact ⟨_, (h s).final, rfl⟩
  · exact ⟨_, (h s).crash _, rfl⟩

theorem SagaInvariant.claimMove_newer (hI : SagaInvariant s) (h : ClaimMove s t) :
    ∀ a ∈ s.sagas.rows, ∀ b ∈ t.sagas.rows,
      a.Same b ∨ a.candidate.generation < b.candidate.generation := by
  intro a ha b hb
  cases h with
  | adopt hcurrent hunset hprior hserver =>
    obtain ⟨r, hr, rfl⟩ := List.mem_map.mp hb
    rw [hI.single.rows ha, List.mem_singleton] at hr
    subst hr
    refine Or.inl ?_
    split <;> exact ⟨rfl, rfl⟩
  | claim hpending hnewer h =>
    rw [(claimCandidate_claimed hI.single hnewer h).sagas, List.mem_singleton] at hb
    subst hb
    exact Or.inr (hnewer _ (publicationSaga_of_rows (hI.single.rows ha))).1

theorem SagaInvariant.refreshMove_equal (hI : SagaInvariant s) (h : RefreshMove s t) :
    ∀ a ∈ s.sagas.rows, ∀ b ∈ t.sagas.rows, a.candidate.generation = b.candidate.generation := by
  intro a ha b hb
  obtain ⟨hsaga, h⟩ := h
  obtain ⟨r, hrows, rfl⟩ := hI.single.publicationSaga (Option.filter_eq_some_iff.mp hsaga).1
  rw [(refreshSaga_refreshed hrows h).sagas, List.mem_singleton] at hb
  obtain rfl : a = r := by simpa [hrows] using ha
  subst hb
  rfl

theorem SagaInvariant.claim_newer (hI : SagaInvariant s) {l : RepositoryLabel}
    {destinations : List String} (hop : l.op = .saga (.claimPublication destinations)) :
    ∀ a ∈ s.sagas.rows, ∀ b ∈ (repositoryStep digest acceptable s l).sagas.rows,
      a.Same b ∨ a.candidate.generation < b.candidate.generation := by
  have hadvances : Advances ClaimMove (l.program digest acceptable) := by
    rw [RepositoryLabel.program, hop]
    exact advances_discarded (claimPublication_advances l.now destinations)
  obtain ⟨t, hmoves, hsagas⟩ := step_sagas digest acceptable hadvances s
  rw [hsagas]
  refine hI.active_of_moves (fun a => Or.inl (.refl a)) (fun a b c hab hbc => ?_)
    (fun s t hs hst => ⟨hs.claimMove_evolves hst, hs.claimMove_newer hst⟩) hmoves
  unfold SagaRow.Same at *
  omega

theorem SagaInvariant.refresh_equal (hI : SagaInvariant s) {l : RepositoryLabel} {lead : ℕ}
    (hop : l.op = .saga (.beginPublicationRefresh lead)) :
    ∀ a ∈ s.sagas.rows, ∀ b ∈ (repositoryStep digest acceptable s l).sagas.rows,
      a.candidate.generation = b.candidate.generation := by
  have hadvances : Advances RefreshMove (l.program digest acceptable) := by
    rw [RepositoryLabel.program, hop]
    exact advances_discarded (beginPublicationRefresh_advances l.now lead)
  obtain ⟨t, hmoves, hsagas⟩ := step_sagas digest acceptable hadvances s
  rw [hsagas]
  exact hI.active_of_moves (fun _ => rfl) (fun _ _ _ hab hbc => hab.trans hbc)
    (fun s t hs hst => ⟨(hs.refreshMove_steady hst).toEvolves, hs.refreshMove_equal hst⟩) hmoves

/-- The saga state machine.  After every run there is one active saga at most, the columns of every
saga are filled in order, nothing that is set in a saga changes in a later state, and the generation
of the active saga never falls: a claim that takes a candidate raises it and a refresh keeps it. -/
theorem saga_state_machine (capacity : ℕ) (labels : List RepositoryLabel) :
    let s := run (repositoryStep digest acceptable) (initial capacity) labels
    s.sagas.rows.length ≤ 1 ∧
    (∀ r ∈ s.records,
      (r.admitted = true → r.committed = true) ∧
      (r.committed = true → r.acknowledgedRelay.isSome) ∧
      (r.acknowledgedRelay.isSome → r.signedEvent.isSome) ∧
      (r.signedEvent.isSome → ∃ server ∈ r.destinations, r.completeServer = some server)) ∧
    (∀ later, let t := run (repositoryStep digest acceptable) s later
      (∀ r ∈ s.records, ∃ r' ∈ t.records, r'.batchId = r.batchId) ∧
      (∀ r ∈ s.records, ∀ r' ∈ t.records, r.Same r' → r.Extends r') ∧
      ∀ a ∈ s.sagas.rows, ∃ b ∈ t.sagas.rows,
        a.candidate.generation ≤ b.candidate.generation) ∧
    ∀ l, let t := repositoryStep digest acceptable s l
      (∀ destinations, l.op = .saga (.claimPublication destinations) →
        ∀ a ∈ s.sagas.rows, ∀ b ∈ t.sagas.rows,
          a.Same b ∨ a.candidate.generation < b.candidate.generation) ∧
      ∀ lead, l.op = .saga (.beginPublicationRefresh lead) →
        ∀ a ∈ s.sagas.rows, ∀ b ∈ t.sagas.rows,
          a.candidate.generation = b.candidate.generation := by
  intro s
  have hI : SagaInvariant s := reachable_invariant digest acceptable capacity labels
  refine ⟨hI.single, fun r hr => ?_, fun later => ?_, fun l => ?_⟩
  · have hr := hI.ordered r hr
    simp only [Option.isSome_iff_ne_none]
    refine ⟨hr.committed_of_admitted, hr.acknowledged_of_committed, hr.signed_of_acknowledged,
      fun hsigned => ?_⟩
    obtain ⟨server, hserver⟩ := Option.ne_none_iff_exists'.mp (hr.complete_of_signed hsigned)
    exact ⟨server, hr.complete_listed server hserver, hserver⟩
  · have hfollows := hI.run_follows digest acceptable later
    refine ⟨hfollows.kept, fun r hr r' hr' => hI.extends_of_same hfollows hr hr', fun a ha => ?_⟩
    obtain ⟨b, hb, hab⟩ := hfollows.forward a ha
    refine ⟨b, hb, ?_⟩
    unfold SagaRow.Same SagaRow.Before at hab
    omega
  · exact ⟨fun destinations hop => hI.claim_newer digest acceptable hop,
      fun lead hop => hI.refresh_equal digest acceptable hop⟩

end Runs

end NixstrCache.Persistence.WriteRepository
