import NixstrCache.Write.PublicationCoordinator

/-!
What the replication of a saga leaves alone.

Between the authorization of the replicas and the signature the coordinator fills in endpoint work of
replicas and complete servers.  An assertion that these few operations keep is kept by every program
of the replication, whatever it says.
-/

namespace NixstrCache.Write

open Durable KeyedTable Persistence Persistence.WriteRepository

section Work

variable {I : Journal → Prop}

/-- The assertion is kept by the outcomes and the claims of endpoint work of one kind. -/
structure KeepsWork (o : CoordinatorOptions) (m : Moment) (kind : EndpointWorkKind)
    (I : Journal → Prop) : Prop where
  outcome : ∀ work ok code, work.kind = kind → Preserves I (outcome o m work ok code)
  claim : ∀ batchId target,
    Preserves I (repository silently (claimEndpointWork batchId kind target m.now))

variable {o : CoordinatorOptions} {m : Moment} {kind : EndpointWorkKind}

theorem claimEndpointWork_key {batchId now : ℕ} {target : String} {s : WriteRepository}
    {work : EndpointWork}
    (h : ((claimEndpointWork batchId kind target now).run s).result = .ok (some work)) :
    work.key = (batchId, kind, target) := by
  rw [claimEndpointWork, Program.bind_read_run] at h
  split at h
  · cases h
  · next w hw =>
    rw [Program.bind_commit_run] at h
    cases h
    exact (Table.find?_eq_some.mp (Option.filter_eq_some_iff.mp hw).1).2

theorem recordInitial_keeps (h : KeepsWork o m kind I) (batchId : ℕ) (target : String) (ok : Bool) :
    Preserves I (recordInitial o m batchId kind target ok) := by
  refine Preserves.bind Preserves.read fun j => ?_
  split
  · exact Preserves.pure _
  · next work hwork =>
    have hkey := (Table.find?_eq_some.mp (Option.filter_eq_some_iff.mp hwork).1).2
    simp only [EndpointWork.key, Prod.mk.injEq] at hkey
    obtain ⟨rfl, rfl, rfl⟩ := hkey
    have hclaim : Preserves I (claimInitial m work) := by
      unfold claimInitial
      split_ifs
      · exact Preserves.pure _
      · exact h.claim _ _
    refine hclaim.bind_result fun s claimed hclaimed => ?_
    split
    · exact Preserves.pure _
    · next claimed =>
      refine h.outcome claimed ok _ ?_
      unfold claimInitial at hclaimed
      split_ifs at hclaimed
      · cases hclaimed
        rfl
      · have hclaimedKey := claimEndpointWork_key hclaimed
        simp only [EndpointWork.key, Prod.mk.injEq] at hclaimedKey
        exact hclaimedKey.2.1

end Work

section Replicas

variable {I : Journal → Prop} {o : CoordinatorOptions} {m : Moment}

/-- The assertion is kept by what the replication does before it comes to the signature. -/
structure KeepsReplicas (o : CoordinatorOptions) (m : Moment) (I : Journal → Prop) : Prop
    extends KeepsWork o m .replica I where
  complete : ∀ batchId server, Preserves I (repository silently (recordCompleteServer batchId server))

theorem failServers_keeps (h : KeepsReplicas o m I) (batchId : ℕ) (servers : List String) :
    Preserves I (failServers o m batchId servers) :=
  Preserves.forEach fun server _ => recordInitial_keeps h.toKeepsWork batchId server false

theorem finishServer_keeps (h : KeepsReplicas o m I) (saga : SagaRow) (server : String)
    (complete : Bool) : Preserves I (finishServer o m saga server complete) := by
  refine Preserves.bind Preserves.read fun j => ?_
  split_ifs
  · refine Preserves.bind (h.complete _ _) fun _ => ?_
    exact Preserves.bind (recordInitial_keeps h.toKeepsWork _ _ _) fun _ => Preserves.pure _
  · exact Preserves.bind (recordInitial_keeps h.toKeepsWork _ _ _) fun _ => Preserves.pure _

theorem finishPass_keeps (h : KeepsReplicas o m I) (saga : SagaRow) (server : String)
    (complete : Bool) : Preserves I (finishPass o m saga server complete) := by
  refine Preserves.bind (finishServer_keeps h saga server complete).attempt fun result => ?_
  split
  · exact Preserves.pure _
  · exact Preserves.bind (recordInitial_keeps h.toKeepsWork _ _ _) fun _ => Preserves.pure _

theorem takeServer_keeps (h : KeepsReplicas o m I) (waiting : List String) (r : Replication) :
    Preserves I (takeServer o m r waiting) := by
  induction waiting generalizing r with
  | nil => exact Preserves.pure _
  | cons server waiting ih =>
    unfold takeServer
    split_ifs
    · exact Preserves.pure _
    · exact Preserves.pure _
    · exact Preserves.bind (finishPass_keeps h _ _ _) fun _ => ih _
    · exact Preserves.pure _
    · exact Preserves.bind (recordInitial_keeps h.toKeepsWork _ _ _) fun _ => ih _
    · exact Preserves.pure _

theorem startWorkers_keeps (h : KeepsReplicas o m I) (n : ℕ) (r : Replication) :
    Preserves I (startWorkers o m n r) := by
  induction n generalizing r with
  | zero => exact Preserves.pure _
  | succ n ih => exact Preserves.bind (takeServer_keeps h _ r) fun r => ih r

end Replicas

section Phases

variable {o : CoordinatorOptions} {m : Moment} {I E : Journal → Prop} {Q : Phase → Journal → Prop}

/-- From `I` the replication leaves `E` behind at every commit, and `Q` with the phase it comes to:
it rests, goes on, or signs the active saga. -/
structure Replicates (o : CoordinatorOptions) (m : Moment) (I E : Journal → Prop)
    (Q : Phase → Journal → Prop) : Prop where
  keeps : KeepsReplicas o m I
  proof : ∀ batchId server hash,
    Preserves I (repository (noteProof batchId server hash) (recordBlobProof batchId server hash))
  weaker : ∀ j, I j → E j
  idle : ∀ j, I j → Q .idle j
  replicating : ∀ r j, I j → Q (.replicating r) j
  sign : ∀ j saga relays, I j → j.state.publicationSaga = some saga → saga.completeServer ≠ none →
    Triple (fun k => k = j) (sign o m saga relays) E Q

theorem Replicates.of_keeps {α : Type} {program : CoordinatorProgram α} {f : α → CoordinatorProgram Phase}
    (h : Replicates o m I E Q) (hkeeps : Preserves I program) (hf : ∀ a, Triple I (f a) E Q) :
    Triple I (program >>= f) E Q :=
  Triple.bind (hkeeps.mono (fun _ hj => hj) h.weaker fun _ _ hj => hj) hf

theorem settle_replicates (h : Replicates o m I E Q) (r : Replication) :
    Triple I (settle o m r) E Q := by
  unfold settle
  split_ifs
  · exact Triple.pure _ (h.replicating r)
  · exact h.of_keeps (failServers_keeps h.keeps _ _) fun _ => Triple.throw _
  · intro j hj
    rw [Program.bind_read_run]
    split
    · exact Triple.throw (P := fun k => k = j) _ j rfl
    · next saga hsaga =>
      split_ifs with hcomplete
      · exact Triple.pure (P := fun k => k = j) _ (fun k hk => hk ▸ h.idle j hj) j rfl
      · exact h.sign j saga r.relays hj hsaga hcomplete j rfl

theorem authorized_replicates (h : Replicates o m I E Q) (saga : SagaRow)
    (inventory : List InventoryEntry) (servers relays : List String) (ok cancelled : Bool) :
    Triple I (authorized o m saga inventory servers relays ok cancelled) E Q := by
  unfold authorized
  split_ifs
  · exact h.of_keeps (startWorkers_keeps h.keeps _ _) fun r => settle_replicates h r
  · exact h.of_keeps (failServers_keeps h.keeps _ _) fun _ => Triple.throw _

theorem abandonServer_replicates (h : Replicates o m I E Q) (r : Replication) (server : String) :
    Triple I (abandonServer o m r server) E Q := by
  unfold abandonServer
  split_ifs
  · exact settle_replicates h r
  · refine h.of_keeps (recordInitial_keeps h.keeps.toKeepsWork _ _ _) fun _ => ?_
    exact h.of_keeps (takeServer_keeps h.keeps _ _) fun r => settle_replicates h r

theorem advanceWorker_replicates (h : Replicates o m I E Q) (r : Replication) (worker : Worker) :
    Triple I (advanceWorker o m r worker) E Q := by
  unfold advanceWorker
  split_ifs
  · refine h.of_keeps (finishPass_keeps h.keeps _ _ _) fun _ => ?_
    exact h.of_keeps (takeServer_keeps h.keeps _ _) fun r => settle_replicates h r
  · exact abandonServer_replicates h r worker.server
  · exact Triple.pure _ (h.replicating _)

theorem proved_replicates (h : Replicates o m I E Q) (r : Replication) (worker : Worker)
    (entry : InventoryEntry) (entries : List InventoryEntry) (answer : ProofOutcome) :
    Triple I (proved o m r worker entry entries answer) E Q := by
  cases answer with
  | confirmed =>
    refine h.of_keeps (h.proof r.saga.batchId worker.server entry.hash).attempt fun result => ?_
    split
    · exact abandonServer_replicates h r worker.server
    · exact advanceWorker_replicates h r _
  | refused => exact advanceWorker_replicates h r _
  | failed => exact abandonServer_replicates h r worker.server

end Phases

end NixstrCache.Write
