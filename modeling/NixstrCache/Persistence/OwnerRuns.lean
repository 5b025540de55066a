import NixstrCache.Persistence.Ownership

/-!
Every owner row has its holder, over every run of the repository.

A session is the repository together with what its process holds: the uploads and runs that it has
named since it started.  The sagas that a pruning transaction has taken are kept beside it.  Whoever
owns a blob at the end of a process stays in the table, since no opening of the database looks for the
owners of another process.  So the account is exact only while a process ends between its uploads and
runs, and outside the two windows between a transaction and the releases that follow it.
-/

namespace NixstrCache.Persistence.WriteRepository

open Durable KeyedTable Runs BlobStore

section Machine

/-- The calls that the program makes: only uploads and runs are named as owners, the database is
reconciled where it is opened, and a finished build comes with its run. -/
def RepositoryOp.issued : RepositoryOp → Bool
  | .staging (.blob (.reconcile _)) => false
  | .staging (.blob op) => op.named.all Owner.isHolder
  | .batch (.recordPending _ build) => build.runId.any (· ≠ "")
  | _ => true

abbrev IssuedLabel := { l : RepositoryLabel // l.op.issued = true }

def RepositoryOp.named : RepositoryOp → List Owner
  | .staging (.blob op) => op.named
  | _ => []

def RepositoryOp.pruneAt : RepositoryOp → Option ℕ
  | .saga op => op.pruneAt
  | _ => none

def RepositoryOp.isReopen : RepositoryOp → Bool
  | .reopen _ => true
  | _ => false

structure Session where
  repo : WriteRepository
  /-- The uploads and runs that this process has named. -/
  holders : List Owner
  /-- The sagas that a pruning transaction has taken. -/
  pruned : List ℕ

variable (digest : Bytes → String) (acceptable : RawPublication → Bool)

/-- The state after the last commit that a label reaches. -/
def RepositoryLabel.reached (l : RepositoryLabel) (s : WriteRepository) : WriteRepository :=
  match l.stop with
  | none => ((l.program digest acceptable).run s).final s
  | some k => ((l.program digest acceptable).run s).crash s k

/-- The number of commits that a label reaches. -/
def RepositoryLabel.taken (l : RepositoryLabel) (s : WriteRepository) : ℕ :=
  match l.stop with
  | none => ((l.program digest acceptable).run s).commits.length
  | some k => min k ((l.program digest acceptable).run s).commits.length

def RepositoryLabel.ends (l : RepositoryLabel) : Bool :=
  l.stop.isSome || l.op.isReopen

def RepositoryLabel.prunes (l : RepositoryLabel) (s : WriteRepository) : Bool :=
  l.op.pruneAt.any fun n => n ≤ l.taken digest acceptable s

def sessionStep (w : Session) (l : IssuedLabel) : Session where
  repo := repositoryStep digest acceptable w.repo l.val
  holders := if l.val.ends then [] else w.holders ++ l.val.op.named
  pruned := w.pruned ++
    if l.val.prunes digest acceptable w.repo then
      (l.val.reached digest acceptable w.repo).releasable
    else []

def Session.start (capacity : ℕ) : Session :=
  ⟨initial capacity, [], []⟩

/-- Who an owner row stands for: a route that has the blob as a component, the pending candidate's
batch, a saga that no pruning has taken, or an upload or a run of this process. -/
def Session.Held (w : Session) (row : OwnerRow String) : Prop :=
  match row.owner with
  | .route route => ∃ c ∈ w.repo.blobs.db.components.rows, c.hash = row.hash ∧ c.route = route
  | .batch id => ∃ c, w.repo.pendingCandidate = some c ∧ c.batchId = id
  | .saga id => (∃ r ∈ w.repo.records, r.batchId = id) ∧ id ∉ w.pruned
  | owner => owner ∈ w.holders

def holderRows (s : WriteRepository) : List (OwnerRow String) :=
  s.blobs.db.owners.rows.filter fun r => r.owner.isHolder

/-- What a process must not do for its owner rows to stay in order.  A blob is admitted or the
database is reconciled as the store allows; a candidate is claimed under an id that no saga has had;
the process ends while it owns nothing, and it does not stop after the transaction that replaces a
pending candidate or prunes the sagas and before the release of the owners they leave. -/
structure Orderly (w : Session) (l : IssuedLabel) : Prop where
  stored : ∀ op, l.val.op = .staging (.blob op) →
    Allowed digest List.length w.repo.blobs ⟨op, l.val.now, l.val.fails, none⟩
  reconciled : ∀ retries, l.val.op = .reopen retries →
    ∀ t ∈ w.repo.blobs.db.tombstones.rows, w.repo.blobs.dropLeases.live t.hash = false
  fresh : ∀ destinations, l.val.op = .saga (.claimPublication destinations) →
    ∀ c, w.repo.pendingCandidate = some c → ∀ r ∈ w.repo.records, r.batchId ≠ c.batchId
  ended : l.val.ends = true → (l.val.reached digest acceptable w.repo).holderRows = []
  replaced : ∀ batch build, l.val.op = .batch (.recordPending batch build) → l.val.stop = some 1 →
    ∀ c, w.repo.pendingCandidate = some c → c.batchId = batch.id
  released : l.val.stop.isSome = true → l.val.prunes digest acceptable w.repo = true →
    ∀ id ∈ (l.val.reached digest acceptable w.repo).releasable,
      (l.val.reached digest acceptable w.repo).blobs.ownedBy (.saga id) = []

end Machine

section Account

/-- The invariant of a session. -/
structure Tidy (w : Session) : Prop where
  blobs : w.repo.blobs.Custodial List.length
  pendingOwned : ∀ r ∈ w.repo.pendingBlobs.rows, Owner.batch r.batchId ∈ w.repo.owners r.hash
  sagaOwned : ∀ r ∈ w.repo.sagaBlobs.rows, Owner.saga r.batchId ∈ w.repo.owners r.hash
  batchHeld : ∀ id x, Owner.batch id ∈ w.repo.owners x →
    ∃ c, w.repo.pendingCandidate = some c ∧ c.batchId = id
  sagaHeld : ∀ id x, Owner.saga id ∈ w.repo.owners x →
    (∃ r ∈ w.repo.records, r.batchId = id) ∧ id ∉ w.pruned
  holderHeld : ∀ o x, o.isHolder = true → o ∈ w.repo.owners x → o ∈ w.holders
  apart : ∀ a ∈ w.repo.sagas.rows, ∀ h ∈ w.repo.history.rows, h.batchId ≠ a.batchId
  archived : ∀ id ∈ w.pruned, ∃ h ∈ w.repo.history.rows, h.batchId = id

variable {w : Session} {s t : WriteRepository} {own : Owner → Prop}

theorem mem_owners {o : Owner} {x : String} :
    o ∈ s.owners x ↔ (⟨o, x⟩ : OwnerRow String) ∈ s.blobs.db.owners.rows :=
  Iff.rfl

theorem record_ids {id : ℕ} : (∃ r ∈ s.records, r.batchId = id) ↔
    id ∈ s.sagas.rows.map SagaRow.batchId ∨ id ∈ s.history.rows.map HistoryRow.batchId := by
  simp only [mem_records, List.mem_map]
  constructor
  · rintro ⟨r, hr | ⟨h, hh, rfl⟩, rfl⟩
    · exact Or.inl ⟨r, hr, rfl⟩
    · exact Or.inr ⟨h, hh, rfl⟩
  · rintro (⟨r, hr, rfl⟩ | ⟨h, hh, rfl⟩)
    · exact ⟨r, Or.inl hr, rfl⟩
    · exact ⟨h.saga, Or.inr ⟨h, hh, rfl⟩, rfl⟩

theorem Frame.record_ids (hf : Frame s own t) {id : ℕ} :
    (∃ r ∈ t.records, r.batchId = id) ↔ ∃ r ∈ s.records, r.batchId = id := by
  rw [WriteRepository.record_ids, WriteRepository.record_ids, hf.sagas, hf.history]

theorem Frame.history_ids (hf : Frame s own t) {id : ℕ} :
    (∃ h ∈ t.history.rows, h.batchId = id) ↔ ∃ h ∈ s.history.rows, h.batchId = id := by
  have hids : id ∈ t.history.rows.map HistoryRow.batchId ↔
      id ∈ s.history.rows.map HistoryRow.batchId := by rw [hf.history]
  simpa only [List.mem_map] using hids

theorem Frame.apart (hf : Frame s own t)
    (hs : ∀ a ∈ s.sagas.rows, ∀ h ∈ s.history.rows, h.batchId ≠ a.batchId) :
    ∀ a ∈ t.sagas.rows, ∀ h ∈ t.history.rows, h.batchId ≠ a.batchId := by
  intro a ha h hh hid
  have haid := List.mem_map_of_mem (f := SagaRow.batchId) ha
  have hhid := List.mem_map_of_mem (f := HistoryRow.batchId) hh
  rw [hf.sagas] at haid
  rw [hf.history, hid] at hhid
  obtain ⟨a', ha', haeq⟩ := List.mem_map.mp haid
  obtain ⟨h', hh', hheq⟩ := List.mem_map.mp hhid
  exact hs a' ha' h' hh' (hheq.trans haeq.symm)

theorem Tidy.frame (hw : Tidy w) (hf : Frame w.repo own t) (hown : ∀ o, own o → o.isHolder = true)
    {holders : List Owner} (hheld : ∀ o x, o.isHolder = true → o ∈ t.owners x → o ∈ holders) :
    Tidy ⟨t, holders, w.pruned⟩ := by
  have hbatch : ∀ id, ¬own (.batch id) := fun id h => by simpa [Owner.isHolder] using hown _ h
  have hsaga : ∀ id, ¬own (.saga id) := fun id h => by simpa [Owner.isHolder] using hown _ h
  refine ⟨hf.blobs.custodial, fun r hr => ?_, fun r hr => ?_, fun id x hid => ?_, fun id x hid => ?_,
    hheld, hf.apart hw.apart, fun id hid => hf.history_ids.mpr (hw.archived id hid)⟩
  · rw [hf.pendingBlobs] at hr
    exact (hf.blobs.owner_iff r.hash rfl (hbatch _)).mpr (hw.pendingOwned r hr)
  · rw [hf.sagaBlobs] at hr
    exact (hf.blobs.owner_iff r.hash rfl (hsaga _)).mpr (hw.sagaOwned r hr)
  · obtain ⟨c, hc, hcid⟩ := hw.batchHeld id x ((hf.blobs.owner_iff x rfl (hbatch id)).mp hid)
    exact ⟨c, hf.pendingCandidate.trans hc, hcid⟩
  · obtain ⟨hrecord, hpruned⟩ := hw.sagaHeld id x ((hf.blobs.owner_iff x rfl (hsaga id)).mp hid)
    exact ⟨hf.record_ids.mpr hrecord, hpruned⟩

theorem Tidy.unseen (hw : Tidy w) (ht : Unseen w.repo t) : Tidy ⟨t, w.holders, w.pruned⟩ := by
  refine hw.frame (ht.frame hw.blobs fun _ => False) (fun o h => h.elim) fun o x ho hx => ?_
  apply hw.holderHeld o x ho
  rw [owners, ht.blobs] at hx
  exact hx

theorem Tidy.idle (hw : Tidy w) (hrows : w.repo.holderRows = []) :
    Tidy ⟨w.repo, [], w.pruned⟩ := by
  refine hw.frame (Frame.refl hw.blobs fun _ => False) (fun _ h => h.elim) fun o x ho hx => ?_
  have hrow : (⟨o, x⟩ : OwnerRow String) ∈ w.repo.holderRows :=
    List.mem_filter.mpr ⟨mem_owners.mp hx, ho⟩
  rw [hrows] at hrow
  cases hrow

theorem Tidy.forget (hw : Tidy w) (hrows : w.repo.holderRows = []) :
    Tidy ⟨w.repo.forgetProcess, [], w.pruned⟩ :=
  (hw.idle hrows).frame (forgetProcess_frame hw.blobs fun _ => False) (fun _ h => h.elim)
    fun o x ho hx => (hw.idle hrows).holderHeld o x ho hx

end Account

section Pending

variable {w : Session} {s t : WriteRepository}

theorem insertPendingBlobs_owned {batchId : ℕ} {runId : String} (hrun : runId ≠ "")
    {inventory : List InventoryEntry}
    (h : inventory.foldlM (fun t blob => insertPendingBlob batchId (some runId) blob t) s = .ok t) :
    ∀ blob ∈ inventory, blob.hash ∈ s.blobs.ownedBy (.run runId) := by
  induction inventory generalizing s with
  | nil => simp
  | cons blob rest ih =>
    rw [List.foldlM_cons] at h
    cases hu : insertPendingBlob batchId (some runId) blob s with
    | error e => simp [hu, bind, Except.bind] at h
    | ok u =>
      simp only [hu, bind, Except.bind] at h
      unfold insertPendingBlob at hu
      split_ifs at hu with howned
      have hhead : blob.hash ∈ s.blobs.ownedBy (.run runId) := by
        simp only [truthy, hrun, if_false, Option.any_some, runOwns] at howned
        simp only [decide_eq_true_eq, not_not] at howned
        exact (by simpa using howned : _ ∧ _).1
      split at hu
      · simp at hu
      · cases hu
        have hrest := ih h
        exact List.forall_mem_cons.mpr ⟨hhead, hrest⟩

/-- The transaction of `recordPending` gives the blobs of the run to the batch. -/
theorem storePending_blobs {batch : FrozenBatch} {candidate : PendingCandidate}
    {inventory : List InventoryEntry} {runId : String} (hrun : runId ≠ "")
    (h : storePending batch candidate inventory (some runId) s = .ok ((), t)) :
    t.blobs = s.blobs.copyOwner (.run runId) (.batch batch.id) ∧
      ∀ blob ∈ inventory, blob.hash ∈ s.blobs.ownedBy (.run runId) := by
  unfold storePending at h
  cases hu : inventory.foldlM (fun t blob => insertPendingBlob batch.id (some runId) blob t)
      { s with pendingBlobs := .empty } with
  | error e => simp [hu, bind, Except.bind] at h
  | ok u =>
    cases hv : claimRunBlobs batch.id candidate.blobCount (some runId) u with
    | error e => simp [hu, hv, bind, Except.bind] at h
    | ok v =>
      simp only [hu, hv, bind, Except.bind, Except.ok.injEq, Prod.mk.injEq, true_and] at h
      subst h
      have howned := insertPendingBlobs_owned hrun hu
      refine ⟨?_, howned⟩
      obtain ⟨pendingBlobs, rfl, -⟩ := insertPendingBlobs_ok hu
      simp only [claimRunBlobs, truthy, hrun, if_false] at hv
      split_ifs at hv
      cases hv
      rfl

/-- The state after the transaction of `recordPending` and the release that belongs to it. -/
theorem Tidy.stored (hw : Tidy w) {batch : FrozenBatch} {build : HashtreeBuild} {runId : String}
    (hrun : runId ≠ "")
    (ht : storePending batch (candidateOf batch build) build.inventory (some runId) w.repo =
      .ok ((), t)) {blobs : BlobStore String Bytes} {own : Owner → Prop}
    (hframe : blobs.SoundUnder List.length (t.blobs.Framed own))
    (hown : ∀ o, own o → ∃ id, o = .batch id ∧ id ≠ batch.id)
    (hbatch : ∀ id x, Owner.batch id ∈ (blobs.view x).owners → id = batch.id) :
    Tidy ⟨{ t with blobs := blobs }, w.holders, w.pruned⟩ := by
  have hstored := storePending_stored ht
  obtain ⟨hblobs, howned⟩ := storePending_blobs hrun ht
  have hmem : ∀ o x, o.isRoute = false → ¬own o → (o ∈ (blobs.view x).owners ↔
      o ∈ w.repo.owners x ∨ o = .batch batch.id ∧ Owner.run runId ∈ w.repo.owners x) := by
    intro o x hroute hnot
    rw [hframe.owner_iff x hroute hnot, hblobs, view_copyOwner]
    rfl
  refine ⟨hframe.custodial, fun r hr => ?_, fun r hr => ?_, fun id x hid => ?_, fun id x hid => ?_,
    fun o x ho hx => ?_, ?_, ?_⟩
  · rw [show ({ t with blobs := blobs } : WriteRepository).pendingBlobs = t.pendingBlobs from rfl,
      hstored.pendingBlobs] at hr
    obtain ⟨blob, hblob, rfl⟩ := List.mem_map.mp hr
    have hnot : ¬own (.batch batch.id) := fun h => by
      obtain ⟨id, hid, hne⟩ := hown _ h
      cases hid
      exact hne rfl
    refine (hmem _ _ rfl hnot).mpr (Or.inr ⟨rfl, ?_⟩)
    exact (w.repo.blobs.mem_ownedBy blob.hash).mp (howned blob hblob)
  · rw [show ({ t with blobs := blobs } : WriteRepository).sagaBlobs = t.sagaBlobs from rfl,
      hstored.sagaBlobs] at hr
    refine (hmem _ _ rfl fun h => ?_).mpr (Or.inl (hw.sagaOwned r hr))
    obtain ⟨id, hid, -⟩ := hown _ h
    cases hid
  · exact ⟨_, hstored.pendingCandidate, (hbatch id x hid).symm⟩
  · have hrecords : ({ t with blobs := blobs } : WriteRepository).records = w.repo.records := by
      simp only [records, hstored.sagas, hstored.history]
    rw [hrecords]
    rcases (hmem _ x rfl fun h => by obtain ⟨_, h, -⟩ := hown _ h; cases h).mp hid with h | ⟨h, -⟩
    · exact hw.sagaHeld id x h
    · cases h
  · have hnot : ¬own o := fun h => by
      obtain ⟨id, rfl, -⟩ := hown _ h
      simp [Owner.isHolder] at ho
    rcases (hmem o x (Owner.isRoute_of_holder ho) hnot).mp hx with h | ⟨rfl, -⟩
    · exact hw.holderHeld o x ho h
    · simp [Owner.isHolder] at ho
  · simp only [hstored.sagas, hstored.history]
    exact hw.apart
  · simp only [hstored.history]
    exact hw.archived

end Pending

section Sagas

variable {w : Session} {s t : WriteRepository}

theorem claimCandidate_blobs {candidate : PendingCandidate} {destinations : List String} {now : ℕ}
    (hs : s.Single)
    (hnewer : ∀ current, s.publicationSaga = some current →
      current.candidate.generation < candidate.generation ∧
        (current.admitted = true ∨ current.signedEvent = none))
    (h : claimCandidate candidate destinations now s = .ok ((), t)) :
    t.blobs = (s.blobs.copyOwner (.batch candidate.batchId)
      (.saga candidate.batchId)).removeOwnerAll (.batch candidate.batchId) := by
  unfold claimCandidate at h
  split at h
  · cases hu : insertSaga candidate destinations s with
    | error e => simp [hu, Except.map] at h
    | ok u =>
      obtain rfl : u = t := by simpa [hu, Except.map] using h
      obtain ⟨_, _, -, -, rfl⟩ := insertSaga_ok hu
      rfl
  · next existing hexisting =>
    obtain ⟨a, hrows, rfl⟩ := hs.publicationSaga hexisting
    obtain ⟨hgeneration, hreplaceable⟩ := hnewer _ hexisting
    have hrep : (a.admitted || a.signedEvent.isNone) = true := by
      rcases hreplaceable with h | h <;> simp_all
    simp only [readSaga_admitted, readSaga_signedEvent, hrep, hgeneration, and_self, if_true,
      readSaga_batchId] at h
    cases hu : insertSaga candidate destinations (s.archiveSaga a.batchId now) with
    | error e => simp [hu, Except.map] at h
    | ok u =>
      obtain rfl : u = t := by simpa [hu, Except.map] using h
      obtain ⟨_, _, -, -, rfl⟩ := insertSaga_ok hu
      rfl

theorem Tidy.claimed (hw : Tidy w) (hs : w.repo.Single) {candidate : PendingCandidate}
    {destinations : List String} {now : ℕ} (hpending : w.repo.pendingCandidate = some candidate)
    (hfresh : ∀ r ∈ w.repo.records, r.batchId ≠ candidate.batchId)
    (hc : Claimed w.repo t candidate destinations now)
    (hblobs : t.blobs = (w.repo.blobs.copyOwner (.batch candidate.batchId)
      (.saga candidate.batchId)).removeOwnerAll (.batch candidate.batchId)) :
    Tidy ⟨t, w.holders, w.pruned⟩ := by
  have hmem : ∀ o x, o ∈ t.owners x ↔ (o ∈ w.repo.owners x ∨ o = .saga candidate.batchId ∧
      Owner.batch candidate.batchId ∈ w.repo.owners x) ∧ o ≠ .batch candidate.batchId := by
    intro o x
    rw [owners, hblobs, view_removeOwnerAll, view_copyOwner]
    rfl
  have hnew : ∃ r ∈ t.records, r.batchId = candidate.batchId :=
    ⟨_, WriteRepository.mem_records.mpr (Or.inl (by rw [hc.sagas]; exact List.mem_singleton.mpr rfl)),
      rfl⟩
  refine ⟨?_, fun r hr => ?_, fun r hr => ?_, fun id x hid => ?_, fun id x hid => ?_,
    fun o x ho hx => ?_, ?_, fun id hid => ?_⟩
  · change t.blobs.Custodial List.length
    rw [hblobs]
    have hcopy := copyOwner_sound hw.blobs (.batch candidate.batchId)
      (routed_adds (o := .saga candidate.batchId) rfl)
    exact removeOwnerAll_sound hcopy rfl (routed_removes _)
  · simp [hc.pendingBlobs] at hr
  · rw [Table.insertAll?_rows hc.sagaBlobs, List.mem_append, List.mem_filter] at hr
    rw [hmem]
    refine ⟨?_, by simp⟩
    rcases hr with hr | ⟨hr, hid⟩
    · exact Or.inl (hw.sagaOwned r hr)
    · have hid : r.batchId = candidate.batchId := by simpa using hid
      rw [hid]
      exact Or.inr ⟨rfl, hid ▸ hw.pendingOwned r hr⟩
  · obtain ⟨h | ⟨h, -⟩, hne⟩ := (hmem _ x).mp hid
    · obtain ⟨c, hcp, hcid⟩ := hw.batchHeld id x h
      obtain rfl : candidate = c := by simpa [hpending] using hcp
      exact absurd (by rw [hcid]) hne
    · cases h
  · obtain ⟨h | ⟨h, -⟩, -⟩ := (hmem _ x).mp hid
    · obtain ⟨⟨r, hr, hrid⟩, hpruned⟩ := hw.sagaHeld id x h
      obtain ⟨r', hr', hid'⟩ := hc.kept hs r hr
      exact ⟨⟨r', hr', hid'.trans hrid⟩, hpruned⟩
    · obtain rfl : id = candidate.batchId := by simpa using h
      refine ⟨hnew, fun hpruned => ?_⟩
      obtain ⟨h, hh, hhid⟩ := hw.archived _ hpruned
      exact hfresh h.saga (WriteRepository.mem_records.mpr (Or.inr ⟨h, hh, rfl⟩)) hhid
  · obtain ⟨h | ⟨rfl, -⟩, -⟩ := (hmem o x).mp hx
    · exact hw.holderHeld o x ho h
    · simp [Owner.isHolder] at ho
  · intro a ha h hh
    obtain rfl : a = freshSaga candidate destinations := by simpa [hc.sagas] using ha
    rcases (hc.mem_history hs).mp hh with ⟨hh, -⟩ | ⟨b, hb, rfl⟩
    · exact hfresh h.saga (WriteRepository.mem_records.mpr (Or.inr ⟨h, hh, rfl⟩))
    · exact hfresh b (WriteRepository.mem_records.mpr (Or.inl hb))
  · obtain ⟨h, hh, rfl⟩ := hw.archived id hid
    exact ⟨h, (hc.mem_history hs).mpr (Or.inl ⟨hh, fun a ha => (hw.apart a ha h hh).symm⟩), rfl⟩

theorem refreshSaga_blobs {saga : SagaRow} {now : ℕ} (h : refreshSaga saga now s = .ok ((), t)) :
    t.blobs = s.blobs.copyOwner (.saga saga.batchId) (.saga (s.maxSagaId + 1)) := by
  unfold refreshSaga at h
  simp only at h
  split at h
  · cases h
    rfl
  · simp at h

theorem Tidy.refreshed (hw : Tidy w) {a : SagaRow} {now : ℕ} (hrows : w.repo.sagas.rows = [a])
    (hc : Refreshed w.repo t a now)
    (hblobs : t.blobs = w.repo.blobs.copyOwner (.saga a.batchId)
      (.saga (w.repo.maxSagaId + 1))) : Tidy ⟨t, w.holders, w.pruned⟩ := by
  have hmem : ∀ o x, o ∈ t.owners x ↔ o ∈ w.repo.owners x ∨
      o = .saga (w.repo.maxSagaId + 1) ∧ Owner.saga a.batchId ∈ w.repo.owners x := by
    intro o x
    rw [owners, hblobs, view_copyOwner]
    rfl
  have hunused : ∀ r ∈ w.repo.records, r.batchId ≠ w.repo.maxSagaId + 1 := by
    intro r hr hid
    have := le_maxSagaId hr
    omega
  refine ⟨?_, fun r hr => ?_, fun r hr => ?_, fun id x hid => ?_, fun id x hid => ?_,
    fun o x ho hx => ?_, ?_, fun id hid => ?_⟩
  · change t.blobs.Custodial List.length
    rw [hblobs]
    exact copyOwner_sound hw.blobs _ (routed_adds rfl)
  · rw [hc.pendingBlobs] at hr
    exact (hmem _ _).mpr (Or.inl (hw.pendingOwned r hr))
  · rw [hc.sagaBlobs, List.mem_filter, List.mem_append] at hr
    obtain ⟨hr | hr, -⟩ := hr
    · exact (hmem _ _).mpr (Or.inl (hw.sagaOwned r hr))
    · obtain ⟨q, hq, rfl⟩ := List.mem_map.mp hr
      obtain ⟨hq, hqid⟩ := List.mem_filter.mp hq
      refine (hmem _ _).mpr (Or.inr ⟨rfl, ?_⟩)
      have hqid : q.batchId = a.batchId := by simpa using hqid
      exact hqid ▸ hw.sagaOwned q hq
  · rcases (hmem _ x).mp hid with h | ⟨h, -⟩
    · obtain ⟨c, hcp, hcid⟩ := hw.batchHeld id x h
      exact ⟨c, hc.pendingCandidate.trans hcp, hcid⟩
    · cases h
  · rcases (hmem _ x).mp hid with h | ⟨h, -⟩
    · obtain ⟨⟨r, hr, hrid⟩, hpruned⟩ := hw.sagaHeld id x h
      obtain ⟨r', hr', hid'⟩ := hc.kept hrows r hr
      exact ⟨⟨r', hr', hid'.trans hrid⟩, hpruned⟩
    · obtain rfl : id = w.repo.maxSagaId + 1 := by simpa using h
      refine ⟨⟨refreshedSaga (readSaga a) (w.repo.maxSagaId + 1),
        WriteRepository.mem_records.mpr (Or.inl ?_), rfl⟩, fun hpruned => ?_⟩
      · rw [hc.sagas]
        exact List.mem_singleton.mpr rfl
      · obtain ⟨h, hh, hhid⟩ := hw.archived _ hpruned
        exact hunused h.saga (WriteRepository.mem_records.mpr (Or.inr ⟨h, hh, rfl⟩)) hhid
  · rcases (hmem o x).mp hx with h | ⟨rfl, -⟩
    · exact hw.holderHeld o x ho h
    · simp [Owner.isHolder] at ho
  · intro b hb h hh
    obtain rfl : b = refreshedSaga (readSaga a) (w.repo.maxSagaId + 1) := by
      simpa [hc.sagas] using hb
    rcases hc.mem_history.mp hh with hh | ⟨rfl, -⟩
    · exact hunused h.saga (WriteRepository.mem_records.mpr (Or.inr ⟨h, hh, rfl⟩))
    · exact hunused a (WriteRepository.mem_records.mpr (Or.inl (by simp [hrows])))
  · obtain ⟨h, hh, rfl⟩ := hw.archived id hid
    exact ⟨h, hc.mem_history.mpr (Or.inl hh), rfl⟩

end Sagas

section Pruning

variable {w : Session} {s t u : WriteRepository}

def givenUp (ids : List ℕ) (o : Owner) : Prop :=
  ∃ id ∈ ids, o = .saga id

theorem mem_releasable {id : ℕ} : id ∈ s.releasable ↔
    (∃ h ∈ s.history.rows, h.batchId = id) ∧
      ∀ work ∈ s.endpointWork.rows, work.batchId = id → work.status ≠ .complete →
        work.status = .exhausted := by
  simp only [releasable, List.mem_map, List.mem_filter]
  constructor
  · rintro ⟨h, ⟨hh, hwork⟩, rfl⟩
    exact ⟨⟨h, hh, rfl⟩, by simpa using hwork⟩
  · rintro ⟨⟨h, hh, rfl⟩, hwork⟩
    exact ⟨h, ⟨hh, by simpa using hwork⟩, rfl⟩

theorem mem_releasable_pruneRows {id : ℕ} : id ∈ s.pruneRows.releasable ↔ id ∈ s.releasable := by
  rw [mem_releasable, mem_releasable]
  refine and_congr_right fun hid => ⟨fun h work hwork hwid => ?_, fun h work hwork hwid => ?_⟩
  · by_cases hin : id ∈ s.releasable
    · exact (mem_releasable.mp hin).2 work hwork hwid
    · refine h work (List.mem_filter.mpr ⟨hwork, ?_⟩) hwid
      rw [hwid]
      simpa using hin
  · exact h work (List.mem_filter.mp hwork).1 hwid

variable (fails : String → Option String) (now : ℕ)

def releaseSagas (ids : List ℕ) : RepositoryProgram Unit :=
  Program.forEach ids fun batchId => onBlobs (BlobStore.releaseOwner fails now (.saga batchId))

theorem pruneAdmitted_run (s : WriteRepository) : (pruneAdmitted fails now).run s =
    if s.admittedGeneration = 0 then ⟨[], .ok ()⟩
    else
      let o := (releaseSagas fails now s.releasable).run s.pruneRows
      ⟨s.pruneRows :: o.commits, o.result⟩ := by
  rw [pruneAdmitted, Program.bind_read_run]
  split_ifs
  · rfl
  · rw [Program.bind_commit_run]
    rfl

theorem releaseSagas_triple (hs : s.blobs.Custodial List.length) (ids : List ℕ) :
    Triple (fun t => t = s) (releaseSagas fails now ids)
      (fun t => ∃ b : BlobStore String Bytes, t = { s with blobs := b } ∧
        b.SoundUnder List.length (s.blobs.Framed (givenUp ids)))
      fun _ t => ∃ b : BlobStore String Bytes, t = { s with blobs := b } ∧
        b.SoundUnder List.length (s.blobs.Framed (givenUp ids)) ∧
        ∀ id ∈ ids, ∀ x, Owner.saga id ∉ (b.view x).owners := by
  have hloop := Triple.forEach
    (f := fun batchId => onBlobs (BlobStore.releaseOwner fails now (.saga batchId)))
    (I := fun t => ∃ b : BlobStore String Bytes, t = { s with blobs := b } ∧
      b.SoundUnder List.length (s.blobs.Framed (givenUp ids)))
    (J := fun rest t => ∃ b : BlobStore String Bytes, t = { s with blobs := b } ∧
      (∀ id ∈ rest, id ∈ ids) ∧ b.SoundUnder List.length (s.blobs.Framed (givenUp ids)) ∧
      ∀ id ∈ ids, id ∉ rest → ∀ x, Owner.saga id ∉ (b.view x).owners) ?_ ids
  · refine hloop.mono ?_ (fun t ht => ht) ?_
    · rintro t rfl
      exact ⟨t.blobs, rfl, fun id hid => hid, hs.framed _, fun id hid hnot => absurd hid hnot⟩
    · rintro _ t ⟨b, rfl, -, hb, hreleased⟩
      exact ⟨b, rfl, hb, fun id hid => hreleased id hid (by simp)⟩
  · rintro id rest t ⟨b, rfl, hsub, hb, hreleased⟩
    have hid := hsub id List.mem_cons_self
    have hframe : ∀ c : BlobStore String Bytes,
        c.SoundUnder List.length (b.Framed (· = .saga id)) →
          c.SoundUnder List.length (s.blobs.Framed (givenUp ids)) := fun c hc =>
      hb.frame_trans hc fun o ho => ⟨id, hid, ho⟩
    obtain ⟨hcommits, hresult⟩ := onBlobs_triple
      (releaseOwner_released (o := .saga id) hb.custodial rfl fails now) s _ ⟨b, rfl, rfl⟩
    refine ⟨fun t ht => ?_, fun a ha => ?_⟩
    · obtain ⟨c, rfl, hc, -⟩ := hcommits t ht
      exact ⟨c, rfl, hframe c hc⟩
    · obtain ⟨c, hfinal, hc, hgone⟩ := hresult a ha
      refine ⟨c, hfinal, fun other hother => hsub other (List.mem_cons_of_mem _ hother), hframe c hc,
        fun other hother hnot x => ?_⟩
      by_cases heq : other = id
      · rw [heq]
        exact hgone x
      · have hne : ¬Owner.saga other = Owner.saga id := by simpa using heq
        rw [hc.owner_iff x rfl hne]
        exact hreleased other hother (by simp [heq, hnot]) x

theorem releaseSagas_returns (ids : List ℕ) :
    Returns (fun t => t.blobs.Custodial List.length) (releaseSagas fails now ids) :=
  Returns.forEach
    (fun _ _ => onBlobs_preserves (releaseOwner_custodial rfl fails now))
    fun _ _ => onBlobs_returns (releaseOwner_returns rfl fails now)

theorem Tidy.prune (hw : Tidy w) (hu : Unseen w.repo u) {b : BlobStore String Bytes}
    (hb : b.SoundUnder List.length (u.blobs.Framed (givenUp u.releasable)))
    (hgone : ∀ id ∈ u.releasable, ∀ x, Owner.saga id ∉ (b.view x).owners) {pruned : List ℕ}
    (hpruned : ∀ id, id ∈ pruned ↔ id ∈ u.releasable) :
    Tidy ⟨{ u.pruneRows with blobs := b }, w.holders, w.pruned ++ pruned⟩ := by
  have hw := hw.unseen hu
  have hkeep : ∀ o x, o.isRoute = false → ¬givenUp u.releasable o →
      (o ∈ (b.view x).owners ↔ o ∈ u.owners x) := fun o x => hb.owner_iff x
  refine ⟨hb.custodial, fun r hr => ?_, fun r hr => ?_, fun id x hid => ?_, fun id x hid => ?_,
    fun o x ho hx => ?_, hw.apart, fun id hid => ?_⟩
  · refine (hkeep _ _ rfl ?_).mpr (hw.pendingOwned r hr)
    rintro ⟨_, -, h⟩
    cases h
  · obtain ⟨hr, hnot⟩ := List.mem_filter.mp hr
    refine (hkeep _ _ rfl ?_).mpr (hw.sagaOwned r hr)
    rintro ⟨id, hid, h⟩
    obtain rfl : r.batchId = id := by simpa using h
    simp [hid] at hnot
  · refine hw.batchHeld id x ((hkeep _ _ rfl ?_).mp hid)
    rintro ⟨_, -, h⟩
    cases h
  · have hnot : id ∉ u.releasable := fun h => hgone id h x hid
    obtain ⟨hrecord, hnotPruned⟩ := hw.sagaHeld id x ((hkeep _ _ rfl (by
      rintro ⟨other, hother, h⟩
      obtain rfl : id = other := by simpa using h
      exact hnot hother)).mp hid)
    refine ⟨hrecord, fun h => ?_⟩
    rcases List.mem_append.mp h with h | h
    · exact hnotPruned h
    · exact hnot ((hpruned id).mp h)
  · refine hw.holderHeld o x ho ((hkeep o x (Owner.isRoute_of_holder ho) ?_).mp hx)
    rintro ⟨_, -, rfl⟩
    simp [Owner.isHolder] at ho
  · rcases List.mem_append.mp hid with hid | hid
    · exact hw.archived id hid
    · exact (mem_releasable.mp ((hpruned id).mp hid)).1

end Pruning

section Steps

variable {digest : Bytes → String} {acceptable : RawPublication → Bool} {w : Session}
  {l : RepositoryLabel} {s t : WriteRepository}

theorem reached_eq (l : RepositoryLabel) (s : WriteRepository) : l.reached digest acceptable s =
    (((l.program digest acceptable).run s).commits.take (l.taken digest acceptable s)).getLastD s := by
  unfold RepositoryLabel.reached RepositoryLabel.taken
  cases l.stop with
  | none => simp only [List.take_length, Outcome.final]
  | some k =>
    simp only [Outcome.crash]
    rcases le_total k ((l.program digest acceptable).run s).commits.length with h | h
    · rw [min_eq_left h]
    · rw [min_eq_right h, List.take_length, List.take_of_length_le h]

theorem reached_mem (digest : Bytes → String) (acceptable : RawPublication → Bool)
    (l : RepositoryLabel) (s : WriteRepository) :
    l.reached digest acceptable s = s ∨
      l.reached digest acceptable s ∈ ((l.program digest acceptable).run s).commits := by
  unfold RepositoryLabel.reached
  split
  · exact Outcome.final_mem _ s
  · exact Outcome.crash_mem _ s _

theorem reached_of_commits {R : WriteRepository → Prop} (hs : R s)
    (h : ∀ t ∈ ((l.program digest acceptable).run s).commits, R t) :
    R (l.reached digest acceptable s) := by
  rcases reached_mem digest acceptable l s with heq | hmem
  · rwa [heq]
  · exact h _ hmem

theorem Tidy.still (hw : Tidy w) (h : Advances Unseen (l.program digest acceptable)) :
    Tidy ⟨l.reached digest acceptable w.repo, w.holders, w.pruned⟩ :=
  hw.unseen (reached_of_commits (.refl w.repo) (commits_unseen h w.repo))

theorem Tidy.blob (hw : Tidy w) {op : BlobOp String Bytes} (hop : l.op = .staging (.blob op))
    (hholders : ∀ o ∈ op.named, o.isHolder = true)
    (hallowed : Allowed digest List.length w.repo.blobs ⟨op, l.now, l.fails, none⟩) :
    Tidy ⟨l.reached digest acceptable w.repo, w.holders ++ op.named, w.pruned⟩ := by
  have hframe : Frame w.repo (· ∈ op.named) (l.reached digest acceptable w.repo) := by
    refine reached_of_commits (Frame.refl hw.blobs _) fun t ht => ?_
    rw [RepositoryLabel.program, hop] at ht
    obtain ⟨b, hb, rfl⟩ := List.mem_map.mp ht
    exact Frame.onBlobs (program_framed hw.blobs hallowed hholders b hb)
  refine hw.frame hframe hholders fun o x ho hx => ?_
  by_cases hnamed : o ∈ op.named
  · exact List.mem_append_right _ hnamed
  · refine List.mem_append_left _ (hw.holderHeld o x ho ?_)
    exact (hframe.blobs.owner_iff x (Owner.isRoute_of_holder ho) hnamed).mp hx

theorem reopen_framed (hs : s.blobs.Custodial List.length)
    (htombs : ∀ t ∈ s.blobs.db.tombstones.rows, s.blobs.dropLeases.live t.hash = false)
    (fails retries : String → Option String) (now : ℕ) :
    ∀ t ∈ ((reopen digest fails retries now).run s).commits, Frame s (fun _ => False) t := by
  have hforget := forgetProcess_frame hs fun _ => False
  have hblobs : Triple (fun t => t = s.forgetProcess)
      (onBlobs (BlobStore.reconcile digest List.length fails retries now))
      (Frame s fun _ => False) fun _ => Frame s fun _ => False := by
    have hreconcile : Triple (fun b => b.SoundUnder List.length
          (s.forgetProcess.blobs.Framed fun _ => False) ∧
          ∀ t ∈ b.db.tombstones.rows, b.live t.hash = false)
        (BlobStore.reconcile digest List.length fails retries now)
        (SoundUnder List.length (s.forgetProcess.blobs.Framed fun _ => False))
        fun _ => SoundUnder List.length (s.forgetProcess.blobs.Framed fun _ => False) :=
      reconcile_sound fails now digest retries
    have hframe : ∀ t : WriteRepository, (∃ b : BlobStore String Bytes,
        t = { s.forgetProcess with blobs := b } ∧
          b.SoundUnder List.length (s.forgetProcess.blobs.Framed fun _ => False)) →
        Frame s (fun _ => False) t := by
      rintro t ⟨b, rfl, hb⟩
      exact hforget.trans (Frame.onBlobs hb) fun _ h => h
    refine (onBlobs_triple hreconcile s.forgetProcess).mono ?_ hframe fun _ => hframe
    rintro t rfl
    exact ⟨_, rfl, hforget.blobs.custodial.framed _, htombs⟩
  have hactivate : Preserves (Frame s fun _ => False)
      (Program.commit activateRows : RepositoryProgram Unit) :=
    Preserves.commit fun t ht =>
      ⟨ht.pendingCandidate, ht.pendingBlobs, ht.sagaBlobs, ht.sagas, ht.history, ht.blobs⟩
  have hprogram : Triple (fun t => t = s) (reopen digest fails retries now)
      (Frame s fun _ => False) fun _ => Frame s fun _ => False := by
    refine Triple.bind (R := fun _ t => t = s.forgetProcess) ?_ fun _ =>
      Triple.bind hblobs fun _ => hactivate
    refine Triple.commit ?_ ?_
    · rintro t rfl
      exact hforget
    · rintro t rfl
      rfl
  exact (hprogram s rfl).1

theorem Tidy.reopen (hw : Tidy w) {retries : String → Option String} (hop : l.op = .reopen retries)
    (htombs : ∀ t ∈ w.repo.blobs.db.tombstones.rows, w.repo.blobs.dropLeases.live t.hash = false) :
    Tidy ⟨l.reached digest acceptable w.repo, w.holders, w.pruned⟩ := by
  have hframe : Frame w.repo (fun _ => False) (l.reached digest acceptable w.repo) := by
    refine reached_of_commits (Frame.refl hw.blobs _) fun t ht => ?_
    rw [RepositoryLabel.program, hop] at ht
    exact reopen_framed hw.blobs htombs l.fails retries l.now t ht
  refine hw.frame hframe (fun o h => h.elim) fun o x ho hx => hw.holderHeld o x ho ?_
  exact (hframe.blobs.owner_iff x (Owner.isRoute_of_holder ho) id).mp hx

theorem recordPending_commits (fails : String → Option String) (now : ℕ) {batch : FrozenBatch}
    {candidate : PendingCandidate} {inventory : List InventoryEntry} {runId : Option String}
    (ht : storePending batch candidate inventory runId s = .ok ((), t)) :
    ((recordPending fails now batch candidate inventory runId).run s).commits =
      t :: match s.pendingCandidate with
        | none => []
        | some c => if c.batchId = batch.id then []
          else ((onBlobs (BlobStore.releaseOwner fails now (.batch c.batchId))).run t).commits := by
  rw [recordPending, Program.bind_read_run,
    Program.bind_run_ok (by rw [Program.transaction_run_ok ht])]
  rw [Program.transaction_run_ok ht]
  cases s.pendingCandidate with
  | none => rfl
  | some c =>
    simp only [List.singleton_append, List.cons.injEq, true_and]
    split_ifs
    · rfl
    · rfl

theorem Tidy.record (hw : Tidy w) {batch : FrozenBatch} {build : HashtreeBuild}
    (hop : l.op = .batch (.recordPending batch build)) (hrun : build.runId.any (· ≠ "") = true)
    (hstop : l.stop = some 1 → ∀ c, w.repo.pendingCandidate = some c → c.batchId = batch.id) :
    Tidy ⟨l.reached digest acceptable w.repo, w.holders, w.pruned⟩ := by
  obtain ⟨runId, hrunId, hne⟩ := (Option.any_eq_true _ _).mp hrun
  have hne : runId ≠ "" := by simpa using hne
  have hprogram : l.program digest acceptable =
      recordPending l.fails l.now batch (candidateOf batch build) build.inventory (some runId) := by
    rw [RepositoryLabel.program, hop, ← hrunId]
    rfl
  cases ht : storePending batch (candidateOf batch build) build.inventory (some runId) w.repo with
  | error e =>
    have hcommits : ((l.program digest acceptable).run w.repo).commits = [] := by
      rw [hprogram, recordPending, Program.bind_read_run,
        Program.bind_run_error (by rw [Program.transaction_run_error ht])]
      rw [Program.transaction_run_error ht]
    rw [reached_eq, hcommits, List.take_nil, List.getLastD_nil]
    exact hw
  | ok r =>
    obtain ⟨⟨⟩, t⟩ := r
    have hcommits := recordPending_commits l.fails l.now ht
    rw [← hprogram] at hcommits
    obtain ⟨hblobs, -⟩ := storePending_blobs hne ht
    have hcustodial : t.blobs.Custodial List.length := by
      rw [hblobs]
      exact copyOwner_sound hw.blobs _ (routed_adds rfl)
    have hbatches : ∀ id x, Owner.batch id ∈ t.owners x →
        id = batch.id ∨ ∃ c, w.repo.pendingCandidate = some c ∧ c.batchId = id := by
      intro id x hid
      rw [owners, hblobs, view_copyOwner] at hid
      rcases hid with hid | ⟨hid, -⟩
      · exact Or.inr (hw.batchHeld id x hid)
      · exact Or.inl (by simpa using hid)
    by_cases hsame : ∀ c, w.repo.pendingCandidate = some c → c.batchId = batch.id
    · -- nothing is released
      have hone : ((l.program digest acceptable).run w.repo).commits = [t] := by
        rw [hcommits]
        cases hpending : w.repo.pendingCandidate with
        | none => rfl
        | some c => simp [hsame c hpending]
      refine reached_of_commits (R := fun u => Tidy ⟨u, w.holders, w.pruned⟩) hw fun u hu => ?_
      obtain rfl : u = t := by simpa [hone] using hu
      refine hw.stored hne ht (hcustodial.framed fun _ => False) (fun o h => h.elim)
        fun id x hid => ?_
      rcases hbatches id x hid with h | ⟨c, hc, rfl⟩
      · exact h
      · exact hsame c hc
    · push Not at hsame
      obtain ⟨c, hc, hcid⟩ := hsame
      have hrest : ((l.program digest acceptable).run w.repo).commits = t ::
          ((onBlobs (BlobStore.releaseOwner l.fails l.now (.batch c.batchId))).run t).commits := by
        rw [hcommits, hc]
        simp [hcid]
      have hreleased : ∀ u ∈ ((onBlobs (BlobStore.releaseOwner l.fails l.now
          (.batch c.batchId))).run t).commits, Tidy ⟨u, w.holders, w.pruned⟩ := by
        intro u hu
        obtain ⟨b, hb, rfl⟩ := List.mem_map.mp hu
        obtain ⟨hframe, hgone⟩ := (releaseOwner_released (o := .batch c.batchId) hcustodial rfl
          l.fails l.now t.blobs rfl).1 b hb
        refine hw.stored hne ht hframe (fun o ho => ⟨c.batchId, ho, hcid⟩) fun id x hid => ?_
        have hidc : id ≠ c.batchId := by
          rintro rfl
          exact hgone x hid
        rcases hbatches id x ((hframe.owner_iff x rfl (by simpa using hidc)).mp hid) with
          h | ⟨c', hc', rfl⟩
        · exact h
        · rw [hc] at hc'
          cases hc'
          exact absurd rfl hidc
      have hne' : ((onBlobs (BlobStore.releaseOwner l.fails l.now
          (.batch c.batchId))).run t).commits ≠ [] := by
        simp [onBlobs, BlobStore.releaseOwner, Program.bind_read_run, Program.bind_commit_run]
      rw [reached_eq, RepositoryLabel.taken, hrest]
      generalize ((onBlobs (BlobStore.releaseOwner l.fails l.now
          (.batch c.batchId))).run t).commits = rest at hreleased hne'
      obtain ⟨u, rest, rfl⟩ := List.exists_cons_of_ne_nil hne'
      have hlast : ∀ k, Tidy ⟨((t :: u :: rest).take (k + 2)).getLastD w.repo, w.holders, w.pruned⟩ := by
        intro k
        refine hreleased _ ?_
        rw [List.take_succ_cons, List.take_succ_cons, List.getLastD_cons, List.getLastD_cons]
        rcases List.mem_cons.mp (List.getLastD_mem_cons (l := rest.take k) (a := u)) with h | h
        · rw [h]
          exact List.mem_cons_self
        · exact List.mem_cons_of_mem _ (List.mem_of_mem_take h)
      cases hk : l.stop with
      | none => exact hlast rest.length
      | some k =>
        obtain rfl | rfl | ⟨k, rfl⟩ : k = 0 ∨ k = 1 ∨ ∃ n, k = n + 2 := by
          rcases Nat.lt_or_ge k 2 with hlt | hle
          · omega
          · exact Or.inr (Or.inr (Nat.exists_eq_add_of_le' hle))
        · simpa using hw
        · exact absurd (hstop hk c hc) hcid
        · have hmin : min (k + 2) (t :: u :: rest).length = min k rest.length + 2 := by
            simp only [List.length_cons]
            omega
          simp only [hmin]
          exact hlast _

theorem Unseen.single (h : Unseen s t) (hs : s.Single) : t.Single := by
  have hlength := congrArg List.length h.sagas
  simp only [List.length_map] at hlength
  unfold Single at *
  omega

def FreshCandidate (s : WriteRepository) : Prop :=
  ∀ c, s.pendingCandidate = some c → ∀ r ∈ s.records, r.batchId ≠ c.batchId

theorem Unseen.freshCandidate (h : Unseen s t) (hs : s.FreshCandidate) : t.FreshCandidate := by
  intro c hc r hr hid
  rw [h.pendingCandidate] at hc
  obtain ⟨q, hq, hqid⟩ : ∃ q ∈ s.records, q.batchId = c.batchId := by
    rw [WriteRepository.record_ids, ← h.sagas, ← h.history, ← WriteRepository.record_ids]
    exact ⟨r, hr, hid⟩
  exact hs c hc q hq hqid

theorem Tidy.claim (hw : Tidy w) (hsingle : w.repo.Single) {destinations : List String}
    (hop : l.op = .saga (.claimPublication destinations)) (hfresh : w.repo.FreshCandidate) :
    Tidy ⟨l.reached digest acceptable w.repo, w.holders, w.pruned⟩ := by
  refine reached_of_commits (R := fun u => Tidy ⟨u, w.holders, w.pruned⟩) hw fun t ht => ?_
  rw [RepositoryLabel.program, hop] at ht
  have hmoves := advances_discarded (claimPublication_advances l.now destinations) w.repo t ht
  suffices h : t.Single ∧ t.FreshCandidate ∧ Tidy ⟨t, w.holders, w.pruned⟩ from h.2.2
  clear ht
  induction hmoves with
  | refl => exact ⟨hsingle, hfresh, hw⟩
  | tail _ hmove ih =>
    obtain ⟨hs, hf, htidy⟩ := ih
    cases hmove with
    | adopt hcurrent hunset hprior hserver =>
      exact ⟨(adoptServer_unseen _ _ _).single hs, (adoptServer_unseen _ _ _).freshCandidate hf,
        htidy.unseen (adoptServer_unseen _ _ _)⟩
    | claim hpending hnewer h =>
      have hclaimed := claimCandidate_claimed hs hnewer h
      refine ⟨by simp [Single, hclaimed.sagas], fun c hc => ?_, ?_⟩
      · simp [hclaimed.pendingCandidate] at hc
      · exact htidy.claimed hs hpending (hf _ hpending) hclaimed (claimCandidate_blobs hs hnewer h)

theorem Tidy.refresh (hw : Tidy w) (hsingle : w.repo.Single) {lead : ℕ}
    (hop : l.op = .saga (.beginPublicationRefresh lead)) :
    Tidy ⟨l.reached digest acceptable w.repo, w.holders, w.pruned⟩ := by
  refine reached_of_commits (R := fun u => Tidy ⟨u, w.holders, w.pruned⟩) hw fun t ht => ?_
  rw [RepositoryLabel.program, hop] at ht
  have hmoves := advances_discarded (beginPublicationRefresh_advances l.now lead) w.repo t ht
  suffices h : t.Single ∧ Tidy ⟨t, w.holders, w.pruned⟩ from h.2
  clear ht
  induction hmoves with
  | refl => exact ⟨hsingle, hw⟩
  | tail _ hmove ih =>
    obtain ⟨hs, htidy⟩ := ih
    obtain ⟨hsaga, h⟩ := hmove
    obtain ⟨a, hrows, rfl⟩ := hs.publicationSaga (Option.filter_eq_some_iff.mp hsaga).1
    have hrefreshed := refreshSaga_refreshed hrows h
    refine ⟨by simp [Single, hrefreshed.sagas], htidy.refreshed hrows hrefreshed ?_⟩
    rw [refreshSaga_blobs h, readSaga_batchId]

theorem prune_commits (acceptable : RawPublication → Bool) (fails : String → Option String) (now : ℕ)
    {op : SagaOp} {n : ℕ} (hop : op.pruneAt = some n) (s : WriteRepository) :
    ((sagaProgram acceptable fails now op).run s).commits = [] ∨ ∃ before u,
      before.length + 1 = n ∧ (∀ v ∈ before, Unseen s v) ∧ Unseen s u ∧ before.getLastD s = u ∧
      ((sagaProgram acceptable fails now op).run s).commits =
        before ++ ((pruneAdmitted fails now).run u).commits := by
  cases op with
  | markPublicationAdmitted batchId =>
    obtain rfl : 3 = n := by simpa [SagaOp.pruneAt] using hop
    simp only [sagaProgram, markPublicationAdmitted, Program.bind_read_run]
    cases hsaga : s.publicationSaga with
    | none => exact Or.inl rfl
    | some saga =>
      simp only
      split_ifs with hcommitted
      · exact Or.inl rfl
      · rw [Program.bind_commit_run, Program.bind_commit_run]
        have hfirst :=
          (updateSaga_silent s batchId (fun r => { r with admitted := true }) fun _ => rfl).toUnseen
        have hsecond := hfirst.trans (u := { s.updateSaga batchId (fun r =>
          { r with admitted := true }) fun _ => rfl with
            admittedGeneration := max s.admittedGeneration saga.candidate.generation })
          ⟨rfl, rfl, rfl, rfl, rfl, rfl⟩
        refine Or.inr ⟨[_, _], _, rfl, ?_, hsecond, rfl, rfl⟩
        simp only [List.mem_cons, List.not_mem_nil, or_false, forall_eq_or_imp, forall_eq]
        exact ⟨hfirst, hsecond⟩
  | releaseGeneration generation =>
    obtain rfl : 2 = n := by simpa [SagaOp.pruneAt] using hop
    simp only [sagaProgram, releaseGeneration]
    rw [Program.bind_commit_run]
    have hfirst : Unseen s { s with generationLeases := s.generationLeases.erase generation } :=
      ⟨rfl, rfl, rfl, rfl, rfl, rfl⟩
    refine Or.inr ⟨[_], _, rfl, ?_, hfirst, rfl, rfl⟩
    simp only [List.mem_singleton, forall_eq]
    exact hfirst
  | _ => simp [SagaOp.pruneAt] at hop

theorem not_prunes (hop : l.op.pruneAt = none) (s : WriteRepository) :
    l.prunes digest acceptable s = false := by
  rw [RepositoryLabel.prunes, hop]
  rfl

theorem Tidy.admitted (hw : Tidy w) {op : SagaOp} {n : ℕ} (hop : l.op = .saga op)
    (hn : op.pruneAt = some n)
    (hreleased : l.stop.isSome = true → l.prunes digest acceptable w.repo = true →
      ∀ id ∈ (l.reached digest acceptable w.repo).releasable,
        (l.reached digest acceptable w.repo).blobs.ownedBy (.saga id) = []) :
    Tidy ⟨l.reached digest acceptable w.repo, w.holders, w.pruned ++
      if l.prunes digest acceptable w.repo then
        (l.reached digest acceptable w.repo).releasable
      else []⟩ := by
  have hprogram : l.program digest acceptable = sagaProgram acceptable l.fails l.now op := by
    rw [RepositoryLabel.program, hop]
  have hprunes : l.prunes digest acceptable w.repo = decide (n ≤ l.taken digest acceptable w.repo) := by
    rw [RepositoryLabel.prunes, hop, RepositoryOp.pruneAt, hn, Option.any_some]
  have htaken : l.taken digest acceptable w.repo ≤
      ((l.program digest acceptable).run w.repo).commits.length := by
    unfold RepositoryLabel.taken
    split
    · exact le_rfl
    · exact min_le_right _ _
  rcases prune_commits acceptable l.fails l.now hn w.repo with
    hnone | ⟨before, u, hlength, hbefore, hu, hlast, hcommits⟩
  · rw [← hprogram] at hnone
    have hreached : l.reached digest acceptable w.repo = w.repo := by
      rw [reached_eq, hnone, List.take_nil, List.getLastD_nil]
    have hzero : l.prunes digest acceptable w.repo = false := by
      have hpos : 0 < n := by
        cases op <;> simp [SagaOp.pruneAt] at hn <;> omega
      rw [hprunes, decide_eq_false_iff_not]
      rw [hnone, List.length_nil] at htaken
      omega
    simpa [hzero, hreached] using hw
  · rw [← hprogram] at hcommits
    by_cases hpruned : n ≤ l.taken digest acceptable w.repo
    · -- the pruning transaction has been committed
      have hadmitted : u.admittedGeneration ≠ 0 := by
        intro hzero
        rw [hcommits, pruneAdmitted_run, if_pos hzero, List.append_nil] at htaken
        omega
      have hrun := pruneAdmitted_run l.fails l.now u
      rw [if_neg hadmitted] at hrun
      rw [hrun] at hcommits
      have hcustodial : u.pruneRows.blobs.Custodial List.length := by
        change u.blobs.Custodial List.length
        rw [hu.blobs]
        exact hw.blobs
      obtain ⟨hloop, hfinal⟩ :=
        releaseSagas_triple l.fails l.now hcustodial u.releasable u.pruneRows rfl
      obtain ⟨j, hj⟩ : ∃ j, l.reached digest acceptable w.repo =
          ((releaseSagas l.fails l.now u.releasable).run u.pruneRows).crash u.pruneRows j ∧
            (l.stop = none → ((releaseSagas l.fails l.now u.releasable).run
              u.pruneRows).commits.length ≤ j) := by
        refine ⟨l.taken digest acceptable w.repo - n, ?_, fun hstop => ?_⟩
        · rw [reached_eq, hcommits, List.take_append, List.take_of_length_le (by omega)]
          obtain ⟨j, hj⟩ : ∃ j, l.taken digest acceptable w.repo - before.length = j + 1 :=
            ⟨l.taken digest acceptable w.repo - n, by omega⟩
          have hjn : l.taken digest acceptable w.repo - n = j := by omega
          rw [hj, hjn, List.take_succ_cons, Program.final_append, List.getLastD_cons]
          rfl
        · rw [RepositoryLabel.taken, hstop, hcommits]
          simp only [List.length_append, List.length_cons]
          omega
      obtain ⟨hreached, hcomplete⟩ := hj
      obtain ⟨b, hb, hsound⟩ : ∃ b : BlobStore String Bytes,
          l.reached digest acceptable w.repo = { u.pruneRows with blobs := b } ∧
            b.SoundUnder List.length (u.pruneRows.blobs.Framed (givenUp u.releasable)) := by
        rw [hreached]
        rcases Outcome.crash_mem ((releaseSagas l.fails l.now u.releasable).run u.pruneRows)
          u.pruneRows j with h | h
        · rw [h]
          exact ⟨u.pruneRows.blobs, rfl, hcustodial.framed _⟩
        · exact hloop _ h
      have hids : ∀ id, id ∈ (l.reached digest acceptable w.repo).releasable ↔
          id ∈ u.releasable := by
        intro id
        rw [hb, ← mem_releasable_pruneRows (s := u), mem_releasable, mem_releasable]
      have hgone : ∀ id ∈ u.releasable, ∀ x, Owner.saga id ∉ (b.view x).owners := by
        intro id hid x hx
        cases hstop : l.stop with
        | some k =>
          have hempty := hreleased (by simp [hstop]) (by simpa [hprunes] using hpruned) id
            ((hids id).mpr hid)
          rw [hb] at hempty
          have hmem := (b.mem_ownedBy x).mpr hx
          change x ∈ ({ u.pruneRows with blobs := b } : WriteRepository).blobs.ownedBy _ at hmem
          rw [hempty] at hmem
          cases hmem
        | none =>
          obtain ⟨a, ha⟩ := releaseSagas_returns l.fails l.now u.releasable u.pruneRows hcustodial
          obtain ⟨c, hc, -, hgone⟩ := hfinal a ha
          rw [Outcome.crash, List.take_of_length_le (hcomplete hstop)] at hreached
          have hbc : b = c := by
            have heq := hb.symm.trans (hreached.trans hc)
            exact congrArg WriteRepository.blobs heq
          exact hgone id hid x (hbc ▸ hx)
      rw [hprunes, decide_eq_true hpruned, if_pos rfl]
      have htidy := hw.prune hu hsound hgone hids
      rw [← hb] at htidy
      exact htidy
    · -- the stop comes before it
      have hreached : Unseen w.repo (l.reached digest acceptable w.repo) := by
        rw [reached_eq, hcommits, List.take_append_of_le_length (by omega)]
        cases htake : before.take (l.taken digest acceptable w.repo) with
        | nil => exact .refl w.repo
        | cons v rest =>
          refine hbefore _ (List.mem_of_mem_take (i := l.taken digest acceptable w.repo) ?_)
          rw [htake, List.getLastD_cons]
          exact List.getLastD_mem_cons
      rw [hprunes, decide_eq_false hpruned]
      simpa using hw.unseen hreached

theorem Tidy.reaches (hw : Tidy w) (hI : SagaInvariant w.repo) {l : IssuedLabel}
    (hl : Orderly digest acceptable w l) :
    Tidy ⟨l.val.reached digest acceptable w.repo, w.holders ++ l.val.op.named,
      w.pruned ++
        if l.val.prunes digest acceptable w.repo then
          (l.val.reached digest acceptable w.repo).releasable
        else []⟩ := by
  obtain ⟨l, hissued⟩ := l
  have hkept : l.op.named = [] → l.op.pruneAt = none →
      Tidy ⟨l.reached digest acceptable w.repo, w.holders, w.pruned⟩ →
      Tidy ⟨l.reached digest acceptable w.repo, w.holders ++ l.op.named, w.pruned ++
        if l.prunes digest acceptable w.repo then
          (l.reached digest acceptable w.repo).releasable
        else []⟩ := by
    intro hnamed hprune h
    simpa [hnamed, not_prunes hprune] using h
  cases hop : l.op with
  | staging op =>
    by_cases hblob : ∃ b, op = .blob b
    · obtain ⟨b, rfl⟩ := hblob
      have hholders : ∀ o ∈ b.named, o.isHolder = true := by
        rw [hop] at hissued
        cases b with
        | reconcile retries => simp [RepositoryOp.issued] at hissued
        | _ => simpa [RepositoryOp.issued] using hissued
      have h : Tidy ⟨l.reached digest acceptable w.repo, w.holders ++ b.named, w.pruned⟩ :=
        hw.blob hop hholders (hl.stored b hop)
      have hprune : l.op.pruneAt = none := by rw [hop]; rfl
      simpa [not_prunes hprune, RepositoryOp.named] using h
    · rw [← hop]
      refine hkept ?_ (by rw [hop]; rfl) (hw.still ?_)
      · rw [hop]
        cases op with
        | blob b => exact absurd ⟨b, rfl⟩ hblob
        | _ => rfl
      · rw [RepositoryLabel.program, hop]
        exact staging_unseen digest l.fails l.now fun b hb => hblob ⟨b, hb⟩
  | batch op =>
    rw [← hop]
    refine hkept (by rw [hop]; rfl) (by rw [hop]; rfl) ?_
    by_cases hrecord : ∃ batch build, op = .recordPending batch build
    · obtain ⟨batch, build, rfl⟩ := hrecord
      rw [hop] at hissued
      exact hw.record hop hissued (hl.replaced batch build hop)
    · refine hw.still ?_
      rw [RepositoryLabel.program, hop]
      exact Advances.mono (fun _ _ h => h.toUnseen)
        (batch_silent l.fails l.now fun batch build hb => hrecord ⟨batch, build, hb⟩)
  | saga op =>
    cases hn : op.pruneAt with
    | some n =>
      have h := hw.admitted hop hn hl.released
      simpa [RepositoryOp.named] using h
    | none =>
      rw [← hop]
      refine hkept (by rw [hop]; rfl) (by rw [hop]; exact hn) ?_
      by_cases hstill : op.still = true
      · refine hw.still ?_
        rw [RepositoryLabel.program, hop]
        exact Advances.mono (fun _ _ h => h.toUnseen) (saga_silent acceptable l.fails l.now hstill)
      · cases op with
        | claimPublication destinations =>
          exact hw.claim hI.single hop (hl.fresh destinations hop)
        | beginPublicationRefresh lead => exact hw.refresh hI.single hop
        | _ => simp [SagaOp.still, hn] at hstill
  | reopen retries =>
    rw [← hop]
    exact hkept (by rw [hop]; rfl) (by rw [hop]; rfl) (hw.reopen hop (hl.reconciled retries hop))

theorem Tidy.step (hw : Tidy w) (hI : SagaInvariant w.repo) {l : IssuedLabel}
    (hl : Orderly digest acceptable w l) : Tidy (sessionStep digest acceptable w l) := by
  have hreached := hw.reaches hI hl
  cases hstop : l.val.stop with
  | some k =>
    have hends : l.val.ends = true := by simp [RepositoryLabel.ends, hstop]
    have hrepo : repositoryStep digest acceptable w.repo l.val =
        (l.val.reached digest acceptable w.repo).forgetProcess := by
      simp only [repositoryStep, RepositoryLabel.reached, hstop]
    have h := hreached.forget (hl.ended hends)
    simpa [sessionStep, hrepo, hends] using h
  | none =>
    have hrepo : repositoryStep digest acceptable w.repo l.val =
        l.val.reached digest acceptable w.repo := by
      simp only [repositoryStep, RepositoryLabel.reached, hstop]
    by_cases hends : l.val.ends = true
    · have h := hreached.idle (hl.ended hends)
      simpa [sessionStep, hrepo, hends] using h
    · simpa [sessionStep, hrepo, hends] using hreached

theorem tidy_start (capacity : ℕ) : Tidy (.start capacity) := by
  refine ⟨custodial_empty List.length capacity, ?_, ?_, ?_, ?_, ?_, ?_, ?_⟩ <;>
    simp [Session.start, initial, owners, view, BlobStore.empty]

theorem Tidy.held (hw : Tidy w) {row : OwnerRow String} (hrow : row ∈ w.repo.blobs.db.owners.rows) :
    w.Held row := by
  obtain ⟨o, x⟩ := row
  have hx : o ∈ w.repo.owners x := mem_owners.mpr hrow
  unfold Session.Held
  cases o with
  | route route =>
    obtain ⟨c, ⟨hc, hhash⟩, hroute⟩ := (hw.blobs x).2 route hx
    exact ⟨c, hc, hhash, hroute⟩
  | batch id => exact hw.batchHeld id x hx
  | saga id => exact hw.sagaHeld id x hx
  | upload id => exact hw.holderHeld _ x rfl hx
  | run id => exact hw.holderHeld _ x rfl hx

end Steps

section Results

variable (digest : Bytes → String) (acceptable : RawPublication → Bool)

/-- In every state of an orderly session the blobs of the pending candidate and of the sagas are
owned, and every owner row has its holder. -/
theorem owners_accounted (capacity : ℕ) (labels : List IssuedLabel)
    (h : Always (sessionStep digest acceptable) (Orderly digest acceptable) (.start capacity)
      labels) :
    let w := run (sessionStep digest acceptable) (.start capacity) labels
    (∀ r ∈ w.repo.pendingBlobs.rows, ⟨.batch r.batchId, r.hash⟩ ∈ w.repo.blobs.db.owners.rows) ∧
      (∀ r ∈ w.repo.sagaBlobs.rows, ⟨.saga r.batchId, r.hash⟩ ∈ w.repo.blobs.db.owners.rows) ∧
      ∀ row ∈ w.repo.blobs.db.owners.rows, w.Held row := by
  have hrun := run_invariant (I := fun w : Session => SagaInvariant w.repo ∧ Tidy w)
    (fun w l hI hl => ⟨(hI.1.step_evolves digest acceptable l.val).invariant, hI.2.step hI.1 hl⟩)
    ⟨initial_invariant capacity, tidy_start capacity⟩ h
  obtain ⟨-, htidy⟩ := hrun
  exact ⟨fun r hr => mem_owners.mp (htidy.pendingOwned r hr),
    fun r hr => mem_owners.mp (htidy.sagaOwned r hr), fun row hrow => htidy.held hrow⟩

end Results

section Instances

variable {digest : Bytes → String} {acceptable : RawPublication → Bool} {w : Session} {l : IssuedLabel}

theorem Orderly.running (hends : l.val.ends = false)
    (hstored : ∀ op, l.val.op = .staging (.blob op) →
      Allowed digest List.length w.repo.blobs ⟨op, l.val.now, l.val.fails, none⟩)
    (hfresh : ∀ destinations, l.val.op = .saga (.claimPublication destinations) →
      w.repo.FreshCandidate) : Orderly digest acceptable w l := by
  have hstop : l.val.stop = none := by
    cases h : l.val.stop with
    | none => rfl
    | some k => simp [RepositoryLabel.ends, h] at hends
  refine ⟨hstored, fun retries h => ?_, hfresh, ?_, ?_, ?_⟩
  · simp [RepositoryLabel.ends, h, RepositoryOp.isReopen] at hends
  · simp [hends]
  · simp [hstop]
  · simp [hstop]

theorem Orderly.opening {retries : String → Option String} (hop : l.val.op = .reopen retries)
    (hstop : l.val.stop = none)
    (htombs : ∀ t ∈ w.repo.blobs.db.tombstones.rows, w.repo.blobs.dropLeases.live t.hash = false)
    (hrows : (l.val.reached digest acceptable w.repo).holderRows = []) :
    Orderly digest acceptable w l := by
  refine ⟨fun op h => ?_, fun _ _ => htombs, fun destinations h => ?_, fun _ => hrows, ?_, ?_⟩
  · simp [hop] at h
  · simp [hop] at h
  · simp [hstop]
  · simp [hstop]

def contentDigest (content : Bytes) : String :=
  if content = [] then "empty" else "root"

def plainLabel (op : RepositoryOp) (h : op.issued = true) : IssuedLabel :=
  ⟨⟨op, 1, fun _ => none, none⟩, h⟩

def builtBlob : IssuedLabel :=
  plainLabel (.staging (.blob (.promote [7] .write (some (.run "a")) "t"))) (by decide)

/-- A build is recorded, its run released and the candidate claimed, and the database opened again. -/
def publishedBuild : List IssuedLabel :=
  [builtBlob,
    plainLabel (.batch (.recordPending ⟨1, 1, 1, none, 0⟩
      ⟨"root", "nhash", ⟨"root", 1, "root"⟩, [], 1, some "a"⟩)) (by decide),
    plainLabel (.staging (.blob (.releaseOwner (.run "a")))) (by decide),
    plainLabel (.saga (.claimPublication ["server"])) (by decide),
    plainLabel (.reopen fun _ => none) (by decide)]

theorem publishedBuild_orderly : Always (sessionStep contentDigest fun _ => true)
    (Orderly contentDigest fun _ => true) (.start 100) publishedBuild := by
  simp only [publishedBuild, always_cons, always_nil, and_true]
  refine ⟨.running (by decide) ?_ ?_, .running (by decide) ?_ ?_, .running (by decide) ?_ ?_,
    .running (by decide) ?_ ?_, .opening rfl rfl (by decide +kernel) (by decide +kernel)⟩
  · rintro _ ⟨⟩
    decide +kernel
  · rintro _ ⟨⟩
  · rintro _ ⟨⟩
  · rintro _ ⟨⟩
  · rintro _ ⟨⟩
    decide +kernel
  · rintro _ ⟨⟩
  · rintro _ ⟨⟩
  · rintro _ - c - r hr
    rw [show WriteRepository.records _ = [] by decide +kernel] at hr
    cases hr

theorem owners_accounted_published :
    let w := run (sessionStep contentDigest fun _ => true) (.start 100) publishedBuild
    (∀ r ∈ w.repo.pendingBlobs.rows, ⟨.batch r.batchId, r.hash⟩ ∈ w.repo.blobs.db.owners.rows) ∧
      (∀ r ∈ w.repo.sagaBlobs.rows, ⟨.saga r.batchId, r.hash⟩ ∈ w.repo.blobs.db.owners.rows) ∧
      ∀ row ∈ w.repo.blobs.db.owners.rows, w.Held row :=
  owners_accounted contentDigest (fun _ => true) 100 publishedBuild publishedBuild_orderly

/-- The process stops during a build.  No opening of the database looks for the owners of its run. -/
def abandonedBuild : List IssuedLabel :=
  [builtBlob, ⟨⟨.staging (.blob (.lookup "root")), 2, fun _ => none, some 0⟩, by decide⟩,
    plainLabel (.reopen fun _ => none) (by decide)]

theorem abandoned_run_kept :
    let w := run (sessionStep contentDigest fun _ => true) (.start 100) abandonedBuild
    ¬∀ row ∈ w.repo.blobs.db.owners.rows, w.Held row := by
  intro w h
  have hheld := h ⟨.run "a", "root"⟩ (by decide +kernel)
  have hholders : w.holders = [] := by decide +kernel
  simp [Session.Held, hholders] at hheld

end Instances

end NixstrCache.Persistence.WriteRepository
