import Mathlib.Data.List.Perm.Subperm
import NixstrCache.Persistence.Moves

/-!
Reading the saga tables.

With one active saga at most, `publicationSaga` reads the only row, and `publicationSagaByBatch` the
row that speaks for a batch id: the active saga under that id, or else the archived one.  Counting
rows decides whether a server is complete, because the proofs of a batch stay inside its inventory
and neither table holds a row twice.
-/

namespace NixstrCache.Persistence.WriteRepository

open Durable KeyedTable

section Reading

theorem truthy_eq_some {text : Option String} {value : String} (h : truthy text = some value) :
    text = some value := by
  cases text with
  | none => simp [truthy] at h
  | some text =>
    by_cases hempty : text = ""
    · simp [truthy, hempty] at h
    · simpa [truthy, hempty] using h

theorem truthy_ne_none {text : Option String} (h : truthy text ≠ none) : text ≠ none := by
  rintro rfl
  exact h rfl

@[simp]
theorem readSaga_batchId (r : SagaRow) : (readSaga r).batchId = r.batchId :=
  rfl

@[simp]
theorem readSaga_candidate (r : SagaRow) : (readSaga r).candidate = r.candidate :=
  rfl

@[simp]
theorem readSaga_destinations (r : SagaRow) : (readSaga r).destinations = r.destinations :=
  rfl

@[simp]
theorem readSaga_signedEvent (r : SagaRow) : (readSaga r).signedEvent = r.signedEvent :=
  rfl

@[simp]
theorem readSaga_committed (r : SagaRow) : (readSaga r).committed = r.committed :=
  rfl

@[simp]
theorem readSaga_admitted (r : SagaRow) : (readSaga r).admitted = r.admitted :=
  rfl

@[simp]
theorem readSaga_completeServer (r : SagaRow) :
    (readSaga r).completeServer = truthy r.completeServer :=
  rfl

@[simp]
theorem readSaga_acknowledgedRelay (r : SagaRow) :
    (readSaga r).acknowledgedRelay = truthy r.acknowledgedRelay :=
  rfl

variable {s t : WriteRepository} {n : ℕ} {r : SagaRow}

def Single (s : WriteRepository) : Prop :=
  s.sagas.rows.length ≤ 1

theorem Single.rows (h : s.Single) (hr : r ∈ s.sagas.rows) : s.sagas.rows = [r] := by
  unfold Single at h
  match hrows : s.sagas.rows with
  | [] => simp [hrows] at hr
  | [a] =>
    obtain rfl : r = a := by simpa [hrows] using hr
    rfl
  | a :: b :: rest => simp [hrows] at h

theorem publicationSaga_of_rows (h : s.sagas.rows = [r]) : s.publicationSaga = some (readSaga r) := by
  simp [publicationSaga, h]

theorem mem_of_publicationSaga {saga : SagaRow} (h : s.publicationSaga = some saga) :
    ∃ r ∈ s.sagas.rows, saga = readSaga r := by
  obtain ⟨r, hr, rfl⟩ := Option.map_eq_some_iff.mp h
  exact ⟨r, (List.mem_insertionSort _).mp (List.mem_of_head? hr), rfl⟩

theorem publicationSaga_eq_none (h : s.publicationSaga = none) : s.sagas.rows = [] := by
  rw [publicationSaga, Option.map_eq_none_iff, List.head?_eq_none_iff] at h
  exact List.eq_nil_iff_length_eq_zero.mpr (by
    rw [← List.length_insertionSort (fun a b : SagaRow => a.batchId ≤ b.batchId), h, List.length_nil])

theorem Single.publicationSaga {saga : SagaRow} (hs : s.Single)
    (h : s.publicationSaga = some saga) : ∃ r, s.sagas.rows = [r] ∧ saga = readSaga r := by
  obtain ⟨r, hr, rfl⟩ := mem_of_publicationSaga h
  exact ⟨r, hs.rows hr, rfl⟩

theorem mem_publicationHistory {saga : SagaRow} (h : saga ∈ s.publicationHistory) :
    ∃ r ∈ s.history.rows, saga = readSaga r.saga := by
  obtain ⟨r, hr, rfl⟩ := List.mem_map.mp h
  exact ⟨r, (List.mem_insertionSort _).mp hr, rfl⟩

inductive SpeaksFor (s : WriteRepository) (n : ℕ) : SagaRow → Prop
  | active (a : SagaRow) (ha : a ∈ s.sagas.rows) (hn : a.batchId = n) : SpeaksFor s n a
  | archived (h : HistoryRow) (hh : h ∈ s.history.rows) (hn : h.batchId = n)
      (hactive : ∀ a ∈ s.sagas.rows, a.batchId ≠ n) : SpeaksFor s n h.saga

theorem Single.publicationSagaByBatch {saga : SagaRow} (hs : s.Single)
    (h : s.publicationSagaByBatch n = some saga) : ∃ r, s.SpeaksFor n r ∧ saga = readSaga r := by
  have harchived (hfind : s.publicationHistory.find? (fun saga => saga.batchId = n) = some saga)
      (hactive : ∀ r ∈ s.sagas.rows, r.batchId ≠ n) :
      ∃ r, s.SpeaksFor n r ∧ saga = readSaga r := by
    have hid : saga.batchId = n := by simpa using List.find?_some hfind
    obtain ⟨row, hrow, rfl⟩ := mem_publicationHistory (List.mem_of_find?_eq_some hfind)
    exact ⟨row.saga, .archived row hrow hid hactive, rfl⟩
  unfold WriteRepository.publicationSagaByBatch at h
  split at h
  · next active hactive =>
    obtain ⟨r, hrows, rfl⟩ := hs.publicationSaga hactive
    split_ifs at h with hid
    · obtain rfl : readSaga r = saga := by simpa using h
      exact ⟨r, .active r (by simp [hrows]) hid, rfl⟩
    · exact harchived h (by simpa [hrows] using hid)
  · next hactive => exact harchived h (by simp [publicationSaga_eq_none hactive])

def records (s : WriteRepository) : List SagaRow :=
  s.sagas.rows ++ s.history.rows.map HistoryRow.saga

theorem mem_records : r ∈ s.records ↔ r ∈ s.sagas.rows ∨ ∃ h ∈ s.history.rows, h.saga = r := by
  simp [records]

theorem le_foldr_max {xs : List ℕ} {x : ℕ} (hx : x ∈ xs) : x ≤ xs.foldr max 0 := by
  induction xs with
  | nil => simp at hx
  | cons y ys ih =>
    rcases List.mem_cons.mp hx with rfl | hx
    · exact le_max_left _ _
    · exact (ih hx).trans (le_max_right _ _)

theorem le_maxSagaId (hr : r ∈ s.records) : r.batchId ≤ s.maxSagaId := by
  refine le_foldr_max (List.mem_append.mpr ?_)
  rcases mem_records.mp hr with hr | ⟨h, hh, rfl⟩
  · exact Or.inl (List.mem_map_of_mem hr)
  · exact Or.inr (List.mem_map_of_mem (f := HistoryRow.batchId) hh)

end Reading

section Successors

theorem claimBatch_ok {s t : WriteRepository} {token : ℕ} {batch : Option FrozenBatch}
    (h : claimBatch token s = .ok (batch, t)) : (batch = none ∧ t = s) ∨
      ∃ generation batches batchEntries, s.clock.generation = some generation ∧
        s.clock.activeToken = some token ∧ (∀ r ∈ s.batches.rows, r.token ≠ token) ∧
        s.batches.insert? ⟨s.batchSequence + 1, token, generation, s.clock.baseRoot, .building⟩ =
          some batches ∧
        s.batchEntries.insertAll? (s.frozenEntries (s.batchSequence + 1) generation) =
          some batchEntries ∧
        batch = some ⟨s.batchSequence + 1, token, generation, truthy s.clock.baseRoot,
          (batchEntries.rows.filter fun r => r.batchId = s.batchSequence + 1).length⟩ ∧
        t = { s with
          batchSequence := s.batchSequence + 1
          batches := batches
          batchEntries := batchEntries
          clock := closedClock s.clock.nextToken } := by
  unfold claimBatch at h
  split at h
  · cases h
    exact Or.inl ⟨rfl, rfl⟩
  · next generation hgeneration =>
    split_ifs at h with htoken hused
    · cases h
      exact Or.inl ⟨rfl, rfl⟩
    · simp only at h
      split at h
      · next batches batchEntries hbatches hentries =>
        cases h
        refine Or.inr ⟨generation, batches, batchEntries, hgeneration, not_not.mp htoken, ?_, hbatches,
          hentries, rfl, rfl⟩
        simpa using hused
      · simp at h

/-- What the transaction of `recordPending` leaves. -/
structure Stored (s t : WriteRepository) (batch : FrozenBatch) (candidate : PendingCandidate)
    (inventory : List InventoryEntry) : Prop where
  pendingCandidate : t.pendingCandidate =
    some { candidate with batchId := batch.id, generation := batch.generation }
  pendingBlobs : t.pendingBlobs.rows =
    inventory.map fun blob => ⟨batch.id, blob.hash, blob.size, blob.path⟩
  batches : t.batches = (s.setPendingStatus batch.id).batches
  sagas : t.sagas = s.sagas
  history : t.history = s.history
  sagaBlobs : t.sagaBlobs = s.sagaBlobs
  proofs : t.proofs = s.proofs
  clock : t.clock = s.clock
  batchSequence : t.batchSequence = s.batchSequence
  batchEntries : t.batchEntries = s.batchEntries
  currentGeneration : t.currentGeneration = s.currentGeneration

theorem insertPendingBlobs_ok {batchId : ℕ} {runId : Option String} {s t : WriteRepository}
    {inventory : List InventoryEntry}
    (h : inventory.foldlM (fun t blob => insertPendingBlob batchId runId blob t) s = .ok t) :
    ∃ pendingBlobs : Table InventoryRow.key, t = { s with pendingBlobs := pendingBlobs } ∧
      pendingBlobs.rows = s.pendingBlobs.rows ++
        inventory.map fun blob => ⟨batchId, blob.hash, blob.size, blob.path⟩ := by
  induction inventory generalizing s with
  | nil =>
    obtain rfl : s = t := by simpa [pure, Except.pure] using h
    exact ⟨s.pendingBlobs, rfl, by simp⟩
  | cons blob rest ih =>
    rw [List.foldlM_cons] at h
    cases hu : insertPendingBlob batchId runId blob s with
    | error e => simp [hu, bind, Except.bind] at h
    | ok u =>
      simp only [hu, bind, Except.bind] at h
      obtain ⟨pendingBlobs, rfl, hrows⟩ := ih h
      unfold insertPendingBlob at hu
      split_ifs at hu
      split at hu
      · simp at hu
      · next inserted hinserted =>
        cases hu
        exact ⟨pendingBlobs, rfl, by simp [hrows, (Table.insert?_eq_some.mp hinserted).2]⟩

theorem claimRunBlobs_ok {batchId blobCount : ℕ} {runId : Option String} {s t : WriteRepository}
    (h : claimRunBlobs batchId blobCount runId s = .ok t) : ∃ blobs, t = { s with blobs := blobs } := by
  unfold claimRunBlobs at h
  split at h
  · cases h
    exact ⟨s.blobs, rfl⟩
  · simp only at h
    split_ifs at h
    cases h
    exact ⟨_, rfl⟩

theorem storePending_stored {s t : WriteRepository} {batch : FrozenBatch}
    {candidate : PendingCandidate} {inventory : List InventoryEntry} {runId : Option String}
    (h : storePending batch candidate inventory runId s = .ok ((), t)) :
    Stored s t batch candidate inventory := by
  unfold storePending at h
  cases hu : inventory.foldlM (fun t blob => insertPendingBlob batch.id runId blob t)
      { s with pendingBlobs := .empty } with
  | error e => simp [hu, bind, Except.bind] at h
  | ok u =>
    cases hv : claimRunBlobs batch.id candidate.blobCount runId u with
    | error e => simp [hu, hv, bind, Except.bind] at h
    | ok v =>
      simp only [hu, hv, bind, Except.bind, Except.ok.injEq, Prod.mk.injEq, true_and] at h
      subst h
      obtain ⟨pendingBlobs, rfl, hrows⟩ := insertPendingBlobs_ok hu
      obtain ⟨blobs, rfl⟩ := claimRunBlobs_ok hv
      exact ⟨rfl, by simpa [setPendingStatus] using hrows, rfl, rfl, rfl, rfl, rfl, rfl, rfl, rfl, rfl⟩

/-- What the second transaction of `claimPublication` leaves. -/
structure Claimed (s t : WriteRepository) (candidate : PendingCandidate)
    (destinations : List String) (now : ℕ) : Prop where
  sagas : t.sagas.rows = [freshSaga candidate destinations]
  history : t.history =
    (s.sagas.rows.map fun r => (⟨r, now⟩ : HistoryRow)).foldl Table.insertOrReplace s.history
  sagaBlobs : s.sagaBlobs.insertAll?
    (s.pendingBlobs.rows.filter fun r => r.batchId = candidate.batchId) = some t.sagaBlobs
  proofs : t.proofs = s.proofs
  pendingCandidate : t.pendingCandidate = none
  pendingBlobs : t.pendingBlobs = .empty
  clock : t.clock = s.clock
  batchSequence : t.batchSequence = s.batchSequence
  batches : t.batches = s.batches
  batchEntries : t.batchEntries = s.batchEntries
  currentGeneration : t.currentGeneration = s.currentGeneration

theorem insertSaga_ok {s t : WriteRepository} {candidate : PendingCandidate}
    {destinations : List String} (h : insertSaga candidate destinations s = .ok t) :
    ∃ sagas sagaBlobs, s.sagas.insert? (freshSaga candidate destinations) = some sagas ∧
      s.sagaBlobs.insertAll? (s.pendingBlobs.rows.filter fun r => r.batchId = candidate.batchId) =
        some sagaBlobs ∧
      t = { s with
        sagas := sagas
        sagaBlobs := sagaBlobs
        blobs := (s.blobs.copyOwner (.batch candidate.batchId)
          (.saga candidate.batchId)).removeOwnerAll (.batch candidate.batchId)
        pendingCandidate := none
        pendingBlobs := .empty } := by
  unfold insertSaga at h
  split at h
  · next sagas sagaBlobs hsagas hblobs =>
    cases h
    exact ⟨sagas, sagaBlobs, hsagas, hblobs, rfl⟩
  · simp at h

theorem claimCandidate_claimed {s t : WriteRepository} {candidate : PendingCandidate}
    {destinations : List String} {now : ℕ} (hs : s.Single)
    (hnewer : ∀ current, s.publicationSaga = some current →
      current.candidate.generation < candidate.generation ∧
        (current.admitted = true ∨ current.signedEvent = none))
    (h : claimCandidate candidate destinations now s = .ok ((), t)) :
    Claimed s t candidate destinations now := by
  unfold claimCandidate at h
  split at h
  · next hnone =>
    have hempty := publicationSaga_eq_none hnone
    cases hu : insertSaga candidate destinations s with
    | error e => simp [hu, Except.map] at h
    | ok u =>
      obtain rfl : u = t := by simpa [hu, Except.map] using h
      obtain ⟨sagas, sagaBlobs, hsagas, hblobs, rfl⟩ := insertSaga_ok hu
      refine ⟨?_, by simp [hempty], hblobs, rfl, rfl, rfl, rfl, rfl, rfl, rfl, rfl⟩
      simpa [hempty] using (Table.insert?_eq_some.mp hsagas).2
  · next existing hexisting =>
    obtain ⟨a, hrows, rfl⟩ := hs.publicationSaga hexisting
    obtain ⟨hgeneration, hreplaceable⟩ := hnewer _ hexisting
    have hrep : (a.admitted || a.signedEvent.isNone) = true := by
      rcases hreplaceable with h | h <;> simp_all
    simp only [readSaga_admitted, readSaga_signedEvent, hrep, hgeneration, and_self, if_true,
      readSaga_batchId] at h
    cases hu : insertSaga candidate destinations (s.archiveSaga a.batchId now) with
    | error e => simp [hu, Except.map] at h
    | ok u =>
      obtain rfl : u = t := by simpa [hu, Except.map] using h
      obtain ⟨sagas, sagaBlobs, hsagas, hblobs, rfl⟩ := insertSaga_ok hu
      refine ⟨?_, by simp [archiveSaga, hrows], hblobs, rfl, rfl, rfl, rfl, rfl, rfl, rfl, rfl⟩
      simpa [archiveSaga, hrows] using (Table.insert?_eq_some.mp hsagas).2

/-- What `beginPublicationRefresh` leaves when it replaces the active saga `a`. -/
structure Refreshed (s t : WriteRepository) (a : SagaRow) (now : ℕ) : Prop where
  sagas : t.sagas.rows = [refreshedSaga (readSaga a) (s.maxSagaId + 1)]
  history : t.history = s.history.insertOrIgnore ⟨a, now⟩
  sagaBlobs : t.sagaBlobs.rows = (s.sagaBlobs.rows ++ (s.sagaBlobsOf a.batchId).map
    (InventoryRow.under (s.maxSagaId + 1))).filter fun r => r.batchId ≠ a.batchId
  proofs : t.proofs.rows = (s.proofs.rows ++ (s.proofs.rows.filter fun r =>
    r.batchId = a.batchId).map (ProofRow.under (s.maxSagaId + 1))).filter fun r =>
      r.batchId ≠ a.batchId
  pendingCandidate : t.pendingCandidate = s.pendingCandidate
  pendingBlobs : t.pendingBlobs = s.pendingBlobs
  clock : t.clock = s.clock
  batchSequence : t.batchSequence = s.batchSequence
  batches : t.batches = s.batches
  batchEntries : t.batchEntries = s.batchEntries
  currentGeneration : t.currentGeneration = s.currentGeneration

theorem refreshSaga_refreshed {s t : WriteRepository} {a : SagaRow} {now : ℕ}
    (hrows : s.sagas.rows = [a]) (h : refreshSaga (readSaga a) now s = .ok ((), t)) :
    Refreshed s t a now := by
  have hid : a.batchId ≤ s.maxSagaId := le_maxSagaId (mem_records.mpr (Or.inl (by simp [hrows])))
  unfold refreshSaga at h
  simp only [readSaga_batchId] at h
  split at h
  · next sagaBlobs sagas proofs endpointWork hblobs hsagas hproofs hwork =>
    cases h
    refine ⟨?_, by simp [hrows], congrArg (List.filter _) (Table.insertAll?_rows hblobs),
      congrArg (List.filter _) (Table.insertAll?_rows hproofs), rfl, rfl, rfl, rfl, rfl, rfl, rfl⟩
    have hnext : (refreshedSaga (readSaga a) (s.maxSagaId + 1)).batchId ≠ a.batchId := by
      change s.maxSagaId + 1 ≠ a.batchId
      omega
    simp [(Table.insert?_eq_some.mp hsagas).2, hrows, hnext]
  · simp at h

end Successors

section Counting

def ProofsListed (s : WriteRepository) : Prop :=
  ∀ p ∈ s.proofs.rows, s.sagaBlobs.has (p.batchId, p.hash) = true

def inventoryHashes (s : WriteRepository) (batchId : ℕ) : List String :=
  (s.sagaBlobsOf batchId).map InventoryRow.hash

def provenHashes (s : WriteRepository) (batchId : ℕ) (server : String) : List String :=
  (s.proofsOf batchId server).map ProofRow.hash

variable {s : WriteRepository} {batchId : ℕ} {server : String}

theorem mem_inventoryHashes {hash : String} : hash ∈ s.inventoryHashes batchId ↔
    ∃ b ∈ s.sagaBlobs.rows, b.batchId = batchId ∧ b.hash = hash := by
  simp [inventoryHashes, sagaBlobsOf, and_assoc]

theorem mem_provenHashes {hash : String} : hash ∈ s.provenHashes batchId server ↔
    ⟨batchId, server, hash⟩ ∈ s.proofs.rows := by
  simp only [provenHashes, proofsOf, List.mem_map, List.mem_filter, decide_eq_true_eq]
  constructor
  · rintro ⟨p, ⟨hp, rfl, rfl⟩, rfl⟩
    exact hp
  · exact fun hp => ⟨_, ⟨hp, rfl, rfl⟩, rfl⟩

theorem has_sagaBlobs {hash : String} :
    s.sagaBlobs.has (batchId, hash) = true ↔ hash ∈ s.inventoryHashes batchId := by
  rw [Table.has_iff, mem_inventoryHashes]
  simp [InventoryRow.key]

theorem inventoryHashes_nodup : (s.inventoryHashes batchId).Nodup := by
  refine List.Nodup.map_on (fun a ha b hb hab => ?_) (s.sagaBlobs.nodup_rows.filter _)
  obtain ⟨ha, hida⟩ := List.mem_filter.mp ha
  obtain ⟨hb, hidb⟩ := List.mem_filter.mp hb
  refine Table.eq_of_key ha hb (Prod.ext ?_ hab)
  exact (of_decide_eq_true hida).trans (of_decide_eq_true hidb).symm

theorem provenHashes_nodup : (s.provenHashes batchId server).Nodup := by
  refine List.Nodup.map_on (fun a ha b hb hab => ?_) (s.proofs.nodup_rows.filter _)
  obtain ⟨ha, hida⟩ := List.mem_filter.mp ha
  obtain ⟨hb, hidb⟩ := List.mem_filter.mp hb
  simp only [decide_eq_true_eq] at hida hidb
  refine Table.eq_of_key ha hb ?_
  simp [ProofRow.key, hida, hidb, hab]

theorem ProofsListed.subset (h : s.ProofsListed) :
    s.provenHashes batchId server ⊆ s.inventoryHashes batchId :=
  fun _ hash => has_sagaBlobs.mp (h _ (mem_provenHashes.mp hash))

theorem ProofsListed.serverComplete_iff (h : s.ProofsListed) :
    s.serverComplete batchId server = true ↔ s.inventoryHashes batchId ≠ [] ∧
      ∀ hash, hash ∈ s.provenHashes batchId server ↔ hash ∈ s.inventoryHashes batchId := by
  have hinventory : (s.inventoryHashes batchId).length = (s.sagaBlobsOf batchId).length :=
    List.length_map _
  have hproven : (s.provenHashes batchId server).length = (s.proofsOf batchId server).length :=
    List.length_map _
  have hsubperm : (s.provenHashes batchId server).Subperm (s.inventoryHashes batchId) :=
    List.subperm_of_subset provenHashes_nodup h.subset
  simp only [WriteRepository.serverComplete, Bool.decide_and, Bool.and_eq_true, decide_eq_true_eq,
    ← hinventory, ← hproven, List.length_pos_iff]
  refine and_congr_right fun _ => ⟨fun hlength => ?_, fun hmem => ?_⟩
  · exact fun hash => (hsubperm.perm_of_length_le hlength.le).mem_iff
  · exact ((List.perm_ext_iff_of_nodup inventoryHashes_nodup provenHashes_nodup).mpr
      fun hash => (hmem hash).symm).length_eq

end Counting

end NixstrCache.Persistence.WriteRepository
