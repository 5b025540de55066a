import NixstrCache.Persistence.OverlayTables
import NixstrCache.Persistence.Publication

/-!
What one committed statement or transaction of the write repository can do to the publication.

The operations are grouped by their callers: staging and overlay, the batch scheduler, the
publication coordinator, and the opening of the database.  Each group has a relation that lists the
changes of the ledger with the guards under which they happen, and every committed state of every
operation is reached by such changes.
-/

namespace NixstrCache.Persistence.WriteRepository

open Durable KeyedTable

structure Ledger where
  clock : PublicationClock
  batchSequence : ℕ
  batches : Table BatchRow.id
  batchEntries : Table BatchEntryRow.key
  pendingCandidate : Option PendingCandidate
  pendingBlobs : Table InventoryRow.key
  sagas : Table SagaRow.batchId
  sagaBlobs : Table InventoryRow.key
  proofs : Table ProofRow.key
  history : Table HistoryRow.batchId
  endpointWork : Table EndpointWork.key

def ledger (s : WriteRepository) : Ledger where
  clock := s.clock
  batchSequence := s.batchSequence
  batches := s.batches
  batchEntries := s.batchEntries
  pendingCandidate := s.pendingCandidate
  pendingBlobs := s.pendingBlobs
  sagas := s.sagas
  sagaBlobs := s.sagaBlobs
  proofs := s.proofs
  history := s.history
  endpointWork := s.endpointWork

structure Catalog where
  stagedBlobs : Table StagedBlobRow.route
  stagedNarInfos : Table StagedNarInfoRow.storePathHash
  stagedReferences : Table StagedReferenceRow.key
  currentGeneration : ℕ
  overlayEntries : Table OverlayEntryRow.key
  overlayStorePaths : Table OverlayStorePathRow.key

def catalog (s : WriteRepository) : Catalog where
  stagedBlobs := s.stagedBlobs
  stagedNarInfos := s.stagedNarInfos
  stagedReferences := s.stagedReferences
  currentGeneration := s.currentGeneration
  overlayEntries := s.overlayEntries
  overlayStorePaths := s.overlayStorePaths

section Operations

inductive StagingOp where
  | recordNarInfo (route : String) (info : StagingNarInfo)
  | insertStagedBlob (row : StagedBlobRow)
  | discard (route : String)
  | commitOverlay (hashes : List String)
  | acquireGeneration (generation : ℕ)
  | blob (op : BlobStore.BlobOp String Bytes)

inductive BatchOp where
  | markPublicationDirty (generation : ℕ) (baseRoot : Option String)
  | claimPublicationBatch (token : ℕ)
  | recordPending (batch : FrozenBatch) (build : HashtreeBuild)
  | markBatchFailed (id : ℕ)

inductive SagaOp where
  | claimPublication (destinations : List String)
  | beginPublicationRefresh (refreshLeadSeconds : ℕ)
  | ensureEndpointWork (batchId : ℕ) (kind : EndpointWorkKind) (targets : List String)
  | claimDueWork (limit : ℕ)
  | claimEndpointWork (batchId : ℕ) (kind : EndpointWorkKind) (target : String)
  | restoreClaimedWork
  | recordEndpointOutcome (work : EndpointWork) (outcome : EndpointOutcome)
  | recordBlobProof (batchId : ℕ) (server hash : String)
  | recordCompleteServer (batchId : ℕ) (server : String)
  | recordSigned (batchId : ℕ) (template : EventTemplate) (event : RawPublication)
  | recordRelayAcknowledgement (batchId : ℕ) (relay : String)
  | commitPublication (batchId : ℕ)
  | markPublicationAdmitted (batchId : ℕ)
  | releaseGeneration (generation : ℕ)

/-- The candidate that the scheduler records for a finished build. -/
def candidateOf (batch : FrozenBatch) (build : HashtreeBuild) : PendingCandidate where
  batchId := batch.id
  generation := batch.generation
  rootHex := build.rootHex
  nhash := build.rootNhash
  blobCount := build.inventory.length
  totalBytes := build.totalBytes

variable (digest : Bytes → String) (acceptable : RawPublication → Bool)
  (fails : String → Option String) (now : ℕ)

def discarded {α : Type} (m : RepositoryProgram α) : RepositoryProgram Unit :=
  m >>= fun _ => pure ()

theorem discarded_commits {α : Type} (m : RepositoryProgram α) (s : WriteRepository) :
    ((discarded m).run s).commits = (m.run s).commits := by
  unfold discarded
  cases h : (m.run s).result with
  | error e => rw [Program.bind_run_error h]
  | ok a =>
    rw [Program.bind_run_ok h]
    exact List.append_nil _

def stagingProgram : StagingOp → RepositoryProgram Unit
  | .recordNarInfo route info => recordNarInfo route info
  | .insertStagedBlob row => insertStagedBlob row
  | .discard route => discard route
  | .commitOverlay hashes => discarded (commitOverlay hashes)
  | .acquireGeneration generation => acquireGeneration generation
  | .blob op => onBlobs (BlobStore.BlobLabel.program digest List.length ⟨op, now, fails, none⟩)

def batchProgram : BatchOp → RepositoryProgram Unit
  | .markPublicationDirty generation baseRoot =>
    discarded (markPublicationDirty generation now baseRoot)
  | .claimPublicationBatch token => discarded (claimPublicationBatch token)
  | .recordPending batch build =>
    recordPending fails now batch (candidateOf batch build) build.inventory build.runId
  | .markBatchFailed id => markBatchFailed id

def sagaProgram : SagaOp → RepositoryProgram Unit
  | .claimPublication destinations => discarded (claimPublication destinations now)
  | .beginPublicationRefresh refreshLeadSeconds =>
    discarded (beginPublicationRefresh now refreshLeadSeconds)
  | .ensureEndpointWork batchId kind targets => ensureEndpointWork batchId kind targets now
  | .claimDueWork limit => discarded (claimDueWork now limit)
  | .claimEndpointWork batchId kind target => discarded (claimEndpointWork batchId kind target now)
  | .restoreClaimedWork => restoreClaimedWork now
  | .recordEndpointOutcome work outcome => recordEndpointOutcome work outcome
  | .recordBlobProof batchId server hash => recordBlobProof batchId server hash
  | .recordCompleteServer batchId server => recordCompleteServer batchId server
  | .recordSigned batchId template event => recordSigned acceptable batchId template event
  | .recordRelayAcknowledgement batchId relay => recordRelayAcknowledgement batchId relay
  | .commitPublication batchId => commitPublication batchId
  | .markPublicationAdmitted batchId => markPublicationAdmitted fails now batchId
  | .releaseGeneration generation => releaseGeneration fails now generation

end Operations

section Relations

def SameLedger (s t : WriteRepository) : Prop :=
  t.ledger = s.ledger ∧ t.catalog = s.catalog

theorem SameLedger.generation {s t : WriteRepository} (h : SameLedger s t) :
    t.currentGeneration = s.currentGeneration :=
  congrArg Catalog.currentGeneration h.2

structure Staged (s t : WriteRepository) : Prop where
  ledger : t.ledger = s.ledger
  generation : s.currentGeneration ≤ t.currentGeneration

inductive BatchMove : WriteRepository → WriteRepository → Prop
  | same {s t} (h : SameLedger s t) : BatchMove s t
  | dirty {s} (generation now : ℕ) (baseRoot : Option String) :
      BatchMove s (s.markDirty generation now baseRoot)
  | claim {s t token batch} (h : claimBatch token s = .ok (batch, t)) : BatchMove s t
  | record {s t batch build}
      (h : storePending batch (candidateOf batch build) build.inventory build.runId s = .ok ((), t)) :
      BatchMove s t
  | fail {s} (id : ℕ) : BatchMove s (s.setBatchStatus id .failed)

/-- The two transactions of `claimPublication`. -/
inductive ClaimMove : WriteRepository → WriteRepository → Prop
  | adopt {s current prior server} (hcurrent : s.publicationSaga = some current)
      (hunset : current.completeServer = none ∧ current.signedEvent = none)
      (hprior : s.priorComplete current = some prior) (hserver : prior.completeServer = some server) :
      ClaimMove s (adoptServer server current.batchId s)
  | claim {s t candidate destinations now} (hpending : s.pendingCandidate = some candidate)
      (hnewer : ∀ current, s.publicationSaga = some current →
        current.candidate.generation < candidate.generation ∧
          (current.admitted = true ∨ current.signedEvent = none))
      (h : claimCandidate candidate destinations now s = .ok ((), t)) : ClaimMove s t

/-- The transaction of `beginPublicationRefresh`. -/
inductive RefreshMove : WriteRepository → WriteRepository → Prop
  | refresh {s t saga now lead} (hsaga : s.refreshable now lead = some saga)
      (h : refreshSaga saga now s = .ok ((), t)) : RefreshMove s t

/-- What the publication coordinator can do without a claim, a refresh, a proof or a signature.  Of
the endpoint work only rows that `touched` holds for come or go. -/
inductive ColumnMove (touched : EndpointWork → Prop) : WriteRepository → WriteRepository → Prop
  | same {s t} (h : SameLedger s t) : ColumnMove touched s t
  | work {s} (endpointWork : Table EndpointWork.key)
      (h : ∀ w, ¬touched w → (w ∈ endpointWork.rows ↔ w ∈ s.endpointWork.rows)) :
      ColumnMove touched s { s with endpointWork := endpointWork }
  | completeActive {s saga server} (hsaga : s.publicationSaga = some saga)
      (h : s.serverComplete saga.batchId server = true) :
      ColumnMove touched s (s.updateSaga saga.batchId (setCompleteServer server) fun _ => rfl)
  | completeArchived {s batchId server}
      (hactive : ∀ saga, s.publicationSaga = some saga → saga.batchId ≠ batchId)
      (h : s.serverComplete batchId server = true) :
      ColumnMove touched s (s.completeArchived batchId server)
  | acknowledge {s saga batchId relay} (hsaga : s.publicationSaga = some saga)
      (hsigned : saga.signedEvent ≠ none) :
      ColumnMove touched s (s.updateSaga batchId (setAcknowledged relay) fun _ => rfl)
  | commit {s saga batchId} (hsaga : s.publicationSaga = some saga)
      (hacknowledged : saga.acknowledgedRelay ≠ none) :
      ColumnMove touched s
        (s.updateSaga batchId (fun r => { r with committed := true }) fun _ => rfl)
  | markAdmitted {s saga batchId} (hsaga : s.publicationSaga = some saga)
      (hcommitted : saga.committed = true) :
      ColumnMove touched s
        (s.updateSaga batchId (fun r => { r with admitted := true }) fun _ => rfl)
  | prune {s} : ColumnMove touched s s.pruneRows

/-- What the publication coordinator can do without claiming a candidate or recording a proof. -/
inductive QuietMove (acceptable : RawPublication → Bool) : WriteRepository → WriteRepository → Prop
  | same {s t} (h : SameLedger s t) : QuietMove acceptable s t
  | work {s} (endpointWork : Table EndpointWork.key) :
      QuietMove acceptable s { s with endpointWork := endpointWork }
  | refresh {s t} (h : RefreshMove s t) : QuietMove acceptable s t
  | completeActive {s saga server} (hsaga : s.publicationSaga = some saga)
      (h : s.serverComplete saga.batchId server = true) :
      QuietMove acceptable s (s.updateSaga saga.batchId (setCompleteServer server) fun _ => rfl)
  | completeArchived {s batchId server}
      (hactive : ∀ saga, s.publicationSaga = some saga → saga.batchId ≠ batchId)
      (h : s.serverComplete batchId server = true) :
      QuietMove acceptable s (s.completeArchived batchId server)
  | sign {s saga batchId template event} (hsaga : s.publicationSaga = some saga)
      (hcomplete : saga.completeServer ≠ none) (hmatches : matchesTemplate template event = true)
      (haccepted : acceptable event = true) :
      QuietMove acceptable s (s.updateSaga batchId (setSigned template event) fun _ => rfl)
  | acknowledge {s saga batchId relay} (hsaga : s.publicationSaga = some saga)
      (hsigned : saga.signedEvent ≠ none) :
      QuietMove acceptable s (s.updateSaga batchId (setAcknowledged relay) fun _ => rfl)
  | commit {s saga batchId} (hsaga : s.publicationSaga = some saga)
      (hacknowledged : saga.acknowledgedRelay ≠ none) :
      QuietMove acceptable s
        (s.updateSaga batchId (fun r => { r with committed := true }) fun _ => rfl)
  | markAdmitted {s saga batchId} (hsaga : s.publicationSaga = some saga)
      (hcommitted : saga.committed = true) :
      QuietMove acceptable s
        (s.updateSaga batchId (fun r => { r with admitted := true }) fun _ => rfl)
  | prune {s} : QuietMove acceptable s s.pruneRows

inductive SagaMove (acceptable : RawPublication → Bool) : WriteRepository → WriteRepository → Prop
  | quiet {s t} (h : QuietMove acceptable s t) : SagaMove acceptable s t
  | claim {s t} (h : ClaimMove s t) : SagaMove acceptable s t
  | prove {s saga batchId server hash} (hsaga : s.publicationSagaByBatch batchId = some saga)
      (hserver : server ∈ saga.destinations) (hblob : s.sagaBlobs.has (batchId, hash) = true) :
      SagaMove acceptable s { s with proofs := s.proofs.insertOrIgnore ⟨batchId, server, hash⟩ }

theorem ColumnMove.quiet {touched : EndpointWork → Prop} {acceptable : RawPublication → Bool}
    {s t : WriteRepository} (h : ColumnMove touched s t) : QuietMove acceptable s t := by
  cases h with
  | same h => exact .same h
  | work endpointWork => exact .work endpointWork
  | completeActive hsaga h => exact .completeActive hsaga h
  | completeArchived hactive h => exact .completeArchived hactive h
  | acknowledge hsaga hsigned => exact .acknowledge hsaga hsigned
  | commit hsaga hacknowledged => exact .commit hsaga hacknowledged
  | markAdmitted hsaga hcommitted => exact .markAdmitted hsaga hcommitted
  | prune => exact .prune

end Relations

section Advancing

theorem advances_onBlobs {R : WriteRepository → WriteRepository → Prop} {α : Type}
    (h : ∀ s (blobs : BlobStore String Bytes), R s { s with blobs := blobs })
    (m : BlobStore.StoreProgram String Bytes α) : Advances R (onBlobs m) := by
  intro s t ht
  obtain ⟨blobs, -, rfl⟩ := List.mem_map.mp ht
  exact Relation.ReflTransGen.single (h s blobs)

theorem advances_discarded {R : WriteRepository → WriteRepository → Prop} {α : Type}
    {m : RepositoryProgram α} (h : Advances R m) : Advances R (discarded m) :=
  Advances.bind h fun _ _ => AdvancesFrom.pure ()

theorem sameLedger_blobs (s : WriteRepository) (blobs : BlobStore String Bytes) :
    SameLedger s { s with blobs := blobs } :=
  ⟨rfl, rfl⟩

variable (digest : Bytes → String) (acceptable : RawPublication → Bool)
  (fails : String → Option String) (now : ℕ)

theorem advanceOverlay_staged {s t : WriteRepository} {hashes : List String} {generation : ℕ}
    (h : advanceOverlay hashes s = .ok (generation, t)) : Staged s t := by
  obtain ⟨_, _, rfl⟩ := advanceOverlay_rest h
  exact ⟨rfl, Nat.le_succ _⟩

theorem staging_advances (op : StagingOp) :
    Advances Staged (stagingProgram digest fails now op) := by
  cases op with
  | recordNarInfo route info =>
    refine fun s => AdvancesFrom.transaction fun _ t h => ?_
    unfold insertReferences at h
    split at h
    · simp at h
    · cases h
      exact ⟨rfl, le_rfl⟩
  | insertStagedBlob row =>
    refine fun s => AdvancesFrom.transaction fun _ t h => ?_
    split at h
    · simp at h
    · cases h
      exact ⟨rfl, le_rfl⟩
  | discard route =>
    refine fun s => AdvancesFrom.read_bind ?_
    split
    · exact AdvancesFrom.pure _
    · exact AdvancesFrom.commit ⟨rfl, le_rfl⟩
  | commitOverlay hashes =>
    refine advances_discarded fun s => AdvancesFrom.read_bind ?_
    split
    · exact AdvancesFrom.pure _
    · exact AdvancesFrom.transaction fun _ t h => advanceOverlay_staged h
  | acquireGeneration generation => exact fun s => AdvancesFrom.commit ⟨rfl, le_rfl⟩
  | blob op => exact advances_onBlobs (fun _ _ => ⟨rfl, le_rfl⟩) _

theorem recordPending_advances {R : WriteRepository → WriteRepository → Prop} {batch : FrozenBatch}
    {candidate : PendingCandidate} {inventory : List InventoryEntry} {runId : Option String}
    (hblobs : ∀ s (blobs : BlobStore String Bytes), R s { s with blobs := blobs })
    (hstore : ∀ s t, storePending batch candidate inventory runId s = .ok ((), t) → R s t) :
    Advances R (recordPending fails now batch candidate inventory runId) := by
  refine fun s => AdvancesFrom.read_bind ?_
  refine AdvancesFrom.bind (AdvancesFrom.transaction fun _ t h => hstore s t h) fun _ _ => ?_
  split
  · exact AdvancesFrom.pure _
  · split
    · exact AdvancesFrom.pure _
    · exact advances_onBlobs hblobs _ _

theorem batch_advances (op : BatchOp) : Advances BatchMove (batchProgram fails now op) := by
  cases op with
  | markPublicationDirty generation baseRoot =>
    refine advances_discarded fun s => AdvancesFrom.transaction fun _ t h => ?_
    cases h
    exact .dirty generation now baseRoot
  | claimPublicationBatch token =>
    exact advances_discarded fun s => AdvancesFrom.transaction fun _ t h => .claim h
  | recordPending batch build =>
    exact recordPending_advances fails now (fun s blobs => .same (sameLedger_blobs s blobs))
      fun _ _ h => .record h
  | markBatchFailed id => exact fun s => AdvancesFrom.commit (.fail id)

theorem adoptPriorServer_advances : Advances ClaimMove adoptPriorServer := by
  refine fun s => AdvancesFrom.read_bind ?_
  split
  · exact AdvancesFrom.pure _
  · next current hcurrent =>
    split_ifs with hunset
    · split
      · next prior hprior =>
        split
        · next server hserver => exact AdvancesFrom.commit (.adopt hcurrent hunset hprior hserver)
        · exact AdvancesFrom.pure _
      · exact AdvancesFrom.pure _
    · exact AdvancesFrom.pure _

theorem claimCandidate_advances {s : WriteRepository} {candidate : PendingCandidate}
    {destinations : List String} (hpending : s.pendingCandidate = some candidate)
    (hnewer : ∀ current, s.publicationSaga = some current →
      current.candidate.generation < candidate.generation ∧
        (current.admitted = true ∨ current.signedEvent = none)) :
    AdvancesFrom ClaimMove s (do
      Program.transaction (claimCandidate candidate destinations now)
      let t ← Program.read
      pure t.publicationSaga) := by
  refine AdvancesFrom.bind (AdvancesFrom.transaction fun _ t h => .claim hpending hnewer h) ?_
  exact fun _ _ => AdvancesFrom.read_bind (AdvancesFrom.pure _)

theorem claimPublication_advances (destinations : List String) :
    Advances ClaimMove (claimPublication destinations now) := by
  refine Advances.bind adoptPriorServer_advances fun _ s => AdvancesFrom.read_bind ?_
  split
  · exact AdvancesFrom.pure _
  · exact AdvancesFrom.pure _
  · next current candidate hcurrent hpending =>
    split_ifs with hkeep hempty
    · exact AdvancesFrom.pure _
    · exact AdvancesFrom.pure _
    · refine claimCandidate_advances now hpending fun r hr => ?_
      obtain rfl : current = r := by simpa [hcurrent] using hr
      push Not at hkeep
      refine ⟨hkeep.1, ?_⟩
      cases hadmitted : current.admitted with
      | true => exact Or.inl rfl
      | false => exact Or.inr (by simpa using hkeep.2 hadmitted)
  · next candidate hcurrent hpending =>
    split_ifs with hempty
    · exact AdvancesFrom.pure _
    · exact claimCandidate_advances now hpending fun r hr => by simp [hcurrent] at hr

theorem beginPublicationRefresh_advances (refreshLeadSeconds : ℕ) :
    Advances RefreshMove (beginPublicationRefresh now refreshLeadSeconds) := by
  refine fun s => AdvancesFrom.read_bind ?_
  split
  · exact AdvancesFrom.pure _
  · next saga hsaga =>
    refine AdvancesFrom.bind (AdvancesFrom.transaction fun _ t h => .refresh hsaga h) ?_
    exact fun _ _ => AdvancesFrom.pure _

section Columns

variable (touched : EndpointWork → Prop)

theorem pruneAdmitted_advances : Advances (ColumnMove touched) (pruneAdmitted fails now) := by
  refine fun s => AdvancesFrom.read_bind ?_
  split
  · exact AdvancesFrom.pure _
  · refine AdvancesFrom.commit_bind .prune ?_
    exact Advances.forEach (fun _ => advances_onBlobs (fun s blobs => .same (sameLedger_blobs s blobs)) _)
      _ _

theorem releaseGeneration_advances (generation : ℕ) :
    Advances (ColumnMove touched) (releaseGeneration fails now generation) := by
  refine fun s => AdvancesFrom.commit_bind (.same ⟨rfl, rfl⟩) ?_
  exact pruneAdmitted_advances fails now touched _

theorem recordCompleteServer_advances (batchId : ℕ) (server : String) :
    Advances (ColumnMove touched) (recordCompleteServer batchId server) := by
  refine fun s => AdvancesFrom.read_bind ?_
  split_ifs with hcomplete hactive
  · exact AdvancesFrom.throw _
  · obtain ⟨saga, hsaga, hid⟩ := (Option.any_eq_true _ _).mp hactive
    obtain rfl : saga.batchId = batchId := by simpa using hid
    exact AdvancesFrom.commit (.completeActive hsaga (by simpa using hcomplete))
  · refine AdvancesFrom.commit (.completeArchived (fun saga hsaga hid => hactive ?_)
      (by simpa using hcomplete))
    simp [hsaga, hid]

theorem recordRelayAcknowledgement_advances (batchId : ℕ) (relay : String) :
    Advances (ColumnMove touched) (recordRelayAcknowledgement batchId relay) := by
  refine fun s => AdvancesFrom.read_bind ?_
  split_ifs with hsigned
  · obtain ⟨saga, hsaga, h⟩ := (Option.any_eq_true _ _).mp hsigned
    exact AdvancesFrom.commit (.acknowledge hsaga (Option.isSome_iff_ne_none.mp h))
  · exact AdvancesFrom.throw _

theorem commitPublication_advances (batchId : ℕ) :
    Advances (ColumnMove touched) (commitPublication batchId) := by
  refine fun s => AdvancesFrom.read_bind ?_
  split_ifs with hacknowledged
  · obtain ⟨saga, hsaga, h⟩ := (Option.any_eq_true _ _).mp hacknowledged
    exact AdvancesFrom.commit (.commit hsaga (Option.isSome_iff_ne_none.mp h))
  · exact AdvancesFrom.throw _

theorem markPublicationAdmitted_advances (batchId : ℕ) :
    Advances (ColumnMove touched) (markPublicationAdmitted fails now batchId) := by
  refine fun s => AdvancesFrom.read_bind ?_
  split
  · exact AdvancesFrom.throw _
  · next saga hsaga =>
    split_ifs with hcommitted
    · exact AdvancesFrom.throw _
    · refine AdvancesFrom.commit_bind (.markAdmitted hsaga (by simpa using hcommitted)) ?_
      exact AdvancesFrom.commit_bind (.same ⟨rfl, rfl⟩) (pruneAdmitted_advances fails now touched _)

variable {touched}

theorem ColumnMove.update {s : WriteRepository} {f : EndpointWork → EndpointWork}
    {hf : ∀ w, (f w).key = w.key}
    (h : ∀ w ∈ s.endpointWork.rows, f w = w ∨ touched w ∧ touched (f w)) :
    ColumnMove touched s { s with endpointWork := s.endpointWork.update f hf } := by
  refine .work _ fun w hw => ?_
  rw [Table.mem_update]
  constructor
  · rintro ⟨q, hq, rfl⟩
    rcases h q hq with hsame | ⟨-, htouched⟩
    · rwa [hsame]
    · exact absurd htouched hw
  · intro hmem
    rcases h w hmem with hsame | ⟨htouched, -⟩
    · exact ⟨w, hmem, hsame⟩
    · exact absurd htouched hw

theorem ensureEndpointWork_advances {batchId : ℕ} {kind : EndpointWorkKind}
    (htouched : ∀ w : EndpointWork, w.kind = kind → touched w) (targets : List String) :
    Advances (ColumnMove touched) (ensureEndpointWork batchId kind targets now) := by
  refine fun s => AdvancesFrom.commit (.work _ fun w hw => ⟨fun hmem => ?_, ?_⟩)
  · rcases Table.mem_of_mem_insertAllOrIgnore hmem with hmem | hnew
    · exact hmem
    · obtain ⟨target, -, rfl⟩ := List.mem_map.mp hnew
      exact absurd (htouched _ rfl) hw
  · exact fun hmem => Table.subset_insertAllOrIgnore hmem

theorem setClaimed_move {s : WriteRepository} {keys : List (ℕ × EndpointWorkKind × String)}
    (htouched : ∀ w : EndpointWork, w.key ∈ keys → ∀ status, touched { w with status := status }) :
    ColumnMove touched s (s.setClaimed keys) := by
  refine ColumnMove.update fun w _ => ?_
  split
  · next h => exact Or.inr ⟨htouched w h.1 w.status, htouched w h.1 .claimed⟩
  · exact Or.inl rfl

theorem claimDueWork_advances (htouched : ∀ w : EndpointWork, w.kind = .relay → touched w)
    (limit : ℕ) : Advances (ColumnMove touched) (claimDueWork now limit) := by
  refine fun s => AdvancesFrom.read_bind ?_
  refine AdvancesFrom.commit_bind (setClaimed_move fun w hw status => ?_) (AdvancesFrom.pure _)
  obtain ⟨q, hq, hkey⟩ := List.mem_map.mp hw
  have hrelay : q.kind = .relay := by
    have hmem := (List.mem_insertionSort _).mp (List.mem_of_mem_take hq)
    exact (of_decide_eq_true (List.mem_filter.mp hmem).2).2.1
  simp only [EndpointWork.key, Prod.mk.injEq] at hkey
  exact htouched _ (hkey.2.1.symm.trans hrelay)

theorem claimEndpointWork_advances {kind : EndpointWorkKind}
    (htouched : ∀ w : EndpointWork, w.kind = kind → touched w) (batchId : ℕ) (target : String) :
    Advances (ColumnMove touched) (claimEndpointWork batchId kind target now) := by
  refine fun s => AdvancesFrom.read_bind ?_
  split
  · exact AdvancesFrom.pure _
  · next w hw =>
    refine AdvancesFrom.commit_bind (setClaimed_move fun q hq status => ?_) (AdvancesFrom.pure _)
    obtain ⟨-, hfound⟩ := Table.find?_eq_some.mp (Option.filter_eq_some_iff.mp hw).1
    rw [List.mem_singleton, hfound] at hq
    simp only [EndpointWork.key, Prod.mk.injEq] at hq
    exact htouched _ hq.2.1

theorem recordEndpointOutcome_advances {work : EndpointWork}
    (htouched : ∀ w : EndpointWork, w.kind = work.kind → touched w) (outcome : EndpointOutcome) :
    Advances (ColumnMove touched) (recordEndpointOutcome work outcome) := by
  refine fun s => AdvancesFrom.read_bind ?_
  split_ifs
  · refine AdvancesFrom.commit (ColumnMove.update fun w _ => ?_)
    split
    · next h =>
      simp only [EndpointWork.key, Prod.mk.injEq] at h
      exact Or.inr ⟨htouched _ h.1.2.1, htouched _ h.1.2.1⟩
    · exact Or.inl rfl
  · exact AdvancesFrom.throw _

theorem restoreClaimedWork_advances :
    Advances (ColumnMove fun _ => True) (restoreClaimedWork now) :=
  fun _ => AdvancesFrom.commit (ColumnMove.update fun _ _ => Or.inr ⟨trivial, trivial⟩)

end Columns

theorem recordSigned_advances (batchId : ℕ) (template : EventTemplate) (event : RawPublication) :
    Advances (QuietMove acceptable) (recordSigned acceptable batchId template event) := by
  refine fun s => AdvancesFrom.read_bind ?_
  split
  · exact AdvancesFrom.throw _
  · next saga hsaga =>
    split_ifs with hcomplete hmatches himmutable
    · exact AdvancesFrom.throw _
    · exact AdvancesFrom.throw _
    · obtain ⟨htemplate, haccepted⟩ := Bool.and_eq_true_iff.mp hmatches
      exact AdvancesFrom.commit (.sign hsaga hcomplete htemplate haccepted)
    · exact AdvancesFrom.throw _

def SagaOp.plain : SagaOp → Bool
  | .claimPublication _ | .beginPublicationRefresh _ | .recordBlobProof .. | .recordSigned .. => false
  | _ => true

theorem plain_advances (op : SagaOp) (hplain : op.plain = true) :
    Advances (ColumnMove fun _ => True) (sagaProgram acceptable fails now op) := by
  cases op with
  | claimPublication | beginPublicationRefresh | recordBlobProof | recordSigned => cases hplain
  | ensureEndpointWork batchId kind targets =>
    exact ensureEndpointWork_advances now (fun _ _ => trivial) targets
  | claimDueWork limit =>
    exact advances_discarded (claimDueWork_advances now (fun _ _ => trivial) limit)
  | claimEndpointWork batchId kind target =>
    exact advances_discarded (claimEndpointWork_advances now (fun _ _ => trivial) batchId target)
  | restoreClaimedWork => exact restoreClaimedWork_advances now
  | recordEndpointOutcome work outcome =>
    exact recordEndpointOutcome_advances (fun _ _ => trivial) outcome
  | recordCompleteServer batchId server => exact recordCompleteServer_advances _ batchId server
  | recordRelayAcknowledgement batchId relay =>
    exact recordRelayAcknowledgement_advances _ batchId relay
  | commitPublication batchId => exact commitPublication_advances _ batchId
  | markPublicationAdmitted batchId => exact markPublicationAdmitted_advances fails now _ batchId
  | releaseGeneration generation => exact releaseGeneration_advances fails now _ generation

theorem quiet_advances (op : SagaOp) (hclaim : ∀ destinations, op ≠ .claimPublication destinations)
    (hprove : ∀ batchId server hash, op ≠ .recordBlobProof batchId server hash) :
    Advances (QuietMove acceptable) (sagaProgram acceptable fails now op) := by
  cases hplain : op.plain with
  | true => exact Advances.mono (fun _ _ h => h.quiet) (plain_advances acceptable fails now op hplain)
  | false =>
    cases op with
    | claimPublication destinations => exact absurd rfl (hclaim destinations)
    | recordBlobProof batchId server hash => exact absurd rfl (hprove batchId server hash)
    | beginPublicationRefresh lead =>
      refine advances_discarded (Advances.mono (fun _ _ h => .refresh h) ?_)
      exact beginPublicationRefresh_advances now lead
    | recordSigned batchId template event =>
      exact recordSigned_advances acceptable batchId template event
    | _ => cases hplain

theorem recordBlobProof_commits {batchId : ℕ} {server hash : String} {s t : WriteRepository}
    (ht : t ∈ ((recordBlobProof batchId server hash).run s).commits) :
    ∃ saga, s.publicationSagaByBatch batchId = some saga ∧ server ∈ saga.destinations ∧
      s.sagaBlobs.has (batchId, hash) = true ∧
      t = { s with proofs := s.proofs.insertOrIgnore ⟨batchId, server, hash⟩ } := by
  rw [recordBlobProof, Program.bind_read_run] at ht
  split at ht
  · simp at ht
  · next saga hsaga =>
    split_ifs at ht with hserver hblob
    · simp at ht
    · exact ⟨saga, hsaga, hserver, by simpa using hblob, by simpa using ht⟩
    · simp at ht

theorem saga_advances (op : SagaOp) :
    Advances (SagaMove acceptable) (sagaProgram acceptable fails now op) := by
  cases op with
  | claimPublication destinations =>
    refine advances_discarded (Advances.mono (fun _ _ h => .claim h) ?_)
    exact claimPublication_advances now destinations
  | recordBlobProof batchId server hash =>
    intro s t ht
    obtain ⟨saga, hsaga, hserver, hblob, rfl⟩ := recordBlobProof_commits ht
    exact Relation.ReflTransGen.single (.prove hsaga hserver hblob)
  | _ =>
    refine Advances.mono (fun _ _ h => .quiet h) ?_
    exact quiet_advances acceptable fails now _ (by simp) (by simp)

end Advancing

end NixstrCache.Persistence.WriteRepository
