import NixstrCache.Persistence.BlobStore
import NixstrCache.Protocol.Publication

/-!
The state of the write repository.

One record of keyed tables for staging, overlay generations, publication batches and publication
sagas, with the blob store behind the same connection, and the two volatile maps of the running
process.  Columns that hold JSON are the values that were encoded.  The single rows of
`overlay_state`, `publication_clock` and `pending_candidate` are plain fields.  The candidate tables
that are used only without a blob store stay empty in the daemon, which always opens one, and are
left out, as are the writer-run index files.
-/

namespace NixstrCache.Persistence

open Durable KeyedTable

export Protocol (RawPublication decimal)

structure StagedBlobRow where
  route : String
  digest : String
  size : ℕ
  path : String
deriving DecidableEq, Repr

structure StagedNarInfoRow where
  storePathHash : String
  route : String
  narRoute : String
  metadataBytes : ℕ
deriving DecidableEq, Repr

structure StagedReferenceRow where
  storePathHash : String
  referenceHash : String
deriving DecidableEq, Repr

def StagedReferenceRow.key (r : StagedReferenceRow) : String × String :=
  (r.storePathHash, r.referenceHash)

structure OverlayEntryRow where
  generation : ℕ
  route : String
  digest : String
  size : ℕ
  path : String
deriving DecidableEq, Repr

def OverlayEntryRow.key (r : OverlayEntryRow) : ℕ × String := (r.generation, r.route)

structure OverlayStorePathRow where
  generation : ℕ
  storePathHash : String
deriving DecidableEq, Repr

def OverlayStorePathRow.key (r : OverlayStorePathRow) : ℕ × String :=
  (r.generation, r.storePathHash)

structure PublicationClock where
  nextToken : ℕ
  activeToken : Option ℕ
  generation : Option ℕ
  openedAt : Option ℕ
  lastDirtyAt : Option ℕ
  baseRoot : Option String
deriving DecidableEq, Repr

inductive BatchStatus where
  | building
  | failed
  | pending
deriving DecidableEq, Repr

structure BatchRow where
  id : ℕ
  token : ℕ
  generation : ℕ
  baseRoot : Option String
  status : BatchStatus
deriving DecidableEq, Repr

structure BatchEntryRow where
  batchId : ℕ
  generation : ℕ
  route : String
  digest : String
  size : ℕ
  path : String
deriving DecidableEq, Repr

def BatchEntryRow.key (r : BatchEntryRow) : ℕ × String := (r.batchId, r.route)

structure FrozenBatch where
  id : ℕ
  token : ℕ
  generation : ℕ
  baseRoot : Option String
  entryCount : ℕ
deriving DecidableEq, Repr

structure ActivePublicationWindow where
  token : ℕ
  generation : ℕ
  openedAt : ℕ
  lastDirtyAt : ℕ
  baseRoot : Option String
deriving DecidableEq, Repr

structure WindowTimes where
  token : ℕ
  openedAt : ℕ
  lastDirtyAt : ℕ
deriving DecidableEq, Repr

def ActivePublicationWindow.times (w : ActivePublicationWindow) : WindowTimes :=
  ⟨w.token, w.openedAt, w.lastDirtyAt⟩

structure PendingCandidate where
  batchId : ℕ
  generation : ℕ
  rootHex : String
  nhash : String
  blobCount : ℕ
  totalBytes : ℕ
deriving DecidableEq, Repr

structure InventoryEntry where
  hash : String
  size : ℕ
  path : String
deriving DecidableEq, Repr

/-- A row of `pending_candidate_blobs` or `publication_saga_blobs`. -/
structure InventoryRow where
  batchId : ℕ
  hash : String
  size : ℕ
  path : String
deriving DecidableEq, Repr

def InventoryRow.key (r : InventoryRow) : ℕ × String := (r.batchId, r.hash)

def InventoryRow.under (batchId : ℕ) (r : InventoryRow) : InventoryRow :=
  { r with batchId := batchId }

/-- A finished build.  Its inventory holds at least the root manifest. -/
structure HashtreeBuild where
  rootHex : String
  rootNhash : String
  rootBlob : InventoryEntry
  otherBlobs : List InventoryEntry
  totalBytes : ℕ
  runId : Option String
deriving DecidableEq, Repr

def HashtreeBuild.inventory (b : HashtreeBuild) : List InventoryEntry :=
  b.rootBlob :: b.otherBlobs

structure EventTemplate where
  kind : ℕ
  createdAt : ℤ
  tags : List (List String)
  content : String
deriving DecidableEq, Repr

structure SagaRow where
  batchId : ℕ
  candidate : PendingCandidate
  destinations : List String
  completeServer : Option String
  template : Option EventTemplate
  signedEvent : Option RawPublication
  acknowledgedRelay : Option String
  committed : Bool
  admitted : Bool
deriving DecidableEq, Repr

structure HistoryRow where
  saga : SagaRow
  archivedAt : ℕ
deriving DecidableEq, Repr

def HistoryRow.batchId (r : HistoryRow) : ℕ := r.saga.batchId

structure ProofRow where
  batchId : ℕ
  server : String
  hash : String
deriving DecidableEq, Repr

def ProofRow.key (r : ProofRow) : ℕ × String × String := (r.batchId, r.server, r.hash)

def ProofRow.under (batchId : ℕ) (r : ProofRow) : ProofRow :=
  { r with batchId := batchId }

inductive EndpointWorkKind where
  | replica
  | relay
deriving DecidableEq, Repr

inductive EndpointWorkStatus where
  | pending
  | claimed
  | retry
  | complete
  | exhausted
deriving DecidableEq, Repr

inductive EndpointWorkCode where
  | ok
  | unavailable
  | timeout
  | rejected
  | attemptLimit
deriving DecidableEq, Repr

structure EndpointWork where
  batchId : ℕ
  kind : EndpointWorkKind
  target : String
  status : EndpointWorkStatus
  attempts : ℕ
  nextAttemptAt : ℕ
  code : EndpointWorkCode
deriving DecidableEq, Repr

def EndpointWork.key (r : EndpointWork) : ℕ × EndpointWorkKind × String :=
  (r.batchId, r.kind, r.target)

def EndpointWork.under (batchId : ℕ) (r : EndpointWork) : EndpointWork :=
  { r with batchId := batchId }

/-- A text that the code tests for truth: the empty one counts as absent. -/
def truthy : Option String → Option String
  | some text => if text = "" then none else some text
  | none => none

abbrev Bytes := List UInt8

structure WriteRepository where
  stagedBlobs : Table StagedBlobRow.route
  stagedNarInfos : Table StagedNarInfoRow.storePathHash
  stagedReferences : Table StagedReferenceRow.key
  currentGeneration : ℕ
  overlayEntries : Table OverlayEntryRow.key
  overlayStorePaths : Table OverlayStorePathRow.key
  clock : PublicationClock
  /-- `sqlite_sequence` of `publication_batches`. -/
  batchSequence : ℕ
  batches : Table BatchRow.id
  batchEntries : Table BatchEntryRow.key
  pendingCandidate : Option PendingCandidate
  pendingBlobs : Table InventoryRow.key
  sagas : Table SagaRow.batchId
  sagaBlobs : Table InventoryRow.key
  proofs : Table ProofRow.key
  history : Table HistoryRow.batchId
  endpointWork : Table EndpointWork.key
  blobs : BlobStore String Bytes
  /-- The highest generation this process has seen admitted. -/
  admittedGeneration : ℕ
  /-- The generations leased by readers of this process, one occurrence for each lease. -/
  generationLeases : List ℕ

namespace WriteRepository

abbrev RepositoryProgram (α : Type) := Program WriteRepository Failure α

def initialClock : PublicationClock where
  nextToken := 1
  activeToken := none
  generation := none
  openedAt := none
  lastDirtyAt := none
  baseRoot := none

/-- A new database after its first activation. -/
def initial (capacity : ℕ) : WriteRepository where
  stagedBlobs := .empty
  stagedNarInfos := .empty
  stagedReferences := .empty
  currentGeneration := 0
  overlayEntries := .empty
  overlayStorePaths := .empty
  clock := initialClock
  batchSequence := 0
  batches := .empty
  batchEntries := .empty
  pendingCandidate := none
  pendingBlobs := .empty
  sagas := .empty
  sagaBlobs := .empty
  proofs := .empty
  history := .empty
  endpointWork := .empty
  blobs := .empty capacity
  admittedGeneration := 0
  generationLeases := []

def onBlobs {α : Type} (m : BlobStore.StoreProgram String Bytes α) : RepositoryProgram α where
  run s :=
    let o := m.run s.blobs
    ⟨o.commits.map fun blobs => { s with blobs := blobs }, o.result⟩

end WriteRepository

end NixstrCache.Persistence
