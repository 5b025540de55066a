import Mathlib.Data.List.Dedup
import Mathlib.Data.String.Basic
import NixstrCache.Persistence.Schema

/-!
Staging, overlay generations, the publication window and the frozen batches.

A generation of the overlay is never rewritten: a commit copies the current generation under the
next number and adds the routes of the newly eligible store paths.  The window of the publication
clock collects generations until one of its timers claims it into a frozen batch.
-/

namespace NixstrCache.Persistence.WriteRepository

open Durable KeyedTable

section Staging

def lookup (s : WriteRepository) (route : String) : Option StagedBlobRow :=
  s.stagedBlobs.find? route

/-- What `recordNarInfo` takes from a parsed narinfo. -/
structure StagingNarInfo where
  storePathHash : String
  url : String
  references : List String
  rawBytes : ℕ
deriving DecidableEq, Repr

def insertReferences (storePathHash : String) (references : List String)
    (s : WriteRepository) : Except Failure (Unit × WriteRepository) :=
  match (s.stagedReferences.filter fun r => r.storePathHash ≠ storePathHash).insertAll?
      (references.map fun r => ⟨storePathHash, r⟩) with
  | none => .error .uniqueConstraint
  | some stagedReferences => .ok ((), { s with stagedReferences := stagedReferences })

/-- `recordNarInfo`: the rows under either unique column give way to the new one. -/
def recordNarInfo (route : String) (info : StagingNarInfo) : RepositoryProgram Unit :=
  Program.transaction fun s =>
    insertReferences info.storePathHash (info.references.dedup.insertionSort (· ≤ ·))
      { s with
        stagedNarInfos := Table.insertOrReplace (s.stagedNarInfos.filter fun r => r.route ≠ route)
          ⟨info.storePathHash, route, info.url, info.rawBytes⟩ }

def insertStagedBlob (row : StagedBlobRow) : RepositoryProgram Unit :=
  Program.transaction fun s =>
    match s.stagedBlobs.insert? row with
    | none => .error .uniqueConstraint
    | some stagedBlobs => .ok ((), { s with stagedBlobs := stagedBlobs })

/-- The database part of `discard`. -/
def discard (route : String) : RepositoryProgram Unit := do
  let s ← Program.read
  match s.lookup route with
  | none => pure ()
  | some _ => Program.commit fun t =>
    { t with stagedBlobs := t.stagedBlobs.filter fun r => r.route ≠ route }

structure StagedNarInfo where
  storePathHash : String
  route : String
  narRoute : String
  references : List String
  metadataBytes : ℕ
deriving DecidableEq, Repr

def referencesOf (s : WriteRepository) (storePathHash : String) : List String :=
  ((s.stagedReferences.rows.filter fun r => r.storePathHash = storePathHash).map
    StagedReferenceRow.referenceHash).insertionSort (· ≤ ·)

/-- One round of the recursive query: the hashes that refer to a hash found so far. -/
def widen (s : WriteRepository) (found : List String) : List String :=
  (found ++ (s.stagedReferences.rows.filter fun r => r.referenceHash ∈ found).map
    StagedReferenceRow.storePathHash).dedup

/-- The transitive referrers of a hash.  Every round but the last adds a store path hash of
`staged_references`, so as many rounds as there are rows reach the fixpoint. -/
def affected (s : WriteRepository) (seed : String) : List String :=
  s.widen^[s.stagedReferences.rows.length] [seed]

def affectedCandidates (s : WriteRepository) (changed : String) (maxVisited : ℕ) :
    Except Failure (List StagedNarInfo) :=
  let seed : Option String :=
    if changed.startsWith "nar/" then
      (s.stagedNarInfos.rows.find? fun r => r.narRoute = changed).map StagedNarInfoRow.storePathHash
    else some (String.ofList (changed.toList.take 32))
  match truthy seed with
  | none => .ok []
  | some seed =>
    let found := s.affected seed
    let rows := (s.stagedNarInfos.rows.filter fun r => r.storePathHash ∈ found).insertionSort
      fun a b => a.storePathHash ≤ b.storePathHash
    if maxVisited < rows.length then
      .error (.rangeError "eligibility visited-node ceiling exceeded")
    else
      .ok (rows.map fun r =>
        ⟨r.storePathHash, r.route, r.narRoute, s.referencesOf r.storePathHash, r.metadataBytes⟩)

def stagedCandidateHashes (s : WriteRepository) (maxVisited : ℕ) : Except Failure (List String) :=
  let hashes := (s.stagedNarInfos.rows.map StagedNarInfoRow.storePathHash).insertionSort (· ≤ ·)
  if maxVisited < hashes.length then
    .error (.rangeError "eligibility visited-node ceiling exceeded")
  else .ok hashes

end Staging

section Generations

/-- `overlayEntries(generation)`. -/
def overlayEntriesOf (s : WriteRepository) (generation : ℕ) : List OverlayEntryRow :=
  (s.overlayEntries.rows.filter fun r => r.generation = generation).insertionSort
    fun a b => a.route ≤ b.route

/-- `overlayStorePaths(generation)`. -/
def overlayStorePathsOf (s : WriteRepository) (generation : ℕ) : List String :=
  (s.overlayStorePaths.rows.filter fun r => r.generation = generation).map
    OverlayStorePathRow.storePathHash

/-- The two insertions that start a commit: the previous generation under the next number. -/
def copyGeneration (s : WriteRepository) (previous generation : ℕ) :
    Except Failure WriteRepository :=
  match s.overlayEntries.insertAll?
      ((s.overlayEntries.rows.filter fun r => r.generation = previous).map fun r =>
        { r with generation := generation }) with
  | none => .error .uniqueConstraint
  | some overlayEntries =>
    match s.overlayStorePaths.insertAll?
        ((s.overlayStorePaths.rows.filter fun r => r.generation = previous).map fun r =>
          { r with generation := generation }) with
    | none => .error .uniqueConstraint
    | some overlayStorePaths =>
      .ok { s with overlayEntries := overlayEntries, overlayStorePaths := overlayStorePaths }

def commitStagedRoute (generation : ℕ) (route message : String) (s : WriteRepository) :
    Except Failure WriteRepository :=
  match s.lookup route with
  | none => .error (.error message)
  | some value =>
    .ok { s with
      overlayEntries := s.overlayEntries.insertOrReplace
        ⟨generation, value.route, value.digest, value.size, value.path⟩ }

def commitStorePath (generation : ℕ) (hash : String) (s : WriteRepository) :
    Except Failure WriteRepository :=
  match s.stagedNarInfos.find? hash with
  | none => .error (.error "eligible narinfo disappeared")
  | some row => do
    let s ← commitStagedRoute generation row.route "eligible blob disappeared" s
    let s ← commitStagedRoute generation row.narRoute "eligible blob disappeared" s
    .ok { s with overlayStorePaths := s.overlayStorePaths.insertOrIgnore ⟨generation, hash⟩ }

/-- The transaction of `commitOverlay`. -/
def advanceOverlay (hashes : List String) (s : WriteRepository) :
    Except Failure (ℕ × WriteRepository) := do
  let generation := s.currentGeneration + 1
  let copied ← s.copyGeneration s.currentGeneration generation
  let t ← (hashes.dedup.insertionSort (· ≤ ·)).foldlM
    (fun t hash => commitStorePath generation hash t) copied
  .ok (generation, { t with currentGeneration := generation })

def commitOverlay (hashes : List String) : RepositoryProgram ℕ := do
  let s ← Program.read
  if hashes = [] then pure s.currentGeneration
  else Program.transaction (advanceOverlay hashes)

end Generations

section Window

def dirtyWindow (s : WriteRepository) (now : ℕ) : WindowTimes :=
  ⟨s.clock.activeToken.getD s.clock.nextToken, s.clock.openedAt.getD now, now⟩

def markDirty (generation now : ℕ) (baseRoot : Option String) (s : WriteRepository) :
    WriteRepository :=
  let token := s.clock.activeToken.getD s.clock.nextToken
  { s with clock :=
    { nextToken := if s.clock.activeToken.isNone then token + 1 else s.clock.nextToken
      activeToken := some token
      generation := some (max generation (s.clock.generation.getD 0))
      openedAt := some (s.clock.openedAt.getD now)
      lastDirtyAt := some now
      baseRoot := baseRoot } }

def activePublicationWindow (s : WriteRepository) : Option ActivePublicationWindow :=
  match s.clock.activeToken, s.clock.generation, s.clock.openedAt, s.clock.lastDirtyAt with
  | some token, some generation, some openedAt, some lastDirtyAt =>
    some ⟨token, generation, openedAt, lastDirtyAt, truthy s.clock.baseRoot⟩
  | _, _, _, _ => none

def markPublicationDirty (generation now : ℕ) (baseRoot : Option String) :
    RepositoryProgram WindowTimes :=
  Program.transaction fun s => .ok (s.dirtyWindow now, s.markDirty generation now baseRoot)

def closedClock (nextToken : ℕ) : PublicationClock :=
  { initialClock with nextToken := nextToken }

def frozenEntries (s : WriteRepository) (id generation : ℕ) : List BatchEntryRow :=
  (s.overlayEntries.rows.filter fun r => r.generation = generation).map fun r =>
    ⟨id, r.generation, r.route, r.digest, r.size, r.path⟩

/-- `claimPublicationBatch`: a token that is not the one of the window claims nothing. -/
def claimBatch (token : ℕ) (s : WriteRepository) :
    Except Failure (Option FrozenBatch × WriteRepository) :=
  match s.clock.generation with
  | none => .ok (none, s)
  | some generation =>
    if s.clock.activeToken ≠ some token then .ok (none, s)
    else if s.batches.rows.any fun r => r.token = token then .error .uniqueConstraint
    else
      let id := s.batchSequence + 1
      match s.batches.insert? ⟨id, token, generation, s.clock.baseRoot, .building⟩,
          s.batchEntries.insertAll? (s.frozenEntries id generation) with
      | some batches, some batchEntries =>
        .ok (some ⟨id, token, generation, truthy s.clock.baseRoot,
            (batchEntries.rows.filter fun r => r.batchId = id).length⟩,
          { s with
            batchSequence := id
            batches := batches
            batchEntries := batchEntries
            clock := closedClock s.clock.nextToken })
      | _, _ => .error .uniqueConstraint

def claimPublicationBatch (token : ℕ) : RepositoryProgram (Option FrozenBatch) :=
  Program.transaction (claimBatch token)

def failedBatches (s : WriteRepository) : List FrozenBatch :=
  ((s.batches.rows.filter fun r => r.status = .failed).insertionSort fun a b => a.id ≤ b.id).map
    fun r => ⟨r.id, r.token, r.generation, truthy r.baseRoot,
      (s.batchEntries.rows.filter fun e => e.batchId = r.id).length⟩

def setBatchStatus (s : WriteRepository) (id : ℕ) (status : BatchStatus) : WriteRepository :=
  { s with
    batches := s.batches.update
      (fun r => if r.id = id then { r with status := status } else r)
      (fun r => by split <;> rfl) }

def markBatchFailed (id : ℕ) : RepositoryProgram Unit :=
  Program.commit fun s => s.setBatchStatus id .failed

/-- The check at the start of `publicationBatchFiles`. -/
def batchReadable (s : WriteRepository) (batch : FrozenBatch) : Bool :=
  (s.batches.find? batch.id).any fun r =>
    r.token = batch.token ∧ r.generation = batch.generation ∧
      (r.status = .building ∨ r.status = .failed)

end Window

end NixstrCache.Persistence.WriteRepository
