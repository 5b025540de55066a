import NixstrCache.Persistence.LiveBlobs
import NixstrCache.Persistence.Overlay

/-!
Pending candidates, publication sagas and their endpoint work.

One saga at a time is active.  A newer pending candidate or a refresh archives it in the history and
puts its successor in its place; pruning removes what a finished archived saga has left behind.  The
acceptance test for signed events stands for the signature check and the validation of a publication.
-/

namespace NixstrCache.Persistence.WriteRepository

open Durable KeyedTable

section Pending

/-- The owner query of `recordPending`. -/
def runOwns (s : WriteRepository) (runId : String) (blob : InventoryEntry) : Bool :=
  blob.hash ∈ s.blobs.ownedBy (.run runId) ∧
    (s.blobs.row? blob.hash).any fun r => r.size = blob.size

def insertPendingBlob (batchId : ℕ) (runId : Option String) (blob : InventoryEntry)
    (s : WriteRepository) : Except Failure WriteRepository :=
  if (truthy runId).any fun runId => ¬s.runOwns runId blob then
    .error (.error "candidate inventory is not run-owned")
  else
    match s.pendingBlobs.insert? ⟨batchId, blob.hash, blob.size, blob.path⟩ with
    | none => .error .uniqueConstraint
    | some pendingBlobs => .ok { s with pendingBlobs := pendingBlobs }

/-- The blobs of a run pass to the batch, which must then own as many as the candidate counts. -/
def claimRunBlobs (batchId blobCount : ℕ) (runId : Option String) (s : WriteRepository) :
    Except Failure WriteRepository :=
  match truthy runId with
  | none => .ok s
  | some runId =>
    let blobs := s.blobs.copyOwner (.run runId) (.batch batchId)
    if (blobs.ownedBy (.batch batchId)).length ≠ blobCount then
      .error (.error "candidate durable ownership is incomplete")
    else .ok { s with blobs := blobs }

def setPendingStatus (s : WriteRepository) (id : ℕ) : WriteRepository :=
  { s with
    batches := s.batches.update
      (fun r => if r.id = id ∧ (r.status = .building ∨ r.status = .failed) then
        { r with status := .pending } else r)
      (fun r => by split <;> rfl) }

/-- The transaction of `recordPending`. -/
def storePending (batch : FrozenBatch) (candidate : PendingCandidate)
    (inventory : List InventoryEntry) (runId : Option String) (s : WriteRepository) :
    Except Failure (Unit × WriteRepository) := do
  let listed ← inventory.foldlM (fun t blob => insertPendingBlob batch.id runId blob t)
    { s with pendingBlobs := .empty }
  let claimed ← claimRunBlobs batch.id candidate.blobCount runId listed
  .ok ((), setPendingStatus { claimed with
    pendingCandidate := some { candidate with batchId := batch.id, generation := batch.generation } }
    batch.id)

def recordPending (fails : String → Option String) (now : ℕ) (batch : FrozenBatch)
    (candidate : PendingCandidate) (inventory : List InventoryEntry) (runId : Option String) :
    RepositoryProgram Unit := do
  let s ← Program.read
  Program.transaction (storePending batch candidate inventory runId)
  match s.pendingCandidate with
  | none => pure ()
  | some superseded =>
    if superseded.batchId = batch.id then pure ()
    else onBlobs (BlobStore.releaseOwner fails now (.batch superseded.batchId))

end Pending

section Sagas

def readSaga (r : SagaRow) : SagaRow :=
  { r with
    completeServer := truthy r.completeServer
    acknowledgedRelay := truthy r.acknowledgedRelay }

/-- `publicationSaga`: the active saga. -/
def publicationSaga (s : WriteRepository) : Option SagaRow :=
  (s.sagas.rows.insertionSort fun a b => a.batchId ≤ b.batchId).head?.map readSaga

def publicationHistory (s : WriteRepository) : List SagaRow :=
  (s.history.rows.insertionSort fun a b => a.batchId ≤ b.batchId).map fun r => readSaga r.saga

def publicationSagaByBatch (s : WriteRepository) (batchId : ℕ) : Option SagaRow :=
  match s.publicationSaga with
  | some active =>
    if active.batchId = batchId then some active
    else s.publicationHistory.find? fun saga => saga.batchId = batchId
  | none => s.publicationHistory.find? fun saga => saga.batchId = batchId

def updateSaga (s : WriteRepository) (batchId : ℕ) (f : SagaRow → SagaRow)
    (hf : ∀ r, (f r).batchId = r.batchId) : WriteRepository :=
  { s with
    sagas := s.sagas.update (fun r => if r.batchId = batchId then f r else r)
      (fun r => by split <;> simp [hf]) }

/-- The archived saga with the same root whose complete server `claimPublication` takes over. -/
def priorComplete (s : WriteRepository) (current : SagaRow) : Option SagaRow :=
  s.publicationHistory.reverse.find? fun item =>
    item.committed ∧ item.admitted ∧
      item.candidate.rootHex = current.candidate.rootHex ∧
      item.completeServer.any fun server => server ∈ current.destinations

/-- The first transaction of `claimPublication`. -/
def adoptServer (server : String) (batchId : ℕ) (s : WriteRepository) : WriteRepository :=
  { s with
    sagas := s.sagas.update
      (fun r => if r.batchId = batchId ∧ r.completeServer = none ∧ r.signedEvent = none then
        { r with completeServer := some server } else r)
      (fun r => by split <;> rfl)
    endpointWork := s.endpointWork.update
      (fun w => if w.batchId = batchId ∧ w.kind = .replica then
        { w with
          status := if w.target = server then .complete else .exhausted
          code := if w.target = server then .ok else .unavailable } else w)
      (fun w => by split <;> rfl) }

def adoptPriorServer : RepositoryProgram Unit := do
  let s ← Program.read
  match s.publicationSaga with
  | none => pure ()
  | some current =>
    if current.completeServer = none ∧ current.signedEvent = none then
      match s.priorComplete current with
      | some prior =>
        match prior.completeServer with
        | some server => Program.commit (adoptServer server current.batchId)
        | none => pure ()
      | none => pure ()
    else pure ()

def freshSaga (candidate : PendingCandidate) (destinations : List String) : SagaRow where
  batchId := candidate.batchId
  candidate := candidate
  destinations := destinations
  completeServer := none
  template := none
  signedEvent := none
  acknowledgedRelay := none
  committed := false
  admitted := false

/-- The rows of the active saga under an id, moved into the history. -/
def archiveSaga (s : WriteRepository) (batchId now : ℕ) : WriteRepository :=
  { s with
    history := ((s.sagas.rows.filter fun r => r.batchId = batchId).map fun r =>
      (⟨r, now⟩ : HistoryRow)).foldl Table.insertOrReplace s.history
    endpointWork := s.endpointWork.filter fun w => w.batchId ≠ batchId
    sagas := s.sagas.filter fun r => r.batchId ≠ batchId }

def sagaBlobsOf (s : WriteRepository) (batchId : ℕ) : List InventoryRow :=
  s.sagaBlobs.rows.filter fun r => r.batchId = batchId

def insertSaga (candidate : PendingCandidate) (destinations : List String) (s : WriteRepository) :
    Except Failure WriteRepository :=
  match s.sagas.insert? (freshSaga candidate destinations),
      s.sagaBlobs.insertAll? (s.pendingBlobs.rows.filter fun r => r.batchId = candidate.batchId) with
  | some sagas, some sagaBlobs =>
    .ok { s with
      sagas := sagas
      sagaBlobs := sagaBlobs
      blobs := (s.blobs.copyOwner (.batch candidate.batchId) (.saga candidate.batchId)).removeOwnerAll
        (.batch candidate.batchId)
      pendingCandidate := none
      pendingBlobs := .empty }
  | _, _ => .error .uniqueConstraint

/-- The second transaction of `claimPublication`. -/
def claimCandidate (candidate : PendingCandidate) (destinations : List String) (now : ℕ)
    (s : WriteRepository) : Except Failure (Unit × WriteRepository) :=
  match s.publicationSaga with
  | none => (insertSaga candidate destinations s).map fun t => ((), t)
  | some existing =>
    let replaceable : Bool := existing.admitted || existing.signedEvent.isNone
    let archived :=
      if replaceable ∧ existing.candidate.generation < candidate.generation then
        s.archiveSaga existing.batchId now
      else s
    if replaceable then (insertSaga candidate destinations archived).map fun t => ((), t)
    else .ok ((), archived)

def claimPublication (destinations : List String) (now : ℕ) :
    RepositoryProgram (Option SagaRow) := do
  adoptPriorServer
  let s ← Program.read
  match s.publicationSaga, s.pendingCandidate with
  | some current, none => pure (some current)
  | none, none => pure none
  | some current, some candidate =>
    if candidate.generation ≤ current.candidate.generation ∨
        (current.admitted = false ∧ current.signedEvent.isSome) then pure (some current)
    else if destinations = [] then pure none
    else do
      Program.transaction (claimCandidate candidate destinations now)
      let t ← Program.read
      pure t.publicationSaga
  | none, some candidate =>
    if destinations = [] then pure none
    else do
      Program.transaction (claimCandidate candidate destinations now)
      let t ← Program.read
      pure t.publicationSaga

def expirationOf (tags : List (List String)) : Option String :=
  (tags.find? fun tag => tag.head? = some "expiration").bind fun tag => tag[1]?

/-- `MAX(batch_id)` over the active and the archived sagas. -/
def maxSagaId (s : WriteRepository) : ℕ :=
  ((s.sagas.rows.map SagaRow.batchId) ++ (s.history.rows.map HistoryRow.batchId)).foldr max 0

def refreshedSaga (saga : SagaRow) (nextBatchId : ℕ) : SagaRow :=
  { freshSaga { saga.candidate with batchId := nextBatchId } saga.destinations with
    completeServer := saga.completeServer }

/-- The transaction of `beginPublicationRefresh`. -/
def refreshSaga (saga : SagaRow) (now : ℕ) (s : WriteRepository) :
    Except Failure (Unit × WriteRepository) :=
  let nextBatchId := s.maxSagaId + 1
  let history := ((s.sagas.rows.filter fun r => r.batchId = saga.batchId).map fun r =>
    (⟨r, now⟩ : HistoryRow)).foldl Table.insertOrIgnore s.history
  match s.sagaBlobs.insertAll? ((s.sagaBlobsOf saga.batchId).map (InventoryRow.under nextBatchId)),
      s.sagas.insert? (refreshedSaga saga nextBatchId),
      s.proofs.insertAll? ((s.proofs.rows.filter fun r => r.batchId = saga.batchId).map
        (ProofRow.under nextBatchId)),
      s.endpointWork.insertAll? ((s.endpointWork.rows.filter fun w =>
        w.batchId = saga.batchId ∧ w.kind = .replica).map (EndpointWork.under nextBatchId)) with
  | some sagaBlobs, some sagas, some proofs, some endpointWork =>
    .ok ((), { s with
      history := history
      sagaBlobs := sagaBlobs.filter fun r => r.batchId ≠ saga.batchId
      sagas := sagas.filter fun r => r.batchId ≠ saga.batchId
      proofs := proofs.filter fun r => r.batchId ≠ saga.batchId
      endpointWork := endpointWork.filter fun w => w.batchId ≠ saga.batchId
      blobs := s.blobs.copyOwner (.saga saga.batchId) (.saga nextBatchId) })
  | _, _, _, _ => .error .uniqueConstraint

/-- The saga that `beginPublicationRefresh` refreshes at a time. -/
def refreshable (s : WriteRepository) (now refreshLeadSeconds : ℕ) : Option SagaRow :=
  s.publicationSaga.filter fun saga =>
    saga.committed ∧ saga.admitted ∧
      (truthy (saga.signedEvent.bind fun event => expirationOf event.tags)).any fun expiration =>
        decimal expiration ≤ now + refreshLeadSeconds

def beginPublicationRefresh (now refreshLeadSeconds : ℕ) : RepositoryProgram Bool := do
  let s ← Program.read
  match s.refreshable now refreshLeadSeconds with
  | none => pure false
  | some saga => do
    Program.transaction (refreshSaga saga now)
    pure true

end Sagas

section Proofs

def publicationInventory (s : WriteRepository) (batchId : ℕ) : List InventoryEntry :=
  ((s.sagaBlobsOf batchId).insertionSort fun a b => a.hash ≤ b.hash).map fun r =>
    ⟨r.hash, r.size, r.path⟩

def recordBlobProof (batchId : ℕ) (server hash : String) : RepositoryProgram Unit := do
  let s ← Program.read
  match s.publicationSagaByBatch batchId with
  | none => Program.throw (.error "proof server is not part of the claimed saga")
  | some saga =>
    if server ∉ saga.destinations then
      Program.throw (.error "proof server is not part of the claimed saga")
    else if s.sagaBlobs.has (batchId, hash) = false then
      Program.throw (.error "proof hash is not part of the claimed inventory")
    else
      Program.commit fun t =>
        { t with proofs := t.proofs.insertOrIgnore ⟨batchId, server, hash⟩ }

def proofsOf (s : WriteRepository) (batchId : ℕ) (server : String) : List ProofRow :=
  s.proofs.rows.filter fun r => r.batchId = batchId ∧ r.server = server

/-- `serverComplete`: the rows of the inventory and of the proofs are counted. -/
def serverComplete (s : WriteRepository) (batchId : ℕ) (server : String) : Bool :=
  0 < (s.sagaBlobsOf batchId).length ∧
    (s.sagaBlobsOf batchId).length = (s.proofsOf batchId server).length

def setCompleteServer (server : String) (r : SagaRow) : SagaRow :=
  { r with completeServer := r.completeServer.or (some server) }

/-- The update of the history in `recordCompleteServer`. -/
def completeArchived (s : WriteRepository) (batchId : ℕ) (server : String) : WriteRepository :=
  { s with
    history := s.history.update
      (fun r => if r.batchId = batchId then { r with saga := setCompleteServer server r.saga } else r)
      (fun r => by split <;> rfl) }

def recordCompleteServer (batchId : ℕ) (server : String) : RepositoryProgram Unit := do
  let s ← Program.read
  if s.serverComplete batchId server = false then
    Program.throw (.error "server is not complete")
  else if s.publicationSaga.any fun saga => saga.batchId = batchId then
    Program.commit fun t => t.updateSaga batchId (setCompleteServer server) fun _ => rfl
  else Program.commit fun t => t.completeArchived batchId server

end Proofs

section Signing

def matchesTemplate (template : EventTemplate) (event : RawPublication) : Bool :=
  event.kind = template.kind ∧ event.createdAt = template.createdAt ∧
    event.content = template.content ∧ event.tags = template.tags

def setSigned (template : EventTemplate) (event : RawPublication) (r : SagaRow) : SagaRow :=
  { r with
    template := r.template.or (some template)
    signedEvent := r.signedEvent.or (some event) }

/-- `recordSigned`.  `acceptable` stands for `verifyEvent` and `validatePublication` at the creation
time of the event. -/
def recordSigned (acceptable : RawPublication → Bool) (batchId : ℕ) (template : EventTemplate)
    (event : RawPublication) : RepositoryProgram Unit := do
  let s ← Program.read
  match s.publicationSaga with
  | none => Program.throw (.error "complete replica proof required before signing")
  | some saga =>
    if saga.completeServer = none then
      Program.throw (.error "complete replica proof required before signing")
    else if ¬(matchesTemplate template event && acceptable event) then
      Program.throw (.error "signed event differs from template")
    else if saga.signedEvent.any fun signed => signed ≠ event then
      Program.throw (.error "signed event is immutable")
    else Program.commit fun t => t.updateSaga batchId (setSigned template event) fun _ => rfl

def setAcknowledged (relay : String) (r : SagaRow) : SagaRow :=
  { r with acknowledgedRelay := r.acknowledgedRelay.or (some relay) }

def recordRelayAcknowledgement (batchId : ℕ) (relay : String) : RepositoryProgram Unit := do
  let s ← Program.read
  if s.publicationSaga.any fun saga => saga.signedEvent.isSome then
    Program.commit fun t => t.updateSaga batchId (setAcknowledged relay) fun _ => rfl
  else Program.throw (.error "signed event required before acknowledgement")

def commitPublication (batchId : ℕ) : RepositoryProgram Unit := do
  let s ← Program.read
  if s.publicationSaga.any fun saga => saga.acknowledgedRelay.isSome then
    Program.commit fun t => t.updateSaga batchId (fun r => { r with committed := true }) fun _ => rfl
  else Program.throw (.error "relay acknowledgement required before commit")

end Signing

section Work

def ensureEndpointWork (batchId : ℕ) (kind : EndpointWorkKind) (targets : List String) (now : ℕ) :
    RepositoryProgram Unit :=
  Program.commit fun s =>
    { s with
      endpointWork := s.endpointWork.insertAllOrIgnore (targets.map fun target =>
        ⟨batchId, kind, target, .pending, 0, now, .unavailable⟩) }

def EndpointWorkStatus.due : EndpointWorkStatus → Bool
  | .pending | .retry => true
  | _ => false

/-- The order of `endpointWork`; the kinds compare as their texts, `relay` before `replica`. -/
def workBefore (a b : EndpointWork) : Bool :=
  let rank : EndpointWorkKind → ℕ := fun | .relay => 0 | .replica => 1
  a.nextAttemptAt < b.nextAttemptAt ∨ a.nextAttemptAt = b.nextAttemptAt ∧
    (a.batchId < b.batchId ∨ a.batchId = b.batchId ∧
      (rank a.kind < rank b.kind ∨ rank a.kind = rank b.kind ∧ a.target ≤ b.target))

def setClaimed (s : WriteRepository) (keys : List (ℕ × EndpointWorkKind × String)) :
    WriteRepository :=
  { s with
    endpointWork := s.endpointWork.update
      (fun w => if w.key ∈ keys ∧ EndpointWorkStatus.due w.status then
        { w with status := .claimed } else w)
      (fun w => by split <;> rfl) }

def dueWork (s : WriteRepository) (now limit : ℕ) : List EndpointWork :=
  ((s.endpointWork.rows.filter fun w =>
    (s.publicationSaga.any fun saga => saga.batchId = w.batchId) ∧ w.kind = .relay ∧
      EndpointWorkStatus.due w.status ∧ w.nextAttemptAt ≤ now).insertionSort
    fun a b => workBefore a b).take limit

def claimDueWork (now limit : ℕ) : RepositoryProgram (List EndpointWork) := do
  let s ← Program.read
  Program.commit fun t => t.setClaimed ((s.dueWork now limit).map EndpointWork.key)
  pure ((s.dueWork now limit).map fun w => { w with status := .claimed })

def claimEndpointWork (batchId : ℕ) (kind : EndpointWorkKind) (target : String) (now : ℕ) :
    RepositoryProgram (Option EndpointWork) := do
  let s ← Program.read
  match (s.endpointWork.find? (batchId, kind, target)).filter fun w =>
      EndpointWorkStatus.due w.status ∧ w.nextAttemptAt ≤ now with
  | none => pure none
  | some w => do
    Program.commit fun t => t.setClaimed [w.key]
    pure (some { w with status := .claimed })

def restoreClaimedWork (now : ℕ) : RepositoryProgram Unit :=
  Program.commit fun s =>
    { s with
      endpointWork := s.endpointWork.update
        (fun w => if w.status = .claimed then
          { w with status := .retry, nextAttemptAt := now, code := .unavailable } else w)
        (fun w => by split <;> rfl) }

structure EndpointOutcome where
  ok : Bool
  nextAttemptAt : ℕ
  code : EndpointWorkCode
  exhausted : Bool
deriving DecidableEq, Repr

def EndpointOutcome.status (o : EndpointOutcome) : EndpointWorkStatus :=
  if o.ok then .complete else if o.exhausted then .exhausted else .retry

def recordEndpointOutcome (work : EndpointWork) (outcome : EndpointOutcome) :
    RepositoryProgram Unit := do
  let s ← Program.read
  if (s.endpointWork.find? work.key).any fun w => w.status = .claimed then
    Program.commit fun t =>
      { t with
        endpointWork := t.endpointWork.update
          (fun w => if w.key = work.key ∧ w.status = .claimed then
            { w with
              status := outcome.status
              attempts := w.attempts + 1
              nextAttemptAt := outcome.nextAttemptAt
              code := outcome.code } else w)
          (fun w => by split <;> rfl) }
  else Program.throw (.error "endpoint work claim lost")

end Work

section Pruning

def releasable (s : WriteRepository) : List ℕ :=
  (s.history.rows.filter fun h => ¬s.endpointWork.rows.any fun w =>
    w.batchId = h.batchId ∧ w.status ≠ .complete ∧ w.status ≠ .exhausted).map HistoryRow.batchId

/-- The generations whose overlay rows go: older than the admitted one, not current, not leased. -/
def staleGeneration (s : WriteRepository) (generation : ℕ) : Bool :=
  generation < s.admittedGeneration ∧ generation ≠ s.currentGeneration ∧
    generation ∉ s.generationLeases ∧
    s.overlayEntries.rows.any fun r => r.generation = generation

/-- The transaction of `#pruneAdmitted`. -/
def pruneRows (s : WriteRepository) : WriteRepository :=
  { s with
    overlayEntries := s.overlayEntries.filter fun r => ¬s.staleGeneration r.generation
    overlayStorePaths := s.overlayStorePaths.filter fun r => ¬s.staleGeneration r.generation
    proofs := s.proofs.filter fun r => r.batchId ∉ s.releasable
    endpointWork := s.endpointWork.filter fun w => w.batchId ∉ s.releasable
    sagaBlobs := s.sagaBlobs.filter fun r => r.batchId ∉ s.releasable
    batchEntries := s.batchEntries.filter fun r => r.batchId ∉ s.releasable
    batches := s.batches.filter fun r => r.id ∉ s.releasable }

def pruneAdmitted (fails : String → Option String) (now : ℕ) : RepositoryProgram Unit := do
  let s ← Program.read
  if s.admittedGeneration = 0 then pure ()
  else do
    Program.commit pruneRows
    Program.forEach s.releasable fun batchId =>
      onBlobs (BlobStore.releaseOwner fails now (.saga batchId))

def markPublicationAdmitted (fails : String → Option String) (now batchId : ℕ) :
    RepositoryProgram Unit := do
  let s ← Program.read
  match s.publicationSaga with
  | none => Program.throw (.error "publication commit required before admission")
  | some saga =>
    if saga.committed = false then
      Program.throw (.error "publication commit required before admission")
    else do
      Program.commit fun t => t.updateSaga batchId (fun r => { r with admitted := true }) fun _ => rfl
      Program.commit fun t =>
        { t with admittedGeneration := max t.admittedGeneration saga.candidate.generation }
      pruneAdmitted fails now

def acquireGeneration (generation : ℕ) : RepositoryProgram Unit :=
  Program.commit fun s => { s with generationLeases := generation :: s.generationLeases }

/-- The first call of the function that `acquireGeneration` returns. -/
def releaseGeneration (fails : String → Option String) (now generation : ℕ) :
    RepositoryProgram Unit := do
  Program.commit fun s => { s with generationLeases := s.generationLeases.erase generation }
  pruneAdmitted fails now

end Pruning

section Activation

def forgetProcess (s : WriteRepository) : WriteRepository :=
  { s with
    blobs := s.blobs.dropLeases
    admittedGeneration := 0
    generationLeases := [] }

/-- The transaction of `#activate`. -/
def activateRows (s : WriteRepository) : WriteRepository :=
  { s with
    endpointWork := s.endpointWork.update
      (fun w => if w.status = .claimed then { w with status := .retry } else w)
      (fun w => by split <;> rfl)
    batches := s.batches.update
      (fun r => if r.status = .building then { r with status := .failed } else r)
      (fun r => by split <;> rfl) }

/-- A new process opens the database: `openBlobStore` reconciles the blobs, then `bindIdentity`
activates the repository. -/
def reopen (digest : Bytes → String) (fails retries : String → Option String) (now : ℕ) :
    RepositoryProgram Unit := do
  Program.commit forgetProcess
  onBlobs (BlobStore.reconcile digest List.length fails retries now)
  Program.commit activateRows

end Activation

end NixstrCache.Persistence.WriteRepository
