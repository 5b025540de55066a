import NixstrCache.Persistence.SagaStates

/-!
The publication coordinator.

`#run` is cut at its awaits.  A phase says which answer the coordinator is waiting for, and each
answer runs the program up to the next await.  Between two awaits any operation of the repository
may happen, and the process may stop after any commit.  The log records what the run has claimed,
proven, templated, signed and handed to the relays, newest first; the program never reads it.
-/

namespace NixstrCache.Write

open Durable KeyedTable Persistence Persistence.WriteRepository

inductive Entry where
  | claimed (rootHex : String) (inventory : List String)
  | proven (rootHex server hash : String)
  | templated (saga : SagaRow)
  | signed (saga : SagaRow)
  | published (saga : SagaRow)
deriving DecidableEq

abbrev Journal := Program.Logged WriteRepository Entry

abbrev CoordinatorProgram (α : Type) := Program Journal Failure α

/-- An operation of the repository, with what it adds to the log once it has committed. -/
abbrev repository {α : Type} (note : WriteRepository → WriteRepository → List Entry)
    (m : RepositoryProgram α) : CoordinatorProgram α :=
  m.logged note

def silently (_ _ : WriteRepository) : List Entry := []

def record (entry : Entry) : CoordinatorProgram Unit :=
  Program.commit fun j => { j with log := entry :: j.log }

def pendingInventory (s : WriteRepository) (candidate : PendingCandidate) : List String :=
  (s.pendingBlobs.rows.filter fun r => r.batchId = candidate.batchId).map InventoryRow.hash

def noteClaim (s t : WriteRepository) : List Entry :=
  match s.pendingCandidate, t.pendingCandidate with
  | some candidate, none => [.claimed candidate.rootHex (pendingInventory s candidate)]
  | _, _ => []

def noteProof (batchId : ℕ) (server hash : String) (s _t : WriteRepository) : List Entry :=
  match s.publicationSagaByBatch batchId with
  | some saga => [.proven saga.candidate.rootHex server hash]
  | none => []

structure CoordinatorOptions where
  kind : ℕ
  identifier : String
  pubkey : String
  nixSigKeys : List String
  lifetimeSeconds : ℕ
  refreshLeadSeconds : ℕ
  baseSeconds : ℕ
  maxSeconds : ℕ
  maxAttempts : ℕ
  concurrency : ℕ
  jitter : EndpointWorkKind → String → ℕ
  verifyEvent : RawPublication → Bool
  validatePublication : RawPublication → ℤ → Bool

/-- The acceptance test of `recordSigned`. -/
def CoordinatorOptions.acceptable (o : CoordinatorOptions) (event : RawPublication) : Bool :=
  o.verifyEvent event && o.validatePublication event event.createdAt

/-- A worker of `#replicateInitial` with the entries it has still to prove, the current one first. -/
structure Worker where
  server : String
  entries : List InventoryEntry
  complete : Bool

structure Replication where
  saga : SagaRow
  inventory : List InventoryEntry
  servers : List String
  relays : List String
  waiting : List String
  workers : List Worker
  completed : Bool
  cancelled : Bool
  aborted : Bool

inductive Phase where
  | idle
  | authorizing (saga : SagaRow) (inventory : List InventoryEntry) (servers relays : List String)
  | replicating (r : Replication)
  | signing (saga : SagaRow) (template : EventTemplate) (relays : List String)
  | publishing (saga : SagaRow) (relays : List String)
  | admitted
  | repairing (due : List EndpointWork)

/-- The clock, the answer of the selector and the outcome of file removals at a step. -/
structure Moment where
  now : ℕ
  selected : Bool
  fails : String → Option String

section Segments

variable (o : CoordinatorOptions) (m : Moment)

def outcome (work : EndpointWork) (ok : Bool) (code : EndpointWorkCode) :
    CoordinatorProgram Unit :=
  let attempt := work.attempts + 1
  let exhausted : Bool := !ok && (work.kind = .replica || o.maxAttempts ≤ attempt)
  let delay := min o.maxSeconds (o.baseSeconds * 2 ^ (attempt - 1))
  repository silently (recordEndpointOutcome work
    { ok := ok
      exhausted := exhausted
      code := if exhausted then .attemptLimit else code
      nextAttemptAt := m.now + delay + o.jitter work.kind work.target })

def claimInitial (work : EndpointWork) : CoordinatorProgram (Option EndpointWork) :=
  if work.status = .claimed then pure (some work)
  else repository silently (claimEndpointWork work.batchId work.kind work.target m.now)

def recordInitial (batchId : ℕ) (kind : EndpointWorkKind) (target : String) (ok : Bool) :
    CoordinatorProgram Unit := do
  let j ← Program.read
  match (j.state.endpointWork.find? (batchId, kind, target)).filter fun w =>
      w.status = .pending ∨ w.status = .claimed with
  | none => pure ()
  | some work => do
    let claimed ← claimInitial m work
    match claimed with
    | none => pure ()
    | some claimed => outcome o m claimed ok (if ok then .ok else .unavailable)

def published (s : WriteRepository) (work : EndpointWork) : Option SagaRow :=
  (s.publicationSagaByBatch work.batchId).filter fun saga =>
    saga.committed ∧ saga.signedEvent.isSome

/-- The part of `#repair` after the authorization.  `claimDueWork` yields relay work only. -/
def repair : CoordinatorProgram Phase := do
  let due ← repository silently (claimDueWork m.now o.concurrency)
  let j ← Program.read
  Program.forEach due fun work => do
    let j ← Program.read
    match published j.state work with
    | none => outcome o m work false .unavailable
    | some saga => record (.published saga)
  let awaited := due.filter fun work => (published j.state work).isSome
  pure (if awaited = [] then .idle else .repairing awaited)

def admission (saga : SagaRow) : CoordinatorProgram Phase := do
  if saga.admitted then pure .admitted
  else if m.selected then do
    repository silently (markPublicationAdmitted m.fails m.now saga.batchId)
    pure .admitted
  else Program.throw (.error "committed publication was not admitted by selector")

def conclude (saga : SagaRow) : CoordinatorProgram Phase := do
  if saga.committed then admission m saga
  else do
    repository silently (commitPublication saga.batchId)
    let j ← Program.read
    match j.state.publicationSaga with
    | none => Program.throw (.typeError "publication saga disappeared")
    | some saga => admission m saga

/-- The event of a signed saga goes to the relays, unless a relay has acknowledged it. -/
def announce (saga : SagaRow) (relays : List String) : CoordinatorProgram Phase := do
  repository silently (ensureEndpointWork saga.batchId .relay relays m.now)
  if saga.acknowledgedRelay = none then do
    record (.published saga)
    pure (.publishing saga relays)
  else conclude m saga

def templateOf (saga : SagaRow) (history : List SagaRow) : EventTemplate where
  kind := o.kind
  createdAt := (history.map fun item =>
    match item.signedEvent with
    | some event => event.createdAt + 1
    | none => 0).foldl max m.now
  tags := (if o.kind = 37091 then [["d", o.identifier]] else []) ++
    [["htree", "htree://" ++ saga.candidate.nhash]] ++
    saga.destinations.map (fun server => ["blossom", server]) ++
    o.nixSigKeys.map (fun key => ["nixSigKey", key]) ++
    [["expiration", toString (m.now + o.lifetimeSeconds)]]
  content := ""

/-- A saga with a complete server is templated for the signer, unless it has its event already. -/
def sign (saga : SagaRow) (relays : List String) : CoordinatorProgram Phase := do
  if saga.signedEvent = none then do
    let j ← Program.read
    record (.templated saga)
    pure (.signing saga (templateOf o m saga j.state.publicationHistory) relays)
  else announce m saga relays

def eligibleServers (s : WriteRepository) (batchId : ℕ) : List String :=
  ((s.endpointWork.rows.insertionSort fun a b => workBefore a b).filter fun w =>
    w.batchId = batchId ∧ w.kind = .replica ∧ w.status = .pending).map EndpointWork.target

/-- `#run` up to the authorization of the replicas, or to a later await. -/
def begin (destinations relays : List String) : CoordinatorProgram Phase := do
  let _ ← repository silently (beginPublicationRefresh m.now o.refreshLeadSeconds)
  let saga ← repository noteClaim (claimPublication destinations m.now)
  match saga with
  | none => pure .idle
  | some saga => do
    repository silently (ensureEndpointWork saga.batchId .replica saga.destinations m.now)
    let j ← Program.read
    if saga.completeServer = none then
      if eligibleServers j.state saga.batchId = [] then pure .idle
      else pure (.authorizing saga (j.state.publicationInventory saga.batchId)
        (eligibleServers j.state saga.batchId) relays)
    else sign o m saga relays

def failServers (batchId : ℕ) (servers : List String) : CoordinatorProgram Unit :=
  Program.forEach servers fun server => recordInitial o m batchId .replica server false

/-- The end of a worker's pass over the inventory: `true` when its server is complete. -/
def finishServer (saga : SagaRow) (server : String) (complete : Bool) :
    CoordinatorProgram Bool := do
  let j ← Program.read
  if complete && j.state.serverComplete saga.batchId server then do
    repository silently (recordCompleteServer saga.batchId server)
    recordInitial o m saga.batchId .replica server true
    pure true
  else do
    recordInitial o m saga.batchId .replica server false
    pure false

/-- The same inside the `try` of the worker. -/
def finishPass (saga : SagaRow) (server : String) (complete : Bool) : CoordinatorProgram Bool := do
  let result ← Program.attempt (finishServer o m saga server complete)
  match result with
  | .ok proven => pure proven
  | .error _ => do
    recordInitial o m saga.batchId .replica server false
    pure false

/-- The loop of a free worker up to its next proof or its return. -/
def takeServer (r : Replication) : List String → CoordinatorProgram Replication
  | [] => pure { r with waiting := [] }
  | server :: waiting =>
    if r.completed then pure { r with waiting := server :: waiting }
    else if server = "" then pure { r with waiting := waiting }
    else if r.inventory = [] then do
      let proven ← finishPass o m r.saga server true
      takeServer { r with completed := proven } waiting
    else if r.aborted then pure { r with waiting := waiting }
    else if r.cancelled then do
      recordInitial o m r.saga.batchId .replica server false
      takeServer r waiting
    else pure { r with
      waiting := waiting
      workers := r.workers ++ [⟨server, r.inventory, true⟩] }

/-- What follows the replication of a saga when every worker has returned. -/
def settle (r : Replication) : CoordinatorProgram Phase := do
  if r.workers ≠ [] then pure (.replicating r)
  else if r.aborted then do
    failServers o m r.saga.batchId r.servers
    Program.throw (.error "publication coordinator closed")
  else do
    let j ← Program.read
    match j.state.publicationSaga with
    | none => Program.throw (.typeError "publication saga disappeared")
    | some saga => if saga.completeServer = none then pure .idle else sign o m saga r.relays

def startWorkers : ℕ → Replication → CoordinatorProgram Replication
  | 0, r => pure r
  | n + 1, r => do
    let r ← takeServer o m r r.waiting
    startWorkers n r

/-- The answer of `prepareReplicaAuthorization`, and whether the upload is cancelled by then. -/
def authorized (saga : SagaRow) (inventory : List InventoryEntry) (servers relays : List String)
    (ok cancelled : Bool) : CoordinatorProgram Phase := do
  if ok then do
    let r ← startWorkers o m (min servers.length o.concurrency)
      ⟨saga, inventory, servers, relays, servers, [], false, cancelled, false⟩
    settle o m r
  else do
    failServers o m saga.batchId servers
    Program.throw (.error "replica authorization failed")

def abandonServer (r : Replication) (server : String) : CoordinatorProgram Phase := do
  if r.aborted then settle o m r
  else do
    recordInitial o m r.saga.batchId .replica server false
    let r ← takeServer o m r r.waiting
    settle o m r

/-- The next await of a worker: another proof, or what follows its pass. -/
def advanceWorker (r : Replication) (worker : Worker) : CoordinatorProgram Phase := do
  if worker.entries = [] then do
    let proven ← finishPass o m r.saga worker.server worker.complete
    let r ← takeServer o m { r with completed := r.completed || proven } r.waiting
    settle o m r
  else if r.aborted ∨ r.completed ∨ r.cancelled then abandonServer o m r worker.server
  else pure (.replicating { r with workers := r.workers ++ [worker] })

inductive ProofOutcome where
  | confirmed
  | refused
  | failed
deriving DecidableEq, Repr

/-- The answer of `prove` for the current entry of a worker. -/
def proved (r : Replication) (worker : Worker) (entry : InventoryEntry)
    (entries : List InventoryEntry) (answer : ProofOutcome) : CoordinatorProgram Phase := do
  match answer with
  | .failed => abandonServer o m r worker.server
  | .refused => advanceWorker o m r { worker with entries := entries, complete := false }
  | .confirmed => do
    let result ← Program.attempt (repository (noteProof r.saga.batchId worker.server entry.hash)
      (recordBlobProof r.saga.batchId worker.server entry.hash))
    match result with
    | .error _ => abandonServer o m r worker.server
    | .ok _ => advanceWorker o m r { worker with entries := entries }

/-- The answer of the signer, checked by `exactTemplate` and `validatePublication`. -/
def signerAnswered (saga : SagaRow) (template : EventTemplate) (relays : List String)
    (answer : Option RawPublication) : CoordinatorProgram Phase := do
  match answer with
  | none => Program.throw (.error "signer failed")
  | some event => do
    record (.signed saga)
    if ¬(event.pubkey = o.pubkey ∧ matchesTemplate template event ∧ o.verifyEvent event) then
      Program.throw (.error "signer changed publication template")
    else if o.validatePublication event m.now = false then
      Program.throw (.error "signed publication rejected")
    else do
      repository silently (recordSigned o.acceptable saga.batchId template event)
      let j ← Program.read
      match j.state.publicationSaga with
      | none => Program.throw (.typeError "publication saga disappeared")
      | some saga => announce m saga relays

/-- The answer of `publishRelays`. -/
def relaysAnswered (saga : SagaRow) (relays : List String)
    (answer : Option (List (String × Bool))) : CoordinatorProgram Phase := do
  match answer with
  | none => Program.throw (.error "relay publication failed")
  | some outcomes => do
    let j ← Program.read
    if (j.state.publicationSaga.map SagaRow.batchId) ≠ some saga.batchId then pure .idle
    else do
      Program.forEach relays fun relay =>
        recordInitial o m saga.batchId .relay relay ((relay, true) ∈ outcomes)
      match outcomes.find? fun result => result.2 ∧ result.1 ∈ relays with
      | none => pure .idle
      | some acknowledged => do
        repository silently (recordRelayAcknowledgement saga.batchId acknowledged.1)
        let j ← Program.read
        match j.state.publicationSaga with
        | none => Program.throw (.typeError "publication saga disappeared")
        | some saga => conclude m saga

def repaired (due : List EndpointWork) (work : EndpointWork) (answer : Option Bool) :
    CoordinatorProgram Phase := do
  match answer with
  | none => Program.throw (.error "relay publication failed")
  | some ok => do
    outcome o m work ok .rejected
    pure (if due = [] then .idle else .repairing due)

/-- `close`: the bounded awaits reject, and the workers reject at their next look at the signal. -/
def close (phase : Phase) : CoordinatorProgram Phase := do
  repository silently (restoreClaimedWork m.now)
  match phase with
  | .authorizing saga _ servers _ => do
    failServers o m saga.batchId servers
    pure .idle
  | .replicating r => pure (.replicating { r with aborted := true })
  | _ => pure .idle

end Segments

section Machine

inductive CoordinatorEvent where
  | tick (destinations relays : List String)
  | authorized (ok cancelled : Bool)
  | proved (slot : ℕ) (answer : ProofOutcome)
  | cancelReplicaUpload
  | signed (answer : Option RawPublication)
  | relaysAnswered (answer : Option (List (String × Bool)))
  | repairAuthorized (ok : Bool)
  | repaired (slot : ℕ) (answer : Option Bool)
  | close
  | operation (op : RepositoryOp)

structure CoordinatorLabel where
  event : CoordinatorEvent
  moment : Moment
  stop : Option ℕ

structure CoordinatorState where
  journal : Journal
  phase : Phase

def noteOp (op : RepositoryOp) : WriteRepository → WriteRepository → List Entry :=
  match op with
  | .saga (.claimPublication _) => noteClaim
  | .saga (.recordBlobProof batchId server hash) => noteProof batchId server hash
  | _ => silently

variable (digest : Bytes → String) (o : CoordinatorOptions)

/-- An operation by someone else.  Opening the database again takes a new process. -/
def operation (m : Moment) (op : RepositoryOp) (phase : Phase) : CoordinatorProgram Phase := do
  let _ ← Program.attempt (repository (noteOp op)
    (RepositoryLabel.program digest o.acceptable ⟨op, m.now, m.fails, none⟩))
  match op with
  | .reopen _ => pure .idle
  | _ => pure phase

/-- The program that an event runs.  An answer that nobody awaits changes nothing. -/
def CoordinatorLabel.program (l : CoordinatorLabel) (phase : Phase) : CoordinatorProgram Phase :=
  match l.event, phase with
  | .tick destinations relays, .idle => begin o l.moment destinations relays
  | .authorized ok cancelled, .authorizing saga inventory servers relays =>
    authorized o l.moment saga inventory servers relays ok cancelled
  | .proved slot answer, .replicating r =>
    match r.workers[slot]? with
    | some worker =>
      match worker.entries with
      | entry :: entries =>
        proved o l.moment { r with workers := r.workers.eraseIdx slot } worker entry entries answer
      | [] => pure (.replicating r)
    | none => pure (.replicating r)
  | .cancelReplicaUpload, .replicating r => pure (.replicating { r with cancelled := true })
  | .signed answer, .signing saga template relays =>
    signerAnswered o l.moment saga template relays answer
  | .relaysAnswered answer, .publishing saga relays =>
    relaysAnswered o l.moment saga relays answer
  | .repairAuthorized ok, .admitted =>
    if ok then repair o l.moment else Program.throw (.error "repair authorization failed")
  | .repaired slot answer, .repairing due =>
    match due[slot]? with
    | some work => repaired o l.moment (due.eraseIdx slot) work answer
    | none => pure (.repairing due)
  | .close, phase => close o l.moment phase
  | .operation op, phase => operation digest o l.moment op phase
  | _, phase => pure phase

/-- A failed run ends at the catch of `tick`; a stop leaves a process that knows nothing. -/
def coordinatorStep (w : CoordinatorState) (l : CoordinatorLabel) : CoordinatorState :=
  let outcome := (l.program digest o w.phase).run w.journal
  match l.stop with
  | none => ⟨outcome.final w.journal, (outcome.result.toOption).getD .idle⟩
  | some k =>
    let j := outcome.crash w.journal k
    ⟨{ j with state := j.state.forgetProcess }, .idle⟩

/-- What the program of a step establishes, the step establishes: a failed run and a new process are
idle. -/
theorem coordinatorStep_of_triple {w : CoordinatorState} {l : CoordinatorLabel} {E : Journal → Prop}
    {Q : Phase → Journal → Prop}
    (h : Triple (fun j => j = w.journal) (l.program digest o w.phase) E Q) (hw : E w.journal)
    (hidle : ∀ j, E j → Q .idle j) (hforget : ∀ j, E j → E { j with state := j.state.forgetProcess }) :
    Q (coordinatorStep digest o w l).phase (coordinatorStep digest o w l).journal := by
  obtain ⟨hcommits, hresult⟩ := h w.journal rfl
  cases hstop : l.stop with
  | none =>
    have hstep : coordinatorStep digest o w l =
        ⟨((l.program digest o w.phase).run w.journal).final w.journal,
          (((l.program digest o w.phase).run w.journal).result.toOption).getD .idle⟩ := by
      simp only [coordinatorStep, hstop]
    rw [hstep]
    cases hphase : ((l.program digest o w.phase).run w.journal).result with
    | ok phase => exact hresult phase hphase
    | error e =>
      refine hidle _ ?_
      rcases ((l.program digest o w.phase).run w.journal).final_mem w.journal with hfinal | hfinal
      · rwa [hfinal]
      · exact hcommits _ hfinal
  | some k =>
    have hstep : coordinatorStep digest o w l =
        ⟨⟨(((l.program digest o w.phase).run w.journal).crash w.journal k).state.forgetProcess,
          (((l.program digest o w.phase).run w.journal).crash w.journal k).log⟩, .idle⟩ := by
      simp only [coordinatorStep, hstop]
    rw [hstep]
    refine hidle _ (hforget _ ?_)
    rcases ((l.program digest o w.phase).run w.journal).crash_mem w.journal k with hcrash | hcrash
    · rwa [hcrash]
    · exact hcommits _ hcrash

def coordinatorInitial (capacity : ℕ) : CoordinatorState :=
  ⟨⟨WriteRepository.initial capacity, []⟩, .idle⟩

end Machine

end NixstrCache.Write
