import NixstrCache.Persistence.BatchTables

/-!
The publication batch scheduler.

Two timers watch the open window; the first one to fire claims the window into a batch and clears
both.  The builds of the batches run one after the other.  The log records the marks, the claimed
batches, and what becomes of the pending candidate, newest first; the scheduler never reads it.
-/

namespace NixstrCache.Write.BatchScheduler

open Durable KeyedTable Persistence Persistence.WriteRepository

/-- A claimed batch with the rows that it froze and the overlay that the clock stood for. -/
structure WindowClaim where
  batch : BatchRow
  entries : List BatchEntryRow
  overlay : List OverlayEntryRow
deriving DecidableEq

inductive Mark where
  | dirtied (token generation now : ℕ)
  | claimed (claim : WindowClaim)
  | recorded (generation : ℕ)
  | taken (generation : ℕ)
deriving DecidableEq

abbrev BatchJournal := Program.Logged WriteRepository Mark

abbrev SchedulerProgram (α : Type) := Program BatchJournal Failure α

section Notes

def noteNothing (_ _ : WriteRepository) : List Mark := []

def noteDirty (generation now : ℕ) (s _t : WriteRepository) : List Mark :=
  [.dirtied (s.dirtyWindow now).token generation now]

def noteBatch (s t : WriteRepository) : List Mark :=
  if t.batchSequence = s.batchSequence then []
  else (t.batches.find? t.batchSequence).toList.map fun batch =>
    .claimed ⟨batch, t.batchEntries.rows.filter fun e => e.batchId = batch.id,
      s.overlayEntries.rows.filter fun r => some r.generation = s.clock.generation⟩

def noteRecorded (generation : ℕ) (_s _t : WriteRepository) : List Mark :=
  [.recorded generation]

def noteTaken (s t : WriteRepository) : List Mark :=
  match s.pendingCandidate, t.pendingCandidate with
  | some candidate, none => [.taken candidate.generation]
  | _, _ => []

end Notes

/-- A timer calls back for its token at some time from `due` on, unless it is cleared before. -/
structure Timer where
  token : ℕ
  setAt : ℕ
  delay : ℕ
deriving DecidableEq, Repr

def Timer.due (t : Timer) : ℕ := t.setAt + t.delay

/-- `queue` is the chain of builds, the one under way or the next one first. -/
structure Scheduler where
  quiet : Option Timer
  maximum : Option Timer
  closed : Bool
  queue : List FrozenBatch
  building : Bool
deriving DecidableEq, Repr

/-- What the clock shows when a call reads it, and when it sets either timer. -/
structure Readings where
  now : ℕ
  quietAt : ℕ
  maximumAt : ℕ

section Operations

variable (quietDelay : ℕ)

def arm (c : Readings) (window : WindowTimes) (sch : Scheduler) : Scheduler :=
  { sch with
    quiet := some ⟨window.token, c.quietAt, window.lastDirtyAt + quietDelay - c.quietAt⟩
    maximum := some ⟨window.token, c.maximumAt, window.openedAt + 60000 - c.maximumAt⟩ }

def dirty (c : Readings) (generation : ℕ) (baseRoot : Option String) (sch : Scheduler) :
    SchedulerProgram Scheduler := do
  if sch.closed then pure sch
  else do
    let window ← (markPublicationDirty generation c.now baseRoot).logged (noteDirty generation c.now)
    pure (arm quietDelay c window sch)

/-- `#fire`.  Both timers are cleared before the claim. -/
def fire (token : ℕ) (sch : Scheduler) : SchedulerProgram Scheduler := do
  if sch.closed then pure sch
  else do
    let claim ← Program.attempt ((claimPublicationBatch token).logged noteBatch)
    match claim with
    | .ok (some batch) =>
      pure { sch with quiet := none, maximum := none, queue := sch.queue ++ [batch] }
    | _ => pure { sch with quiet := none, maximum := none }

def timerFires (now : ℕ) (timer : Option Timer) (sch : Scheduler) : SchedulerProgram Scheduler :=
  match timer with
  | some timer => if timer.due ≤ now then fire timer.token sch else pure sch
  | none => pure sch

/-- The next build starts to read the files of its batch. -/
def buildStarts (sch : Scheduler) : SchedulerProgram Scheduler := do
  match sch.building, sch.queue with
  | false, batch :: queue => do
    let j ← Program.read
    if j.state.batchReadable batch then pure { sch with building := true }
    else do
      (markBatchFailed batch.id).logged noteNothing
      pure { sch with queue := queue }
  | _, _ => pure sch

def recordBuild (fails : String → Option String) (now : ℕ) (batch : FrozenBatch) :
    Option HashtreeBuild → SchedulerProgram Unit
  | none => (markBatchFailed batch.id).logged noteNothing
  | some build => do
    let result ← Program.attempt
      ((recordPending fails now batch (candidateOf batch build) build.inventory build.runId).logged
        (noteRecorded batch.generation))
    match result with
    | .ok _ => pure ()
    | .error _ => (markBatchFailed batch.id).logged noteNothing

/-- The build under way ends with a tree or with an error. -/
def buildEnds (fails : String → Option String) (now : ℕ) (answer : Option HashtreeBuild)
    (sch : Scheduler) : SchedulerProgram Scheduler := do
  match sch.building, sch.queue with
  | true, batch :: queue => do
    recordBuild fails now batch answer
    pure { sch with queue := queue, building := false }
  | _, _ => pure sch

def construct (c : Readings) : SchedulerProgram Scheduler := do
  let j ← Program.read
  let sch : Scheduler := ⟨none, none, false, j.state.failedBatches, false⟩
  match j.state.activePublicationWindow with
  | some window => pure (arm quietDelay c window.times sch)
  | none => pure sch

def close (sch : Scheduler) : Scheduler :=
  { sch with quiet := none, maximum := none, closed := true }

end Operations

section Machine

inductive SchedulerEvent where
  | dirty (generation : ℕ) (baseRoot : Option String)
  | quietFires
  | maximumFires
  | buildStarts
  | buildEnds (answer : Option HashtreeBuild)
  | close
  | restart (retries : String → Option String)
  | staging (op : StagingOp)
  | saga (op : SagaOp)

structure SchedulerLabel where
  event : SchedulerEvent
  readings : Readings
  fails : String → Option String
  stop : Option ℕ

structure SchedulerState where
  journal : BatchJournal
  scheduler : Option Scheduler

variable (digest : Bytes → String) (acceptable : RawPublication → Bool) (quietDelay : ℕ)

def runs (m : SchedulerProgram Scheduler) : SchedulerProgram (Option Scheduler) := do
  let sch ← m
  pure (some sch)

def restart (l : SchedulerLabel) (retries : String → Option String) :
    SchedulerProgram Scheduler := do
  (reopen digest l.fails retries l.readings.now).logged noteNothing
  construct quietDelay l.readings

def alongside (note : WriteRepository → WriteRepository → List Mark) (m : RepositoryProgram Unit)
    (sch : Option Scheduler) : SchedulerProgram (Option Scheduler) := do
  let _ ← Program.attempt (m.logged note)
  pure sch

def SchedulerLabel.program (l : SchedulerLabel) (sch : Option Scheduler) :
    SchedulerProgram (Option Scheduler) :=
  match l.event, sch with
  | .dirty generation baseRoot, some sch => runs (dirty quietDelay l.readings generation baseRoot sch)
  | .quietFires, some sch => runs (timerFires l.readings.now sch.quiet sch)
  | .maximumFires, some sch => runs (timerFires l.readings.now sch.maximum sch)
  | .buildStarts, some sch => runs (buildStarts sch)
  | .buildEnds answer, some sch => runs (buildEnds l.fails l.readings.now answer sch)
  | .close, some sch => pure (some (close sch))
  | .restart retries, _ => runs (restart digest quietDelay l retries)
  | .staging op, sch => alongside noteNothing (stagingProgram digest l.fails l.readings.now op) sch
  | .saga op, sch => alongside noteTaken (sagaProgram acceptable l.fails l.readings.now op) sch
  | _, none => pure none

/-- A stop leaves no scheduler behind, nor does an opening that fails. -/
def schedulerStep (w : SchedulerState) (l : SchedulerLabel) : SchedulerState :=
  let outcome := (l.program digest acceptable quietDelay w.scheduler).run w.journal
  match l.stop with
  | none => ⟨outcome.final w.journal, (outcome.result.toOption).getD none⟩
  | some k =>
    let j := outcome.crash w.journal k
    ⟨{ j with state := j.state.forgetProcess }, none⟩

/-- An empty database before the first process opens it. -/
def schedulerInitial (capacity : ℕ) : SchedulerState :=
  ⟨⟨WriteRepository.initial capacity, []⟩, none⟩

end Machine

end NixstrCache.Write.BatchScheduler
