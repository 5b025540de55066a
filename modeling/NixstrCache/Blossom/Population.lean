import NixstrCache.Blossom.BlobFetcher

/-!
The fetches of one blob, read for read.

A fetch that finds nothing in the store asks its sources in turn.  The body of an answer passes through
a stream that reads ahead of the store, and the store writes what it takes from the stream.  Reads,
writes, failures of either side and the signal of the request come in any order, and so do other
requests for the blob, which take it from the store or wait for the fetch under way.
-/

namespace NixstrCache.Blossom

open Runs Persistence

/-- What ended the reads of a body: its own end, or the signal that cancelled its reader. -/
inductive BodyEnd where
  | finished
  | cancelled
deriving DecidableEq, Repr

structure Transfer where
  /-- What has been pulled and not taken by the store. -/
  queue : List Bytes
  /-- What `hash` has been updated with. -/
  received : Bytes
  written : Bytes
  reading : Bool
  /-- `completed` is set when there is an end. -/
  ended : Option BodyEnd
  errored : Bool
deriving DecidableEq, Repr

inductive PopulatePhase where
  | choosing
  | asking (source : SourceCandidate)
  | transferring (source : SourceCandidate) (t : Transfer)
  | settled (ok : Bool)
deriving DecidableEq, Repr

/-- `#populate`, with the origins that were in quarantine before and the bodies that have been read to
their end since. -/
structure Population where
  limits : FetchLimits
  sources : List SourceCandidate
  attempts : ℕ
  aborted : Bool
  phase : PopulatePhase
  before : List String
  delivered : List (String × Bytes)
deriving DecidableEq, Repr

/-- A request for the blob, with the size that is declared of it. -/
inductive Caller where
  | idle
  | waiting (declaredSize : Option ℕ)
  | resuming (declaredSize : Option ℕ)
  | returned (declaredSize : Option ℕ) (content : Bytes)
  | failed
deriving DecidableEq, Repr

structure Fetches where
  stored : Option Bytes
  quarantined : List String
  inflight : Option Population
  callers : ℕ → Caller

inductive PopulateEvent where
  /-- The loop goes on to the next source, unless the budget refuses an attempt. -/
  | choose (refused : Bool)
  | refuse
  | respond (status : ℕ) (length : ContentLength)
  | pull
  /-- A chunk arrives, and the budget may refuse it. -/
  | chunk (bytes : Bytes) (refused : Bool)
  | finish
  | disconnect
  | take
  | storeFails
  /-- The store meets the error of the stream. -/
  | reject
  /-- The store meets the end of the stream.  The blob may be gone when it is looked up, and
  `onVerifiedRemote` may throw. -/
  | settle (lost throws : Bool)
  | abort
deriving DecidableEq, Repr

inductive FetchEvent where
  | call (id : ℕ) (sources : List SourceCandidate) (limits : FetchLimits)
  | populate (e : PopulateEvent)
  /-- The fetch leaves the table, and those who wait for it are told. -/
  | land
  | resume (id : ℕ)
  | evict
  /-- Another part of the daemon stores the blob. -/
  | store (content : Bytes)
deriving DecidableEq, Repr

namespace Transfer

def start : Transfer :=
  ⟨[], [], [], false, none, false⟩

/-- `controller.error`. -/
def error (t : Transfer) : Transfer :=
  { t with queue := [], reading := false, errored := true }

def close (t : Transfer) (by' : BodyEnd) : Transfer :=
  { t with reading := false, ended := some by' }

def pull (t : Transfer) (aborted : Bool) : Transfer :=
  if t.queue = [] ∧ t.reading = false ∧ t.ended = none ∧ t.errored = false then
    if aborted then t.error else { t with reading := true }
  else t

def receive (t : Transfer) (limits : FetchLimits) (bytes : Bytes) (refused : Bool) : Transfer :=
  if refused ∨ limits.maxTransferBytes < t.received.length + bytes.length ∨
      (limits.declaredSize.any fun size => size < t.received.length + bytes.length) then t.error
  else { t with
    queue := t.queue ++ [bytes]
    received := t.received ++ bytes
    reading := false }

def take (t : Transfer) : Transfer :=
  match t.queue with
  | [] => t
  | bytes :: rest => { t with queue := rest, written := t.written ++ bytes }

end Transfer

/-- What a step of a fetch does to the fetch, the store and the quarantine. -/
structure Populated where
  population : Population
  stores : Option Bytes
  quarantines : Option String
deriving DecidableEq, Repr

namespace Population

variable (hash : Bytes → String) (expected : String)

def start (sources : List SourceCandidate) (limits : FetchLimits) (quarantined : List String) :
    Population :=
  ⟨limits, sources, 0, false, .choosing, quarantined, []⟩

def become (p : Population) (phase : PopulatePhase) : Populated :=
  ⟨{ p with phase := phase }, none, none⟩

/-- The attempt is over, and what was read to the end is on record. -/
def leave (p : Population) (source : SourceCandidate) (t : Transfer) (phase : PopulatePhase) :
    Population :=
  { p with
    phase := phase
    delivered :=
      if t.ended = some .finished then (source.origin, t.received) :: p.delivered else p.delivered }

/-- The attempt has failed in the store: other bytes than the expected ones quarantine the source when
the reads have come to an end. -/
def failAttempt (p : Population) (source : SourceCandidate) (t : Transfer) : Populated where
  population := p.leave source t .choosing
  stores := none
  quarantines := if t.ended.isSome ∧ hash t.received ≠ expected then some source.origin else none

def nextSource (quarantined : List String) (refused : Bool) (p : Population) : Populated :=
  match p.sources with
  | [] => p.become (.settled false)
  | source :: rest =>
    if p.limits.maxAttempts ≤ p.attempts then p.become (.settled false)
    else if source.origin ∈ quarantined then { p with sources := rest }.become .choosing
    else if refused then p.become (.settled false)
    else { p with sources := rest, attempts := p.attempts + 1 }.become (.asking source)

def respond (p : Population) (source : SourceCandidate) (status : ℕ) (length : ContentLength) :
    Populated :=
  if p.aborted = true ∨ status ≠ 200 ∨ p.limits.allows length = false then p.become .choosing
  else p.become (.transferring source .start)

/-- The store compares the hash of what it has written, and the size is compared after that. -/
def settle (p : Population) (source : SourceCandidate) (t : Transfer) (lost throws : Bool) :
    Populated :=
  if hash t.written ≠ expected then p.failAttempt hash expected source t
  else
    { population := p.leave source t
        (if (p.limits.declaredSize.all fun size => size = t.received.length) ∧ lost = false ∧
            throws = false then .settled true else .choosing)
      stores := some t.written
      quarantines := none }

/-- The signal cancels a read that is pending, and the read gives the end of the body. -/
def abort (p : Population) : Population :=
  match p.phase with
  | .transferring source t =>
    { p with
      aborted := true
      phase := .transferring source (if t.reading then t.close .cancelled else t) }
  | _ => { p with aborted := true }

def transfer (p : Population) (source : SourceCandidate) (t : Transfer) : PopulateEvent → Populated
  | .pull => p.become (.transferring source (t.pull p.aborted))
  | .chunk bytes refused =>
    p.become (.transferring source (if t.reading then t.receive p.limits bytes refused else t))
  | .finish => p.become (.transferring source (if t.reading then t.close .finished else t))
  | .disconnect => p.become (.transferring source (if t.reading then t.error else t))
  | .take => p.become (.transferring source t.take)
  | .storeFails => p.failAttempt hash expected source t
  | .reject => if t.errored then p.failAttempt hash expected source t else ⟨p, none, none⟩
  | .settle lost throws =>
    if t.queue = [] ∧ t.ended.isSome then p.settle hash expected source t lost throws
    else ⟨p, none, none⟩
  | _ => ⟨p, none, none⟩

def step (quarantined : List String) (p : Population) (e : PopulateEvent) : Populated :=
  match e with
  | .abort => ⟨p.abort, none, none⟩
  | e =>
    match p.phase with
    | .choosing =>
      match e with
      | .choose refused => p.nextSource quarantined refused
      | _ => ⟨p, none, none⟩
    | .asking source =>
      match e with
      | .refuse => p.become .choosing
      | .respond status length => p.respond source status length
      | _ => ⟨p, none, none⟩
    | .transferring source t => p.transfer hash expected source t e
    | .settled _ => ⟨p, none, none⟩

end Population

namespace Fetches

variable (hash : Bytes → String) (expected : String)

def setCaller (s : Fetches) (id : ℕ) (caller : Caller) : Fetches :=
  { s with callers := fun i => if i = id then caller else s.callers i }

/-- `BlobFetcher.fetch`: the store, then the fetch under way, then a fetch of its own. -/
def call (s : Fetches) (id : ℕ) (sources : List SourceCandidate) (limits : FetchLimits) : Fetches :=
  if s.callers id ≠ .idle then s
  else
    match s.stored with
    | some content => s.setCaller id (.returned limits.declaredSize content)
    | none =>
      { s with inflight := s.inflight.or (some (.start sources limits s.quarantined)) }.setCaller id
        (.waiting limits.declaredSize)

def populate (s : Fetches) (e : PopulateEvent) : Fetches :=
  match s.inflight with
  | none => s
  | some p =>
    let r := p.step hash expected s.quarantined e
    { s with
      stored := r.stores.or s.stored
      quarantined := r.quarantines.toList ++ s.quarantined
      inflight := some r.population }

def Caller.wake (ok : Bool) : Caller → Caller
  | .waiting declaredSize => if ok then .resuming declaredSize else .failed
  | caller => caller

def land (s : Fetches) : Fetches :=
  match s.inflight with
  | none => s
  | some p =>
    match p.phase with
    | .settled ok => { s with inflight := none, callers := fun i => Caller.wake ok (s.callers i) }
    | _ => s

/-- The blob is looked up once more after the wait. -/
def resume (s : Fetches) (id : ℕ) : Fetches :=
  match s.callers id with
  | .resuming declaredSize =>
    match s.stored with
    | some content => s.setCaller id (.returned declaredSize content)
    | none => s.setCaller id .failed
  | _ => s

def step (s : Fetches) : FetchEvent → Fetches
  | .call id sources limits => s.call id sources limits
  | .populate e => s.populate hash expected e
  | .land => s.land
  | .resume id => s.resume id
  | .evict => { s with stored := none }
  | .store content =>
    if hash content = expected ∧ s.stored = none then { s with stored := some content } else s

def initial (stored : Option Bytes) (quarantined : List String) : Fetches :=
  ⟨stored, quarantined, none, fun _ => .idle⟩

end Fetches

end NixstrCache.Blossom
