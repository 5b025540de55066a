import NixstrCache.Lib.Runs
import NixstrCache.Persistence.Schema

/-!
Requests that fetch one blob at the same time.

All requests here are for one hash.  `BlobFetcher` keeps one fetch of it under way and lets later
requests wait for it; the manifest cache keeps one load for each source plan, and loads fetch through
the same fetcher.  A fetch belongs to the request that started it: its sources, its limits, its budget
and, unless it was started by a load, its signal.  Time passes in ticks, and a tick takes the fetch
under way one step further.
-/

namespace NixstrCache.Blossom

open Runs Persistence

inductive SourceTrust where
  | publisher
  | configured
deriving DecidableEq, Repr

inductive SourceRole where
  | publisher
deriving DecidableEq, Repr

structure SourceCandidate where
  baseUrl : String
  origin : String
  trust : SourceTrust
  role : SourceRole
deriving DecidableEq, Repr

inductive ContentLength where
  | absent
  | invalid
  | length (bytes : ℕ)
deriving DecidableEq, Repr

/-- What a source answers when it is asked for the blob. -/
structure Answer where
  /-- The ticks before the headers arrive. -/
  wait : ℕ
  /-- The connection is refused or fails. -/
  refused : Bool
  status : ℕ
  contentLength : ContentLength
  /-- What arrives in each tick of the body, nothing where the transport fails. -/
  body : List (Option Bytes)
deriving DecidableEq, Repr

structure Network where
  hash : Bytes → String
  /-- The hash of the blob that is fetched. -/
  expected : String
  answer : SourceCandidate → Answer
  /-- Whether the blob store has room for a reservation. -/
  reserves : ℕ → Bool
  /-- `decodeValidatedManifest`: the decoded bytes, or `none` where it throws. -/
  decodes : Bytes → Option ℕ
  /-- `maxDecodedBytes` of the manifest cache. -/
  maxCachedBytes : ℕ
  /-- `maxWireBytes` of the manifest limits. -/
  maxWireBytes : ℕ

/-- `RequestBudget`, with what the request has used so far. -/
structure RequestBudget where
  maxUniqueNodes : ℕ
  maxDecodedBytes : ℕ
  maxAttempts : ℕ
  maxConcurrent : ℕ
  maxBlobTransferBytes : ℕ
  maxTransferredBytes : ℕ
  deadline : ℕ
  nodes : ℕ
  decoded : ℕ
  attempts : ℕ
  concurrent : ℕ
  transferred : ℕ
deriving DecidableEq, Repr

structure FetchLimits where
  maxAttempts : ℕ
  maxTransferBytes : ℕ
  declaredSize : Option ℕ
deriving DecidableEq, Repr

/-- A raw fetch, with what is declared of it and its ceiling, or a manifest through the cache. -/
inductive RequestKind where
  | direct (declaredSize : Option ℕ) (transferCeiling : ℕ)
  | manifest
deriving DecidableEq, Repr

structure Request where
  id : ℕ
  kind : RequestKind
  sources : List SourceCandidate
  budget : RequestBudget
deriving DecidableEq, Repr

inductive Stage where
  | waiting (ticks : ℕ)
  | reading (rest : List (Option Bytes)) (received : Bytes)
deriving DecidableEq, Repr

structure Attempt where
  source : SourceCandidate
  stage : Stage
deriving DecidableEq, Repr

structure Flight where
  owner : ℕ
  /-- Whether the signal of the owner ends it. -/
  signalled : Bool
  limits : FetchLimits
  budget : RequestBudget
  sources : List SourceCandidate
  attempts : ℕ
  attempt : Option Attempt
deriving DecidableEq, Repr

/-- What one step of a fetch does: the fetch goes on, or settles. -/
structure Progress where
  flight : Option Flight
  ok : Bool
  quarantines : Option String
  admits : Option Bytes
deriving DecidableEq, Repr

structure BlobFetcher where
  now : ℕ
  /-- The requests whose signals have been aborted. -/
  aborted : List ℕ
  stored : Option Bytes
  quarantined : List String
  inflight : Option Flight
  /-- How the fetches so far have settled. -/
  landed : List Bool
deriving DecidableEq, Repr

inductive Phase where
  | idle
  /-- It awaits the fetch. -/
  | waiting
  /-- It awaits a load of the manifest. -/
  | loading (r : Request)
  | done (ok : Bool)
deriving DecidableEq, Repr

structure Fetching where
  blobs : BlobFetcher
  /-- The source plans of the loads under way. -/
  loads : List (List SourceCandidate)
  /-- The manifest, once the cache has it. -/
  completed : Option Bytes
  phases : ℕ → Phase

section Flights

variable (net : Network)

def Progress.flying (f : Flight) : Progress :=
  ⟨some f, false, none, none⟩

def Progress.settled (ok : Bool) : Progress :=
  ⟨none, ok, none, none⟩

def Progress.failed (f : Flight) : Progress :=
  .flying { f with attempt := none }

def Flight.nextSource (now : ℕ) (quarantined : List String) (f : Flight) : Progress :=
  match f.sources with
  | [] => .settled false
  | source :: rest =>
    if f.limits.maxAttempts ≤ f.attempts then .settled false
    else if source.origin ∈ quarantined then .flying { f with sources := rest }
    else if f.budget.deadline ≤ now ∨ f.budget.maxAttempts ≤ f.budget.attempts then .settled false
    else
      .flying { f with
        sources := rest
        attempts := f.attempts + 1
        budget := { f.budget with attempts := f.budget.attempts + 1 }
        attempt := some ⟨source, .waiting (net.answer source).wait⟩ }

def FetchLimits.allows (limits : FetchLimits) : ContentLength → Bool
  | .absent => true
  | .invalid => false
  | .length bytes =>
    bytes ≤ limits.maxTransferBytes ∧ limits.declaredSize.all fun size => bytes = size

def Flight.accepts (f : Flight) (answer : Answer) : Bool :=
  answer.refused = false ∧ answer.status = 200 ∧ f.limits.allows answer.contentLength ∧
    net.reserves (f.limits.declaredSize.getD f.limits.maxTransferBytes)

def Flight.receive (now : ℕ) (f : Flight) (source : SourceCandidate) (rest : List (Option Bytes))
    (received chunk : Bytes) : Progress :=
  if f.budget.deadline ≤ now ∨
      f.budget.maxTransferredBytes < f.budget.transferred + chunk.length then .failed f
  else
    let f := { f with
      budget := { f.budget with transferred := f.budget.transferred + chunk.length } }
    if f.limits.maxTransferBytes < received.length + chunk.length ∨
        (f.limits.declaredSize.any fun size => size < received.length + chunk.length) then .failed f
    else .flying { f with attempt := some ⟨source, .reading rest (received ++ chunk)⟩ }

/-- The end of the body: a blob of the hash is admitted before its size is compared. -/
def Flight.complete (f : Flight) (source : SourceCandidate) (received : Bytes) : Progress :=
  if net.hash received ≠ net.expected then
    { Progress.failed f with quarantines := some source.origin }
  else if f.limits.declaredSize.all fun size => size = received.length then
    { Progress.settled true with admits := some received }
  else { Progress.failed f with admits := some received }

/-- The next step of a fetch.  A read that the signal has cancelled reads as the end of the body. -/
def Flight.advance (aborted : Bool) (now : ℕ) (quarantined : List String) (f : Flight) : Progress :=
  match f.attempt with
  | none => f.nextSource net now quarantined
  | some ⟨source, stage⟩ =>
    if aborted then
      match stage with
      | .waiting _ => .failed f
      | .reading _ received => f.complete net source received
    else
      match stage with
      | .waiting (ticks + 1) => .flying { f with attempt := some ⟨source, .waiting ticks⟩ }
      | .waiting 0 =>
        if f.accepts net (net.answer source) then
          .flying { f with attempt := some ⟨source, .reading (net.answer source).body []⟩ }
        else .failed f
      | .reading [] received => f.complete net source received
      | .reading (none :: _) _ => .failed f
      | .reading (some chunk :: rest) received => f.receive now source rest received chunk

def BlobFetcher.tick (b : BlobFetcher) : BlobFetcher :=
  match b.inflight with
  | none => { b with now := b.now + 1 }
  | some f =>
    let p := f.advance net (f.signalled && b.aborted.contains f.owner) b.now b.quarantined
    { b with
      now := b.now + 1
      stored := p.admits.or b.stored
      quarantined := p.quarantines.toList ++ b.quarantined
      inflight := p.flight
      landed := if p.flight.isSome then b.landed else b.landed ++ [p.ok] }

end Flights

namespace Request

variable (net : Network)

/-- The limits that `PathResolver` fetches under, if its budget lets it fetch at all. -/
def limits (r : Request) (now : ℕ) : Option FetchLimits :=
  let (declaredSize, transferCeiling) : Option ℕ × ℕ := match r.kind with
    | .direct declaredSize transferCeiling => (declaredSize, transferCeiling)
    | .manifest => (none, net.maxWireBytes)
  let maxTransferBytes := min (min r.budget.maxBlobTransferBytes
    (r.budget.maxTransferredBytes - r.budget.transferred))
    (min transferCeiling (declaredSize.getD (2 ^ 53 - 1)))
  if declaredSize.any fun size => r.budget.maxBlobTransferBytes < size then none
  else if r.budget.deadline ≤ now ∨ r.budget.maxConcurrent ≤ r.budget.concurrent then none
  else if maxTransferBytes = 0 then none
  else some ⟨r.budget.maxAttempts, maxTransferBytes, declaredSize⟩

/-- `RequestBudget.visit` of a node that is new to the request. -/
def visits (r : Request) (now : ℕ) : Bool :=
  now < r.budget.deadline ∧ r.budget.nodes < r.budget.maxUniqueNodes

def settles (r : Request) (now : ℕ) (content : Bytes) : Bool :=
  (net.decodes content).any fun bytes =>
    now < r.budget.deadline ∧ r.budget.decoded + bytes ≤ r.budget.maxDecodedBytes

def flight (r : Request) (signalled : Bool) (limits : FetchLimits) : Flight :=
  ⟨r.id, signalled, limits, r.budget, r.sources, 0, none⟩

end Request

inductive Event where
  | call (r : Request)
  | abort (id : ℕ)
  | tick
deriving DecidableEq, Repr

namespace Fetching

variable (net : Network)

def setPhase (s : Fetching) (id : ℕ) (phase : Phase) : Fetching :=
  { s with phases := fun i => if i = id then phase else s.phases i }

def join (s : Fetching) (r : Request) (signalled : Bool) (limits : FetchLimits) : Fetching :=
  if s.blobs.inflight.isSome then s
  else { s with blobs := { s.blobs with inflight := some (r.flight signalled limits) } }

/-- `BlobFetcher.fetch`, under the limits of the request. -/
def fetch (s : Fetching) (r : Request) : Fetching :=
  match r.limits net s.blobs.now with
  | none => s.setPhase r.id (.done false)
  | some limits =>
    if s.blobs.stored.isSome then s.setPhase r.id (.done true)
    else (s.join r true limits).setPhase r.id .waiting

def complete (s : Fetching) (content : Bytes) : Fetching :=
  if (net.decodes content).any fun bytes => bytes ≤ net.maxCachedBytes then
    { s with completed := some content }
  else s

/-- `VerifiedManifestCache.load`, and what the request does with the manifest. -/
def load (s : Fetching) (r : Request) : Fetching :=
  let waits : Phase := if r.id ∈ s.blobs.aborted then .done false else .loading r
  if r.visits s.blobs.now = false then s.setPhase r.id (.done false)
  else
    match s.completed with
    | some content =>
      s.setPhase r.id (.done (r.id ∉ s.blobs.aborted ∧ r.settles net s.blobs.now content))
    | none =>
      if r.sources ∈ s.loads then s.setPhase r.id waits
      else
        match r.limits net s.blobs.now with
        | none => s.setPhase r.id (.done false)
        | some limits =>
          match s.blobs.stored with
          | some content =>
            (s.complete net content).setPhase r.id
              (.done (r.id ∉ s.blobs.aborted ∧ r.settles net s.blobs.now content))
          | none =>
            let joined := s.join r false limits
            { joined with loads := r.sources :: joined.loads }.setPhase r.id waits

def call (s : Fetching) (r : Request) : Fetching :=
  if s.phases r.id ≠ .idle then s
  else
    match r.kind with
    | .direct .. => s.fetch net r
    | .manifest => s.load net r

/-- The signal of a request rejects its wait for a load at once, and its own fetch at the next step. -/
def abort (s : Fetching) (id : ℕ) : Fetching :=
  { s with
    blobs := { s.blobs with aborted := id :: s.blobs.aborted }
    phases := fun i =>
      if i = id then
        match s.phases i with
        | .loading _ => .done false
        | phase => phase
      else s.phases i }

def land (ok : Bool) (now : ℕ) (content : Bytes) : Phase → Phase
  | .waiting => .done ok
  | .loading r => .done (ok ∧ r.settles net now content)
  | phase => phase

def tick (s : Fetching) : Fetching :=
  let blobs := s.blobs.tick net
  if s.blobs.inflight.isSome ∧ blobs.inflight = none then
    let ok := blobs.landed.getLastD false
    let content := blobs.stored.getD []
    let landed : Fetching :=
      { blobs
        loads := []
        completed := s.completed
        phases := fun i => land net ok s.blobs.now content (s.phases i) }
    if ok = true ∧ s.loads ≠ [] then landed.complete net content else landed
  else { s with blobs := blobs }

def step (s : Fetching) : Event → Fetching
  | .call r => s.call net r
  | .abort id => s.abort id
  | .tick => s.tick net

def initial (quarantined : List String) : Fetching where
  blobs := ⟨0, [], none, quarantined, none, []⟩
  loads := []
  completed := none
  phases _ := .idle

end Fetching

end NixstrCache.Blossom
