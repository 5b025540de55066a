import NixstrCache.Nix.Staging

/-!
Uploads of NARs next to uploads of narinfos.

The body of a NAR is cut into pieces that the blob store admits one by one.  The source awaits the next
chunk of the body, the admission of a full piece, and the return from it; then the route is looked up,
its components are committed and the row is inserted.  A narinfo reserves the ceiling of a body before
it is read, and gives the reservation back when its row is inserted or its request fails.
-/

namespace NixstrCache.Nix

open Durable KeyedTable Runs Persistence
open Persistence.WriteRepository (repositoryStep RepositoryLabel)

def fileChunkBytes : ℕ := 2097152

structure NarEnv extends StagingEnv where
  /-- The directory of the blob store. -/
  storeRoot : String

/-- Where an upload awaits: a chunk, the end of an admission, the way back from it with what is left of
the chunk (or nothing once the body has ended), or the answer. -/
inductive NarPhase where
  | reading
  | admitting (token : String) (rest : Option Bytes)
  | resuming (rest : Option Bytes)
  | stored
deriving DecidableEq, Repr

structure NarUpload where
  id : ℕ
  route : String
  /-- The identifier behind `upload:`. -/
  owner : String
  buffered : Bytes
  /-- What the digest of the whole body has been given. -/
  received : Bytes
  components : List (RouteComponent String)
  phase : NarPhase
deriving DecidableEq, Repr

structure NarStaging where
  area : StagingArea
  nars : Table NarUpload.id
  /-- The requests with a row in `write_reservations`. -/
  reserved : List ℕ

inductive NarEvent where
  | staging (e : StagingArea.Event)
  /-- A request for a narinfo reserves, and fails before its body is there. -/
  | reserve (id : ℕ)
  | abandon (id : ℕ)
  | put (id : ℕ) (route owner : String)
  | chunk (id : ℕ) (value : Bytes)
  | done (id : ℕ)
  | promote (id : ℕ)
  | resume (id : ℕ)
  /-- The body or a file operation fails. -/
  | fail (id : ℕ)
  | respond (id : ℕ) (ok : Bool)
  | discard (route : String) (removes : Bool)

/-- An event at a time, with the token of a reservation made in it and the outcome of its file
removals. -/
structure NarLabel where
  event : NarEvent
  now : ℕ
  token : String
  fails : String → Option String

/-- The routes of uploads below `nar`. -/
def isNarUploadRoute (route : String) : Bool :=
  isNarRoute route ∧ 4 < route.length ∧ (route.toList.drop 4).all fun c =>
    c.isAlphanum ∨ c = '.' ∨ c = '_' ∨ c = '+' ∨ c = '-'

/-- The status for what `stage` throws. -/
def statusOf : Failure → ℕ
  | .writeConflict => 409
  | .rangeError _ => 413
  | .typeError _ => 400
  | .error _ | .uniqueConstraint | .foreignKeyConstraint => 503

namespace NarStaging

variable (env : NarEnv) (l : NarLabel) (s : NarStaging) (u : NarUpload)

def pathFor (hash : String) : String :=
  env.storeRoot ++ "/blobs/" ++ String.ofList (hash.toList.take 2) ++ "/" ++ hash

def blobs : BlobStore String Bytes :=
  s.area.repository.blobs

def setBlobs (blobs : BlobStore String Bytes) : NarStaging :=
  { s with area := { s.area with repository := { s.area.repository with blobs := blobs } } }

def setUpload : NarStaging :=
  { s with
    nars := s.nars.update (fun v => if v.id = u.id then u else v)
      (fun v => by split <;> simp_all) }

def answer (id status : ℕ) : NarStaging :=
  { s with
    area := { s.area with responses := s.area.responses ++ [⟨id, status⟩] }
    nars := s.nars.filter fun v => v.id ≠ id }

/-- The `catch` of `#stageNarComponents`, whose own failure takes the place of the error. -/
def reject (status : ℕ) : NarStaging :=
  let outcome := (BlobStore.releaseOwner l.fails l.now (.upload u.owner)).run s.blobs
  (s.setBlobs (outcome.final s.blobs)).answer u.id
    (match outcome.result with
      | .ok _ => status
      | .error e => statusOf e)

/-- The start of `flush` on a buffer that is not empty. -/
def flush (rest : Option Bytes) : NarStaging :=
  let outcome := (BlobStore.reserve l.fails l.token u.buffered.length l.now).run s.blobs
  let t := s.setBlobs (outcome.final s.blobs)
  match outcome.result with
  | .ok _ => t.setUpload { u with phase := .admitting l.token rest }
  | .error e => t.reject l u (statusOf e)

/-- The loop over what is left of a chunk, up to the next full piece. -/
def consume (value : Bytes) : NarStaging :=
  if value = [] then s.setUpload { u with phase := .reading }
  else
    let part := value.take (fileChunkBytes - u.buffered.length)
    if env.perBodyBytes < u.received.length + part.length then s.reject l u 413
    else
      let v := { u with buffered := u.buffered ++ part, received := u.received ++ part }
      if v.buffered.length = fileChunkBytes then
        s.flush l v (some (value.drop (fileChunkBytes - u.buffered.length)))
      else s.setUpload { v with phase := .reading }

/-- The end of `flush`.  An entry that `admit` does not find has no hash to read. -/
def promoted (token : String) (rest : Option Bytes) : NarStaging :=
  let outcome := (BlobStore.promote env.digest List.length u.buffered .write (some (.upload u.owner))
    token l.now).run s.blobs
  let t := s.setBlobs ((outcome.final s.blobs).dropReservation token)
  match outcome.result with
  | .ok (some entry) =>
    t.setUpload { u with
      buffered := []
      components := u.components ++ [⟨u.components.length, entry.hash, u.buffered.length⟩]
      phase := .resuming rest }
  | .ok none => t.reject l u 400
  | .error e => t.reject l u (statusOf e)

def rowOf (hash : String) : StagedBlobRow :=
  ⟨u.route, env.digest u.received, u.received.length, pathFor env hash⟩

/-- The last part of `#stageNarComponents`. -/
def settle : NarStaging :=
  match s.area.repository.lookup u.route with
  | some existing =>
    if existing.digest = env.digest u.received ∧ existing.size = u.received.length then
      let outcome := (BlobStore.releaseOwner l.fails l.now (.upload u.owner)).run s.blobs
      let t := s.setBlobs (outcome.final s.blobs)
      match outcome.result with
      | .ok _ => t.setUpload { u with phase := .stored }
      | .error e => t.reject l u (statusOf e)
    else s.reject l u 409
  | none =>
    let outcome := (BlobStore.commitRoute l.fails l.now u.route u.received.length u.components
      (.upload u.owner)).run s.blobs
    let t := s.setBlobs (outcome.final s.blobs)
    match outcome.result with
    | .error e =>
      t.reject l u (if e = .error "immutable route conflict" then 409 else statusOf e)
    | .ok _ =>
      match u.components with
      | [] => t.reject l u 400
      | first :: _ =>
        match t.area.repository.stagedBlobs.insert? (rowOf env u first.hash) with
        | none => t.reject l u 503
        | some stagedBlobs =>
          setUpload { t with area := { t.area with
            repository := { t.area.repository with stagedBlobs := stagedBlobs } } }
            { u with phase := .stored }

/-- A request for a NAR, under an identifier that is not in use. -/
def put (id : ℕ) (route owner : String) : NarStaging :=
  if isNarUploadRoute route = false then s.answer id 404
  else if (s.nars.rows.any fun v => v.owner = owner) ∨ s.blobs.ownedBy (.upload owner) ≠ [] then s
  else
    match s.nars.insert? ⟨id, route, owner, [], [], [], .reading⟩ with
    | none => s
    | some nars => { s with nars := nars }

def advance : NarStaging :=
  match l.event, u.phase with
  | .chunk _ value, .reading => s.consume env l u value
  | .done _, .reading =>
    if u.buffered = [] then s.setUpload { u with phase := .resuming none } else s.flush l u none
  | .promote _, .admitting token rest => s.promoted env l u token rest
  | .resume _, .resuming (some rest) => s.consume env l u rest
  | .resume _, .resuming none => s.settle env l u
  | .fail _, .reading => s.reject l u 503
  | .fail _, .admitting token _ => (s.setBlobs (s.blobs.dropReservation token)).reject l u 503
  | .respond _ ok, .stored => s.answer u.id (if ok then 200 else 503)
  | _, _ => s

def holds (area : StagingArea) (id : ℕ) : Bool :=
  (area.uploads.find? id).any fun u => u.phase = .received ∨ u.phase = .linking ∨ u.phase = .linked

/-- A step of the narinfos, or of what runs besides. -/
def stage (e : StagingArea.Event) : NarStaging :=
  match e with
  | .nar _ => s
  | .put id hash body =>
    if id ∈ s.reserved ∧ holds s.area id = false then
      let area := s.area.step env.toStagingEnv (.put id hash body)
      { s with area := area, reserved := s.reserved.filter fun i => i ≠ id ∨ holds area i }
    else s
  | .background b =>
    let area := s.area.step env.toStagingEnv (.background b)
    if StagingArea.stops b then ⟨area, .empty, []⟩ else { s with area := area }
  | e =>
    let area := s.area.step env.toStagingEnv e
    { s with
      area := area
      reserved := s.reserved.filter fun i => e.upload ≠ some i ∨ holds area i }

/-- `#reserve` for a narinfo. -/
def reserveBody (id : ℕ) : NarStaging :=
  if id ∈ s.reserved ∨ (s.area.uploads.find? id).isSome then s
  else if env.aggregateBytes <
      s.area.used + s.reserved.length * env.perBodyBytes + env.perBodyBytes then
    { s with area := { s.area with responses := s.area.responses ++ [⟨id, 413⟩] } }
  else { s with reserved := id :: s.reserved }

/-- `discard` of any route; the file of a NAR is that of its first component. -/
def discardRoute (route : String) (removes : Bool) : NarStaging :=
  match s.area.repository.lookup route with
  | none => s
  | some existing =>
    let area := s.area.discard route removes
    let t := { s with area := area }
    if removes = false ∨ area.repository.stagedBlobs.rows.any fun r => r.digest = existing.digest then t
    else t.setBlobs { t.blobs with
      files := t.blobs.files.filter fun file => pathFor env file.name ≠ existing.path }

def subject : NarEvent → Option ℕ
  | .chunk id _ | .done id | .promote id | .resume id | .fail id | .respond id _ => some id
  | _ => none

def step (s : NarStaging) (l : NarLabel) : NarStaging :=
  match l.event with
  | .staging e => s.stage env e
  | .reserve id => s.reserveBody env id
  | .abandon id =>
    if id ∈ s.reserved ∧ holds s.area id = false then
      { s with
        area := { s.area with responses := s.area.responses ++ [⟨id, 503⟩] }
        reserved := s.reserved.filter (· ≠ id) }
    else s
  | .put id route owner => s.put id route owner
  | .discard route removes => s.discardRoute env route removes
  | e =>
    match (subject e).bind fun id => s.nars.find? id with
    | none => s
    | some u => s.advance env l u

def initial (capacity : ℕ) : NarStaging :=
  ⟨StagingArea.initial capacity, .empty, []⟩

/-- The repository is as before, but for its blobs. -/
def BlobsOnly (s t : NarStaging) : Prop :=
  ∃ blobs, t.area.repository = { s.area.repository with blobs := blobs }

section Frames

variable {env : NarEnv} {l : NarLabel} {s t : NarStaging} {u : NarUpload}

theorem BlobsOnly.refl (s : NarStaging) : BlobsOnly s s :=
  ⟨s.blobs, rfl⟩

theorem BlobsOnly.stagedBlobs (h : BlobsOnly s t) :
    t.area.repository.stagedBlobs = s.area.repository.stagedBlobs := by
  obtain ⟨_, h⟩ := h
  rw [h]

theorem BlobsOnly.setBlobs (h : BlobsOnly s t) (blobs : BlobStore String Bytes) :
    BlobsOnly s (t.setBlobs blobs) := by
  obtain ⟨_, h⟩ := h
  refine ⟨blobs, ?_⟩
  change { t.area.repository with blobs := blobs } = _
  rw [h]

theorem BlobsOnly.setUpload (h : BlobsOnly s t) (u : NarUpload) : BlobsOnly s (t.setUpload u) :=
  h

theorem BlobsOnly.reject (h : BlobsOnly s t) (status : ℕ) : BlobsOnly s (t.reject l u status) :=
  h.setBlobs _

theorem flush_blobsOnly (s : NarStaging) (rest : Option Bytes) : BlobsOnly s (s.flush l u rest) := by
  unfold flush
  dsimp only
  split
  · exact ((BlobsOnly.refl s).setBlobs _).setUpload _
  · exact ((BlobsOnly.refl s).setBlobs _).reject _

theorem consume_blobsOnly (s : NarStaging) (value : Bytes) : BlobsOnly s (s.consume env l u value) := by
  unfold consume
  split_ifs
  · exact (BlobsOnly.refl s).setUpload _
  dsimp only
  split_ifs
  · exact (BlobsOnly.refl s).reject _
  · exact flush_blobsOnly s _
  · exact (BlobsOnly.refl s).setUpload _

theorem promoted_blobsOnly (s : NarStaging) (token : String) (rest : Option Bytes) :
    BlobsOnly s (s.promoted env l u token rest) := by
  unfold promoted
  dsimp only
  split
  · exact ((BlobsOnly.refl s).setBlobs _).setUpload _
  · exact ((BlobsOnly.refl s).setBlobs _).reject _
  · exact ((BlobsOnly.refl s).setBlobs _).reject _

end Frames

end NarStaging

end NixstrCache.Nix
