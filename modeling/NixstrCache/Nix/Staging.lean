import NixstrCache.Persistence.CatalogRuns

/-!
Uploads of narinfos, step by step.

An upload is cut where the source awaits: its body is in a temporary file, the file is linked under
its digest, the row is inserted, the text is read back, and then the narinfo is recorded or the route
discarded.  Between two cuts of one upload any other step may happen.  An upload of a NAR is its last
step, the insertion of its row, since its chunks are in the blob store.  A stop of the process ends
all uploads and leaves files and database as they are.
-/

namespace NixstrCache.Nix

open Durable KeyedTable Runs Persistence
open Persistence.WriteRepository (StagingNarInfo repositoryStep RepositoryLabel RepositoryOp background)

/-- What the staging takes from its configuration, the hash and the parser. -/
structure StagingEnv where
  root : String
  digest : Bytes → String
  /-- `parseNarInfo` on the text of a file, or `none` where it throws. -/
  parseNarInfo : Bytes → Option StagingNarInfo
  acceptable : RawPublication → Bool
  decodedMetadataBytes : ℕ
  perBodyBytes : ℕ
  aggregateBytes : ℕ

structure BlobFile where
  path : String
  content : Bytes
deriving DecidableEq, Repr

inductive UploadPhase where
  | received
  | linking
  | linked
  | staged (path : String)
  | validating (text : Bytes)
  | recorded
deriving DecidableEq, Repr

/-- The text that waits for its validation. -/
def UploadPhase.text : UploadPhase → Option Bytes
  | .validating text => some text
  | _ => none

structure NarInfoUpload where
  id : ℕ
  /-- The hash in the path of the request. -/
  hash : String
  body : Bytes
  phase : UploadPhase
deriving DecidableEq, Repr

structure Response where
  id : ℕ
  status : ℕ
deriving DecidableEq, Repr

structure StagingArea where
  repository : WriteRepository
  /-- The files below `blobs`. -/
  blobFiles : Table BlobFile.path
  uploads : Table NarInfoUpload.id
  responses : List Response

def isStorePathHash (hash : String) : Bool :=
  hash.length = 32 ∧ hash.toList.all fun c => ('0' ≤ c ∧ c ≤ '9') ∨ ('a' ≤ c ∧ c ≤ 'z')

def narInfoRoute (hash : String) : String :=
  hash ++ ".narinfo"

def isNarRoute (route : String) : Bool :=
  route.startsWith "nar/"

theorem isNarRoute_narInfoRoute {hash : String} (h : isStorePathHash hash = true) :
    isNarRoute (narInfoRoute hash) = false := by
  simp only [isStorePathHash, decide_eq_true_eq, List.all_eq_true, Bool.decide_or, Bool.decide_and,
    Bool.or_eq_true, Bool.and_eq_true] at h
  by_contra hne
  have hstarts : isNarRoute (narInfoRoute hash) = true := by simpa using hne
  rw [isNarRoute, String.startsWith_string_iff, narInfoRoute, String.toList_append] at hstarts
  obtain ⟨hlength, hall⟩ := h
  have hslash : '/' ∈ hash.toList := by
    have hprefix : "nar/".toList <+: hash.toList := by
      apply List.prefix_of_prefix_length_le hstarts (List.prefix_append _ _)
      rw [String.length_toList, String.length_toList, hlength]
      decide
    exact hprefix.subset (by decide)
  have hchar := hall '/' hslash
  exact absurd hchar (by decide)

def NarInfoUpload.route (u : NarInfoUpload) : String :=
  narInfoRoute u.hash

namespace StagingArea

section Model

variable (env : StagingEnv)

def blobPath (digest : String) : String :=
  env.root ++ "/blobs/" ++ digest

/-- The size of each staged content, counted once. -/
def used (s : StagingArea) : ℕ :=
  ((s.repository.stagedBlobs.rows.map StagedBlobRow.digest).dedup.map fun digest =>
    ((s.repository.stagedBlobs.rows.filter fun r => r.digest = digest).map
      StagedBlobRow.size).foldl max 0).sum

def setPhase (s : StagingArea) (id : ℕ) (phase : UploadPhase) : StagingArea :=
  { s with
    uploads := s.uploads.update (fun u => if u.id = id then { u with phase := phase } else u)
      (fun u => by split <;> rfl) }

def finish (s : StagingArea) (id status : ℕ) : StagingArea :=
  { s with
    uploads := s.uploads.filter fun u => u.id ≠ id
    responses := s.responses ++ [⟨id, status⟩] }

def put (s : StagingArea) (id : ℕ) (hash : String) (body : Bytes) : StagingArea :=
  if isStorePathHash hash = false then { s with responses := s.responses ++ [⟨id, 404⟩] }
  else if min env.decodedMetadataBytes env.perBodyBytes < body.length then
    { s with responses := s.responses ++ [⟨id, 413⟩] }
  else
    match s.uploads.insert? ⟨id, hash, body, .received⟩ with
    | none => s
    | some uploads => { s with uploads := uploads }

/-- `stage` looks the route up once the temporary file is written. -/
def lookupRoute (s : StagingArea) (u : NarInfoUpload) : StagingArea :=
  match s.repository.lookup u.route with
  | some existing =>
    if existing.digest = env.digest u.body ∧ existing.size = u.body.length then
      s.setPhase u.id (.staged existing.path)
    else s.finish u.id 409
  | none => s.setPhase u.id .linking

/-- The hard link: a file that exists already stays. -/
def link (s : StagingArea) (u : NarInfoUpload) : StagingArea :=
  setPhase { s with
    blobFiles := s.blobFiles.insertOrIgnore ⟨blobPath env (env.digest u.body), u.body⟩ } u.id .linked

def rowOf (u : NarInfoUpload) : StagedBlobRow :=
  ⟨u.route, env.digest u.body, u.body.length, blobPath env (env.digest u.body)⟩

/-- The transaction that ends `stage`. -/
def insertRow (s : StagingArea) (u : NarInfoUpload) : StagingArea :=
  if env.aggregateBytes < s.used + u.body.length then s.finish u.id 413
  else
    match s.repository.stagedBlobs.insert? (rowOf env u) with
    | none => s.finish u.id 503
    | some stagedBlobs =>
      setPhase { s with repository := { s.repository with stagedBlobs := stagedBlobs } } u.id
        (.staged (rowOf env u).path)

def readText (s : StagingArea) (u : NarInfoUpload) (path : String) : StagingArea :=
  match s.blobFiles.find? path with
  | none => s.finish u.id 503
  | some file => s.setPhase u.id (.validating file.content)

/-- `discard`: the file goes with the last row of its digest, unless its removal fails. -/
def discard (s : StagingArea) (route : String) (removes : Bool) : StagingArea :=
  match s.repository.lookup route with
  | none => s
  | some existing =>
    let repository := ((WriteRepository.discard route).run s.repository).final s.repository
    if removes = false ∨ repository.stagedBlobs.rows.any fun r => r.digest = existing.digest then
      { s with repository := repository }
    else
      { s with
        repository := repository
        blobFiles := s.blobFiles.filter fun file => file.path ≠ existing.path }

/-- The validation of what has been read: the transaction that records it may fail. -/
def validate (s : StagingArea) (u : NarInfoUpload) (text : Bytes) (records removes : Bool) :
    StagingArea :=
  match env.parseNarInfo text with
  | none => (s.discard u.route removes).finish u.id 503
  | some info =>
    if info.storePathHash ≠ u.hash then (s.discard u.route removes).finish u.id 400
    else if records then
      setPhase { s with
        repository :=
          ((WriteRepository.recordNarInfo u.route info).run s.repository).final s.repository }
        u.id .recorded
    else (s.discard u.route removes).finish u.id 503

inductive Event where
  | put (id : ℕ) (hash : String) (body : Bytes)
  | lookup (id : ℕ)
  | link (id : ℕ)
  | insert (id : ℕ)
  | read (id : ℕ)
  | validate (id : ℕ) (records removes : Bool)
  | respond (id : ℕ) (ok : Bool)
  | abort (id : ℕ)
  | nar (row : StagedBlobRow)
  | commitOverlay (hashes : List String)
  | background (l : RepositoryLabel)

/-- Where `stage` and the handler await, a failure ends the request. -/
def awaits : UploadPhase → Bool
  | .validating _ => false
  | _ => true

def advance (s : StagingArea) (u : NarInfoUpload) : Event → StagingArea
  | .lookup _ => if u.phase = .received then s.lookupRoute env u else s
  | .link _ => if u.phase = .linking then s.link env u else s
  | .insert _ => if u.phase = .linked then s.insertRow env u else s
  | .read _ =>
    match u.phase with
    | .staged path => s.readText u path
    | _ => s
  | .validate _ records removes =>
    match u.phase with
    | .validating text => s.validate env u text records removes
    | _ => s
  | .respond _ ok =>
    if u.phase = .recorded then s.finish u.id (if ok then 200 else 503) else s
  | .abort _ => if awaits u.phase then s.finish u.id 503 else s
  | _ => s

def Event.upload : Event → Option ℕ
  | .lookup id | .link id | .insert id | .read id | .validate id _ _ | .respond id _ | .abort id =>
    some id
  | _ => none

def stops (l : RepositoryLabel) : Bool :=
  match l.op with
  | .reopen _ => true
  | _ => l.stop.isSome

def step (s : StagingArea) (e : Event) : StagingArea :=
  match e with
  | .put id hash body => s.put env id hash body
  | .nar row =>
    if isNarRoute row.route then
      match s.repository.stagedBlobs.insert? row with
      | none => s
      | some stagedBlobs => { s with repository := { s.repository with stagedBlobs := stagedBlobs } }
    else s
  | .commitOverlay hashes =>
    { s with
      repository := ((WriteRepository.commitOverlay hashes).run s.repository).final s.repository }
  | .background l =>
    if background l.op = false then s
    else
      { s with
        repository := repositoryStep env.digest env.acceptable s.repository l
        uploads := if stops l then .empty else s.uploads }
  | e =>
    match e.upload.bind fun id => s.uploads.find? id with
    | none => s
    | some u => s.advance env u e

def initial (capacity : ℕ) : StagingArea where
  repository := WriteRepository.initial capacity
  blobFiles := .empty
  uploads := .empty
  responses := []

end Model

section Presence

variable (env : StagingEnv) {s t : StagingArea}

/-- The file that a row names is there, with the digest and the size of the row. -/
def Holds (s : StagingArea) (row : StagedBlobRow) : Prop :=
  ∃ file ∈ s.blobFiles.rows, file.path = row.path ∧ env.digest file.content = row.digest ∧
    file.content.length = row.size

structure Intact (s : StagingArea) : Prop where
  files : ∀ file ∈ s.blobFiles.rows, file.path = blobPath env (env.digest file.content)
  rows : ∀ row ∈ s.repository.stagedBlobs.rows, isNarRoute row.route = false →
    row.path = blobPath env row.digest ∧ Holds env s row
  linked : ∀ u ∈ s.uploads.rows, u.phase = .linked →
    s.blobFiles.has (blobPath env (env.digest u.body)) = true
  hashes : ∀ u ∈ s.uploads.rows, isStorePathHash u.hash = true

variable {env}

theorem blobPath_inj {a b : String} (h : blobPath env a = blobPath env b) : a = b := by
  have hlist := congrArg String.toList h
  simp only [blobPath, String.toList_append, List.append_cancel_left_eq] at hlist
  exact String.toList_inj.mp hlist

theorem initial_intact (capacity : ℕ) : Intact env (initial capacity) := by
  constructor
  all_goals
    intro x hx
    simp [initial, WriteRepository.initial] at hx

theorem Intact.congr (h : Intact env s) (hfiles : t.blobFiles = s.blobFiles)
    (hrows : t.repository.stagedBlobs = s.repository.stagedBlobs)
    (huploads : ∀ u ∈ t.uploads.rows, isStorePathHash u.hash = true ∧
      (u.phase = .linked → ∃ w ∈ s.uploads.rows, w.phase = .linked ∧ w.body = u.body)) :
    Intact env t := by
  constructor
  · rw [hfiles]
    exact h.files
  · intro row hrow hroute
    rw [hrows] at hrow
    obtain ⟨hpath, hholds⟩ := h.rows row hrow hroute
    refine ⟨hpath, ?_⟩
    rw [Holds, hfiles]
    exact hholds
  · intro u hu hlinked
    obtain ⟨w, hw, hphase, hbody⟩ := (huploads u hu).2 hlinked
    rw [hfiles, ← hbody]
    exact h.linked w hw hphase
  · intro u hu
    exact (huploads u hu).1

theorem mem_setPhase {id : ℕ} {phase : UploadPhase} {u : NarInfoUpload} :
    u ∈ (s.setPhase id phase).uploads.rows ↔
      ∃ w ∈ s.uploads.rows, u = if w.id = id then { w with phase := phase } else w := by
  simp [setPhase, eq_comm]

theorem setPhase_intact (h : Intact env s) (id : ℕ) {phase : UploadPhase} (hphase : phase ≠ .linked) :
    Intact env (s.setPhase id phase) := by
  refine h.congr rfl rfl ?_
  intro u hu
  obtain ⟨w, hw, rfl⟩ := mem_setPhase.mp hu
  split_ifs with hid
  · exact ⟨h.hashes w hw, fun hlinked => absurd hlinked hphase⟩
  · exact ⟨h.hashes w hw, fun hlinked => ⟨w, hw, hlinked, rfl⟩⟩

theorem finish_intact (h : Intact env s) (id status : ℕ) : Intact env (s.finish id status) := by
  refine h.congr rfl rfl ?_
  intro u hu
  have hu := (Table.mem_filter.mp hu).1
  exact ⟨h.hashes u hu, fun hlinked => ⟨u, hu, hlinked, rfl⟩⟩

theorem put_intact (h : Intact env s) (id : ℕ) (hash : String) (body : Bytes) :
    Intact env (s.put env id hash body) := by
  unfold put
  split_ifs with hhash hsize
  · exact h.congr rfl rfl fun u hu => ⟨h.hashes u hu, fun hlinked => ⟨u, hu, hlinked, rfl⟩⟩
  · exact h.congr rfl rfl fun u hu => ⟨h.hashes u hu, fun hlinked => ⟨u, hu, hlinked, rfl⟩⟩
  · split
    · exact h
    · next uploads huploads =>
      refine h.congr rfl rfl ?_
      intro u hu
      rw [(Table.insert?_eq_some.mp huploads).2, List.mem_append, List.mem_singleton] at hu
      rcases hu with hu | rfl
      · exact ⟨h.hashes u hu, fun hlinked => ⟨u, hu, hlinked, rfl⟩⟩
      · exact ⟨by simpa using hhash, fun hlinked => by simp at hlinked⟩

theorem link_intact (h : Intact env s) (u : NarInfoUpload) (hu : u ∈ s.uploads.rows) :
    Intact env (s.link env u) := by
  have hkeep : ∀ file ∈ s.blobFiles.rows, file ∈
      (s.blobFiles.insertOrIgnore ⟨blobPath env (env.digest u.body), u.body⟩).rows := by
    intro file hfile
    exact Table.mem_insertOrIgnore.mpr (Or.inl hfile)
  constructor
  · intro file hfile
    rcases Table.mem_insertOrIgnore.mp hfile with hold | ⟨rfl, -⟩
    · exact h.files file hold
    · rfl
  · intro row hrow hroute
    obtain ⟨hpath, file, hfile, hholds⟩ := h.rows row hrow hroute
    exact ⟨hpath, file, hkeep file hfile, hholds⟩
  · intro w hw hlinked
    apply Table.has_insertOrIgnore.mpr
    obtain ⟨x, hx, rfl⟩ := mem_setPhase.mp hw
    split_ifs at hlinked ⊢ with hid
    · obtain rfl := Table.eq_of_key hx hu hid
      exact Or.inr rfl
    · exact Or.inl (h.linked x hx hlinked)
  · intro w hw
    obtain ⟨x, hx, rfl⟩ := mem_setPhase.mp hw
    split_ifs
    · exact h.hashes x hx
    · exact h.hashes x hx

theorem insertRow_intact (hinjective : Function.Injective env.digest) (h : Intact env s)
    (u : NarInfoUpload) (hu : u ∈ s.uploads.rows) (hlinked : u.phase = .linked) :
    Intact env (s.insertRow env u) := by
  unfold insertRow
  split_ifs
  · exact finish_intact h _ _
  · split
    · exact finish_intact h _ _
    · next stagedBlobs hinsert =>
      apply setPhase_intact _ _ (by simp)
      refine ⟨h.files, ?_, h.linked, h.hashes⟩
      intro row hrow hroute
      change row ∈ stagedBlobs.rows at hrow
      rw [(Table.insert?_eq_some.mp hinsert).2, List.mem_append, List.mem_singleton] at hrow
      rcases hrow with hrow | rfl
      · exact h.rows row hrow hroute
      · refine ⟨rfl, ?_⟩
        obtain ⟨file, hfile, hpath⟩ := Table.has_iff.mp (h.linked u hu hlinked)
        have hdigest := blobPath_inj ((h.files file hfile).symm.trans hpath)
        have hcontent := hinjective hdigest
        exact ⟨file, hfile, hpath, hdigest, congrArg List.length hcontent⟩

def rejects (env : StagingEnv) (u : NarInfoUpload) (text : Bytes) (records : Bool) : Bool :=
  match env.parseNarInfo text with
  | none => true
  | some info => info.storePathHash ≠ u.hash ∨ records = false

/-- The digest whose file a discard of the route removes. -/
def unlinked (s : StagingArea) (route : String) : Option String :=
  match s.repository.lookup route with
  | none => none
  | some existing =>
    if s.repository.stagedBlobs.rows.any fun r => r.route ≠ route ∧ r.digest = existing.digest then none
    else some existing.digest

def Unclaimed (env : StagingEnv) (s : StagingArea) (digest : String) : Prop :=
  ∀ w ∈ s.uploads.rows, w.phase = .linked → env.digest w.body ≠ digest

theorem discard_final (repository : WriteRepository) (route : String) :
    ((WriteRepository.discard route).run repository).final repository =
      { repository with
        stagedBlobs := repository.stagedBlobs.filter fun r => r.route ≠ route } := by
  cases hlookup : repository.lookup route with
  | none =>
    have hsame : repository.stagedBlobs.filter (fun r => r.route ≠ route) =
        repository.stagedBlobs := by
      apply Table.ext
      apply List.filter_eq_self.mpr
      intro r hr
      simpa using Table.find?_eq_none.mp hlookup r hr
    simp only [WriteRepository.discard, Program.bind_read_run, hlookup, Program.pure_run, Outcome.final,
      List.getLastD_nil, hsame]
  | some existing => simp [WriteRepository.discard, Program.bind_read_run, hlookup, Outcome.final]

/-- `discard` removes the row of the route, and its file when nothing else is recorded with it. -/
theorem discard_eq (s : StagingArea) (route : String) (removes : Bool) :
    ∃ blobFiles, s.discard route removes = { s with
        repository := { s.repository with
          stagedBlobs := s.repository.stagedBlobs.filter fun r => r.route ≠ route }
        blobFiles := blobFiles } ∧
      (blobFiles = s.blobFiles ∨ ∃ existing, removes = true ∧
        s.repository.lookup route = some existing ∧ s.unlinked route = some existing.digest ∧
        blobFiles = s.blobFiles.filter fun file => file.path ≠ existing.path) := by
  have hfinal := discard_final s.repository route
  unfold discard
  cases hlookup : s.repository.lookup route with
  | none =>
    refine ⟨s.blobFiles, ?_, Or.inl rfl⟩
    rw [← hfinal]
    simp [WriteRepository.discard, Program.bind_read_run, hlookup, Outcome.final]
  | some existing =>
    dsimp only
    rw [hfinal]
    split
    · exact ⟨s.blobFiles, rfl, Or.inl rfl⟩
    · next hlast =>
      refine ⟨_, rfl, Or.inr ⟨existing, ?_, rfl, ?_, rfl⟩⟩
      · simpa using (not_or.mp hlast).1
      · unfold unlinked
        rw [hlookup]
        dsimp only
        rw [if_neg]
        have hnone := (not_or.mp hlast).2
        simpa [List.any_filter] using hnone

theorem discard_intact (h : Intact env s) {hash : String} (hhash : isStorePathHash hash = true)
    (removes : Bool)
    (hunclaimed : removes = true → ∀ digest ∈ s.unlinked (narInfoRoute hash), Unclaimed env s digest) :
    Intact env (s.discard (narInfoRoute hash) removes) := by
  obtain ⟨blobFiles, hdiscard, hfiles⟩ := discard_eq s (narInfoRoute hash) removes
  rw [hdiscard]
  rcases hfiles with rfl | ⟨existing, hremoves, hlookup, hunlinked, rfl⟩
  · refine ⟨h.files, ?_, h.linked, h.hashes⟩
    intro row hrow hroute
    exact h.rows row (Table.mem_filter.mp hrow).1 hroute
  · obtain ⟨hexisting, hroute⟩ := Table.find?_eq_some.mp hlookup
    have hnar : isNarRoute existing.route = false := by
      rw [hroute]
      exact isNarRoute_narInfoRoute hhash
    obtain ⟨hpath, -⟩ := h.rows existing hexisting hnar
    have hunclaimed := hunclaimed hremoves existing.digest hunlinked
    constructor
    · intro file hfile
      exact h.files file (Table.mem_filter.mp hfile).1
    · intro row hrow hrowNar
      obtain ⟨hrow, hne⟩ := Table.mem_filter.mp hrow
      obtain ⟨hrowPath, file, hfile, hfilePath, hholds⟩ := h.rows row hrow hrowNar
      refine ⟨hrowPath, file, Table.mem_filter.mpr ⟨hfile, ?_⟩, hfilePath, hholds⟩
      -- a row with the digest of the removed one would have kept the file
      have hdigest : row.digest ≠ existing.digest := by
        intro hsame
        simp only [unlinked, hlookup, Option.ite_none_left_eq_some] at hunlinked
        apply hunlinked.1
        exact List.any_eq_true.mpr ⟨row, hrow, by simpa [hsame] using hne⟩
      have hpaths : file.path ≠ existing.path := by
        rw [hfilePath, hrowPath, hpath]
        intro hsame
        exact hdigest (blobPath_inj hsame)
      simpa using hpaths
    · intro w hw hlinked
      obtain ⟨file, hfile, hfilePath⟩ := Table.has_iff.mp (h.linked w hw hlinked)
      apply Table.has_iff.mpr
      refine ⟨file, Table.mem_filter.mpr ⟨hfile, ?_⟩, hfilePath⟩
      have hpaths : file.path ≠ existing.path := by
        rw [hfilePath, hpath]
        intro hsame
        exact hunclaimed w hw hlinked (blobPath_inj hsame)
      simpa using hpaths
    · exact h.hashes

/-- A validation only unlinks a file that no upload is about to record. -/
def UnlinksUnclaimed (env : StagingEnv) (s : StagingArea) : Event → Prop
  | .validate id records removes => ∀ u ∈ s.uploads.find? id, ∀ text ∈ u.phase.text,
      rejects env u text records = true → removes = true →
        ∀ digest ∈ s.unlinked u.route, Unclaimed env s digest
  | _ => True

instance (s : StagingArea) (digest : String) : Decidable (Unclaimed env s digest) :=
  inferInstanceAs (Decidable (∀ w ∈ s.uploads.rows, w.phase = .linked → env.digest w.body ≠ digest))

instance (s : StagingArea) : (e : Event) → Decidable (UnlinksUnclaimed env s e)
  | .validate id records removes => inferInstanceAs (Decidable
      (∀ u ∈ s.uploads.find? id, ∀ text ∈ u.phase.text, rejects env u text records = true →
        removes = true → ∀ digest ∈ s.unlinked u.route, Unclaimed env s digest))
  | .put .. | .lookup _ | .link _ | .insert _ | .read _ | .respond .. | .abort _ | .nar _
  | .commitOverlay _ | .background _ => isTrue trivial

theorem validate_intact (h : Intact env s) {u : NarInfoUpload} (hu : u ∈ s.uploads.rows)
    (text : Bytes) (records removes : Bool)
    (hunclaimed : rejects env u text records = true → removes = true →
      ∀ digest ∈ s.unlinked u.route, Unclaimed env s digest) :
    Intact env (s.validate env u text records removes) := by
  have hdiscard : ∀ status, rejects env u text records = true →
      Intact env ((s.discard u.route removes).finish u.id status) := by
    intro status hrejects
    exact finish_intact (discard_intact h (h.hashes u hu) removes (hunclaimed hrejects)) _ _
  unfold validate
  split
  · next hparse => exact hdiscard 503 (by simp [rejects, hparse])
  · next info hparse =>
    split_ifs with hmatch hrecords
    · exact hdiscard 400 (by simp [rejects, hparse, hmatch])
    · obtain ⟨t, hrun, hrecorded⟩ :=
        WriteRepository.recordNarInfo_run u.route info s.repository
      obtain ⟨stagedNarInfos, stagedReferences, rfl⟩ := hrecorded.rest
      apply setPhase_intact _ _ (by simp)
      refine h.congr rfl ?_ ?_
      · rw [hrun]
        rfl
      · intro w hw
        exact ⟨h.hashes w hw, fun hlinked => ⟨w, hw, hlinked, rfl⟩⟩
    · exact hdiscard 503 (by simp [rejects, hparse, hrecords])

theorem lookupRoute_intact (h : Intact env s) (u : NarInfoUpload) :
    Intact env (s.lookupRoute env u) := by
  unfold lookupRoute
  split
  · split
    · exact setPhase_intact h _ (by simp)
    · exact finish_intact h _ _
  · exact setPhase_intact h _ (by simp)

theorem readText_intact (h : Intact env s) (u : NarInfoUpload) (path : String) :
    Intact env (s.readText u path) := by
  unfold readText
  split
  · exact finish_intact h _ _
  · exact setPhase_intact h _ (by simp)

theorem advance_intact (hinjective : Function.Injective env.digest) (h : Intact env s)
    {u : NarInfoUpload} (hu : u ∈ s.uploads.rows) (e : Event)
    (hunclaimed : ∀ id records removes, e = .validate id records removes →
      ∀ text ∈ u.phase.text, rejects env u text records = true → removes = true →
        ∀ digest ∈ s.unlinked u.route, Unclaimed env s digest) :
    Intact env (s.advance env u e) := by
  cases e with
  | lookup id =>
    simp only [advance]
    split
    · exact lookupRoute_intact h u
    · exact h
  | link id =>
    simp only [advance]
    split
    · exact link_intact h u hu
    · exact h
  | insert id =>
    simp only [advance]
    split
    · next hphase => exact insertRow_intact hinjective h u hu hphase
    · exact h
  | read id =>
    simp only [advance]
    split
    · exact readText_intact h u _
    · exact h
  | validate id records removes =>
    simp only [advance]
    split
    · next text hphase =>
      exact validate_intact h hu text records removes 
        (hunclaimed id records removes rfl text (by rw [hphase]; rfl))
    · exact h
  | respond id ok =>
    simp only [advance]
    split
    · exact finish_intact h _ _
    · exact h
  | abort id =>
    simp only [advance]
    split
    · exact finish_intact h _ _
    · exact h
  | _ => exact h

theorem step_intact (hinjective : Function.Injective env.digest) (h : Intact env s) (e : Event)
    (hunclaimed : UnlinksUnclaimed env s e) : Intact env (s.step env e) := by
  have hupload : ∀ id e, (∀ records removes, e = .validate id records removes →
      UnlinksUnclaimed env s (.validate id records removes)) → e.upload = some id →
      Intact env (match e.upload.bind fun id => s.uploads.find? id with
        | none => s
        | some u => s.advance env u e) := by
    intro id e hvalidate hid
    rw [hid, Option.bind_some]
    split
    · exact h
    · next u hu =>
      apply advance_intact hinjective h (Table.find?_eq_some.mp hu).1
      intro id' records removes he
      have hsame : id = id' := by
        rw [he] at hid
        exact (Option.some.inj hid).symm
      subst hsame
      exact hvalidate records removes he u hu
  cases e with
  | put id hash body => exact put_intact h id hash body
  | nar row =>
    simp only [step]
    split
    · next hnar =>
      split
      · exact h
      · next stagedBlobs hinsert =>
        refine ⟨h.files, ?_, h.linked, h.hashes⟩
        intro r hr hroute
        change r ∈ stagedBlobs.rows at hr
        rw [(Table.insert?_eq_some.mp hinsert).2, List.mem_append, List.mem_singleton] at hr
        rcases hr with hr | rfl
        · exact h.rows r hr hroute
        · simp [hnar] at hroute
    · exact h
  | commitOverlay hashes =>
    refine h.congr rfl (WriteRepository.commitOverlay_stagedBlobs hashes s.repository) ?_
    intro u hu
    exact ⟨h.hashes u hu, fun hlinked => ⟨u, hu, hlinked, rfl⟩⟩
  | background l =>
    simp only [step]
    split
    · exact h
    · next hbackground =>
      have hkeeps := WriteRepository.background_keepsCatalog env.digest env.acceptable s.repository l
        (by simpa using hbackground)
      refine h.congr rfl hkeeps.stagedBlobs ?_
      intro u hu
      have hu : u ∈ s.uploads.rows := by
        by_cases hstops : stops l = true
        · simp [hstops] at hu
        · simpa [hstops] using hu
      exact ⟨h.hashes u hu, fun hlinked => ⟨u, hu, hlinked, rfl⟩⟩
  | validate id records removes =>
    apply hupload id (.validate id records removes)
    · rintro records' removes' he
      cases he
      exact hunclaimed
    · rfl
  | lookup id => exact hupload id (.lookup id) (by simp) rfl
  | link id => exact hupload id (.link id) (by simp) rfl
  | insert id => exact hupload id (.insert id) (by simp) rfl
  | read id => exact hupload id (.read id) (by simp) rfl
  | respond id ok => exact hupload id (.respond id ok) (by simp) rfl
  | abort id => exact hupload id (.abort id) (by simp) rfl

/-- When no validation unlinks a file that another upload has linked and not yet recorded, the file
of every staged narinfo is there, with the digest and the size of its row. -/
theorem staged_bytes_present (hinjective : Function.Injective env.digest) (capacity : ℕ)
    (events : List Event)
    (h : Always (step env) (UnlinksUnclaimed env) (initial capacity) events) :
    let s := run (step env) (initial capacity) events
    ∀ row ∈ s.repository.stagedBlobs.rows, isNarRoute row.route = false →
      ∃ file ∈ s.blobFiles.rows, file.path = row.path ∧ env.digest file.content = row.digest ∧
        file.content.length = row.size := by
  intro s row hrow hroute
  have hs : Intact env s := by
    apply run_invariant (I := Intact env) (C := UnlinksUnclaimed env)
    · intro s e hs hunclaimed
      exact step_intact hinjective hs e hunclaimed
    · exact initial_intact capacity
    · exact h
  exact (hs.rows row hrow hroute).2

end Presence

section Samples

/-- Bytes as characters, which no two texts share. -/
def sampleDigest (bytes : Bytes) : String :=
  String.ofList (bytes.map fun b => Char.ofNat b.toNat)

theorem sampleDigest_injective : Function.Injective sampleDigest := by
  intro a b h
  have hlist := String.ofList_injective h
  apply List.map_injective_iff.mpr _ hlist
  intro x y hxy
  have hchar : ∀ n < 256, (Char.ofNat n).toNat = n := by decide +kernel
  have hnat := congrArg Char.toNat hxy
  rw [hchar _ x.toNat_lt, hchar _ y.toNat_lt] at hnat
  exact UInt8.toNat_inj.mp hnat

def sampleHash (c : Char) : String :=
  String.ofList (List.replicate 32 c)

/-- A parser that takes the text `[1]` for a narinfo of the second hash. -/
def sampleEnv : StagingEnv where
  root := ""
  digest := sampleDigest
  parseNarInfo text := if text = [1] then some ⟨sampleHash 'b', "nar/n", [], 1⟩ else none
  acceptable _ := true
  decodedMetadataBytes := 10
  perBodyBytes := 10
  aggregateBytes := 100

theorem staged_bytes_present_sample :
    let s := run (step sampleEnv) (initial 100)
      [.put 1 (sampleHash 'a') [0], .lookup 1, .link 1, .insert 1, .read 1, .put 2 (sampleHash 'b') [1],
        .lookup 2, .link 2, .validate 1 true true, .insert 2, .read 2, .validate 2 true true]
    ∀ row ∈ s.repository.stagedBlobs.rows, isNarRoute row.route = false →
      ∃ file ∈ s.blobFiles.rows, file.path = row.path ∧ sampleEnv.digest file.content = row.digest ∧
        file.content.length = row.size :=
  staged_bytes_present sampleDigest_injective 100 _ (by decide +kernel)

/-- Two uploads of one content: the discard of the first takes the file from under the second. -/
theorem discarded_file_lost :
    let s := run (step sampleEnv) (initial 100)
      [.put 1 (sampleHash 'a') [1], .lookup 1, .link 1, .insert 1, .read 1, .put 2 (sampleHash 'b') [1],
        .lookup 2, .link 2, .validate 1 true true, .insert 2]
    ∃ row ∈ s.repository.stagedBlobs.rows, isNarRoute row.route = false ∧
      ∀ file ∈ s.blobFiles.rows, file.path ≠ row.path := by
  decide +kernel

end Samples

end StagingArea

end NixstrCache.Nix
