import NixstrCache.Config.CacheIdentity
import NixstrCache.Persistence.SagaStates

/-!
The owner of a staging directory.

A staging directory is bound to one cache identity.  Beside the repository, its state holds the
owner, the tables that only the binding reads, the files below the directory and the process that
has it open.  The files are changed by uploads and are otherwise free.  The files of the writer's
indexes and of candidate blobs are only named, since binding does not look at them.
-/

namespace NixstrCache.Persistence

open Durable KeyedTable Runs Config WriteRepository

structure WriteLimits where
  perBodyBytes : ℕ
  aggregateBytes : ℕ
deriving DecidableEq, Repr

structure WriteReservationRow where
  token : String
  bytes : ℕ
deriving DecidableEq, Repr

structure ContentBlobRow where
  hash : String
  size : ℕ
  path : String
deriving DecidableEq, Repr

structure BlobOwnerRow where
  owner : String
  hash : String
deriving DecidableEq, Repr

def BlobOwnerRow.key (r : BlobOwnerRow) : String × String := (r.owner, r.hash)

structure WriterRunRow where
  owner : String
  indexPath : String
  session : String
deriving DecidableEq, Repr

structure WriterRunCleanupRow where
  owner : String
  indexPath : String
deriving DecidableEq, Repr

inductive DirEntry where
  | file (name : String) (content : Bytes)
  | symlink (name target : String)
  | directory (name : String) (entries : List DirEntry)
deriving Repr

def DirEntry.name : DirEntry → String
  | .file name _ | .symlink name _ | .directory name _ => name

def DirEntry.isFile : DirEntry → Bool
  | .file .. => true
  | _ => false

mutual

def DirEntry.containsFile : DirEntry → Bool
  | .file .. => true
  | .symlink .. => true
  | .directory _ entries => containsFile entries

def containsFile : List DirEntry → Bool
  | [] => false
  | entry :: entries => entry.containsFile || containsFile entries

end

structure WritableRoot where
  repository : WriteRepository
  owner : Option String
  reservations : Table WriteReservationRow.token
  contentBlobs : Table ContentBlobRow.hash
  blobOwners : Table BlobOwnerRow.key
  writerRuns : Table WriterRunRow.owner
  writerRunCleanup : Table WriterRunCleanupRow.owner
  /-- What is below the directory, if it exists. -/
  spool : Option (List DirEntry)
  session : String
  active : Bool

/-- What the file system answers to one call. -/
structure FileAnswers where
  unreadable : Option Failure
  unwritable : Option Failure
  unremovable : Option Failure
  /-- The paths that stay although they exist. -/
  kept : String → Bool

namespace WritableRoot

abbrev RootProgram (α : Type) := Program WritableRoot Failure α

def initial (capacity : ℕ) (session : String) : WritableRoot where
  repository := WriteRepository.initial capacity
  owner := none
  reservations := .empty
  contentBlobs := .empty
  blobOwners := .empty
  writerRuns := .empty
  writerRunCleanup := .empty
  spool := none
  session := session
  active := false

def onRepository {α : Type} (m : RepositoryProgram α) : RootProgram α where
  run w :=
    let o := m.run w.repository
    ⟨o.commits.map fun repository => { w with repository := repository }, o.result⟩

section Binding

/-- The counts of `IDENTITY_BEARING_TABLES`. -/
def identityBearingCounts (w : WritableRoot) : List ℕ :=
  [ w.repository.stagedBlobs.rows.length,
    w.reservations.rows.length,
    w.repository.stagedNarInfos.rows.length,
    w.repository.stagedReferences.rows.length,
    w.repository.overlayEntries.rows.length,
    w.repository.overlayStorePaths.rows.length,
    w.contentBlobs.rows.length,
    w.blobOwners.rows.length,
    w.writerRuns.rows.length,
    w.writerRunCleanup.rows.length,
    w.repository.batches.rows.length,
    w.repository.batchEntries.rows.length,
    w.repository.pendingCandidate.toList.length,
    w.repository.pendingBlobs.rows.length,
    w.repository.sagas.rows.length,
    w.repository.sagaBlobs.rows.length,
    w.repository.proofs.rows.length,
    w.repository.history.rows.length,
    w.repository.endpointWork.rows.length ]

def stagingHasContent (answers : FileAnswers) (w : WritableRoot) : Except Failure Bool :=
  match answers.unreadable with
  | some e => .error e
  | none =>
    match w.spool with
    | none => .ok false
    | some entries => .ok (containsFile entries)

def writeIdentityMismatch : Failure := .error "durable writable identity mismatch"

/-- The transaction of `bindIdentity`. -/
def bindOwner (identity : String) (answers : FileAnswers) (w : WritableRoot) :
    Except Failure (PUnit × WritableRoot) := do
  match w.owner with
  | some owner => if owner ≠ identity then .error writeIdentityMismatch else .ok (⟨⟩, w)
  | none =>
    let nonempty := w.identityBearingCounts.any (0 < ·)
    let clock := w.repository.clock
    let nondefaultState :=
      w.repository.currentGeneration ≠ 0 ∨ clock.nextToken ≠ 1 ∨ clock.activeToken ≠ none ∨
        clock.generation ≠ none ∨ clock.openedAt ≠ none ∨ clock.lastDirtyAt ≠ none ∨
        clock.baseRoot ≠ none
    if nonempty ∨ nondefaultState then .error writeIdentityMismatch
    else if ← w.stagingHasContent answers then .error writeIdentityMismatch
    else .ok (⟨⟩, { w with owner := some identity })

/-- The part of `bindIdentity` before the activation. -/
def claimOwner (identity : String) (answers : FileAnswers) : RootProgram PUnit :=
  if canonicalWritableIdentity identity = false then
    Program.throw (.typeError "invalid writable identity")
  else Program.transaction (bindOwner identity answers)

end Binding

section Activation

/-- `mkdirSync` with `recursive`. -/
def makeDirectory (name : String) (entries : List DirEntry) : List DirEntry :=
  if entries.any fun entry => entry.name = name then entries
  else entries ++ [.directory name []]

def makeDirectories (w : WritableRoot) : WritableRoot :=
  { w with spool := some (makeDirectory "blobs" (makeDirectory "tmp" (w.spool.getD []))) }

def activateTables (w : WritableRoot) : WritableRoot :=
  { w with
    repository := w.repository.activateRows
    reservations := .empty }

/-- The files directly below `tmp` are removed. -/
def clearTemporary (w : WritableRoot) : WritableRoot :=
  { w with spool := w.spool.map fun entries => entries.map fun entry =>
      match entry with
      | .directory "tmp" inner => .directory "tmp" (inner.filter fun e => ¬e.isFile)
      | entry => entry }

def abandonRun (w : WritableRoot) (run : WriterRunRow) : WritableRoot :=
  { w with
    blobOwners := w.blobOwners.filter fun r => r.owner ≠ run.owner
    writerRunCleanup := w.writerRunCleanup.insertOrReplace ⟨run.owner, run.indexPath⟩
    writerRuns := w.writerRuns.filter fun r => r.owner ≠ run.owner }

/-- `/^inventory-[0-9a-f-]{36}\.sqlite$/` on the last part of a path. -/
def isInventoryPath (path : String) : Bool :=
  let name := (path.toList.reverse.takeWhile (· ≠ '/')).reverse
  let id := (name.drop 10).take 36
  name.take 10 = "inventory-".toList ∧ id.length = 36 ∧
    (id.all fun c => isLowerHex c ∨ c = '-') ∧ name.drop 46 = ".sqlite".toList

def retryWriterRunCleanup (answers : FileAnswers) : RootProgram PUnit := do
  let w ← Program.read
  Program.forEach w.writerRunCleanup.rows fun row =>
    if isInventoryPath row.indexPath ∧
        ∀ suffix ∈ ["", "-wal", "-shm"], answers.kept (row.indexPath ++ suffix) = false then
      Program.commit fun t =>
        { t with writerRunCleanup := t.writerRunCleanup.filter fun r => r.owner ≠ row.owner }
    else pure ⟨⟩

def sweepCandidateBlobs (answers : FileAnswers) : RootProgram PUnit := do
  let w ← Program.read
  let unowned := w.contentBlobs.rows.filter fun b => ¬w.blobOwners.rows.any fun o => o.hash = b.hash
  Program.forEach unowned fun row =>
    if answers.kept row.path then pure ⟨⟩
    else Program.commit fun t =>
      { t with contentBlobs := t.contentBlobs.filter fun b =>
          b.hash ≠ row.hash ∨ t.blobOwners.rows.any fun o => o.hash = row.hash }

def reconcileWriterRuns (answers : FileAnswers) : RootProgram PUnit := do
  let w ← Program.read
  let abandoned := w.writerRuns.rows.filter fun r => r.session ≠ w.session
  Program.commit fun t => abandoned.foldl abandonRun t
  retryWriterRunCleanup answers
  sweepCandidateBlobs answers

def throwIf (failure : Option Failure) : RootProgram PUnit :=
  match failure with
  | some e => Program.throw e
  | none => pure ⟨⟩

def activate (answers : FileAnswers) : RootProgram PUnit := do
  let w ← Program.read
  if w.active then pure ⟨⟩
  else
    throwIf answers.unwritable
    Program.commit makeDirectories
    Program.commit activateTables
    throwIf answers.unremovable
    Program.commit clearTemporary
    Program.commit fun t => { t with active := true }
    reconcileWriterRuns answers

def bindIdentity (identity : String) (answers : FileAnswers) : RootProgram PUnit := do
  claimOwner identity answers
  activate answers

end Activation

section Rows

def reserve (limits : WriteLimits) (token : String) : RootProgram PUnit :=
  Program.transaction fun w =>
    let digests := (w.repository.stagedBlobs.rows.map StagedBlobRow.digest).dedup
    let sizeOf digest := ((w.repository.stagedBlobs.rows.filter fun r => r.digest = digest).map
      StagedBlobRow.size).foldl max 0
    let used := (digests.map sizeOf).sum + (w.reservations.rows.map WriteReservationRow.bytes).sum
    if limits.aggregateBytes < used + limits.perBodyBytes then
      .error (.rangeError "aggregate staging reservation unavailable")
    else
      match w.reservations.insert? ⟨token, limits.perBodyBytes⟩ with
      | none => .error .uniqueConstraint
      | some reservations => .ok (⟨⟩, { w with reservations := reservations })

def release (token : String) : RootProgram PUnit :=
  Program.commit fun w => { w with reservations := w.reservations.filter fun r => r.token ≠ token }

def startWriterRun (runId indexPath : String) : RootProgram PUnit :=
  Program.transaction fun w =>
    if "run:".toList.isPrefixOf runId.toList = false then .error (.typeError "invalid writer run")
    else
      match w.writerRuns.insert? ⟨runId, indexPath, w.session⟩ with
      | none => .error .uniqueConstraint
      | some writerRuns => .ok (⟨⟩, { w with writerRuns := writerRuns })

/-- `recordWriterBlob` without a blob store. -/
def recordWriterBlob (runId : String) (blob : ContentBlobRow) : RootProgram PUnit :=
  Program.transaction fun w =>
    if w.writerRuns.has runId = false then .error (.error "writer run is not live")
    else
      let contentBlobs := w.contentBlobs.insertOrIgnore blob
      if contentBlobs.find? blob.hash ≠ some blob then
        .error (.error "candidate blob identity changed")
      else
        .ok (⟨⟩, { w with
          contentBlobs := contentBlobs
          blobOwners := w.blobOwners.insertOrIgnore ⟨runId, blob.hash⟩ })

def releaseWriterRun (runId : String) (answers : FileAnswers) : RootProgram PUnit := do
  Program.commit fun w =>
    match w.writerRuns.find? runId with
    | some run => w.abandonRun run
    | none => { w with blobOwners := w.blobOwners.filter fun r => r.owner ≠ runId }
  retryWriterRunCleanup answers
  sweepCandidateBlobs answers

end Rows

section Machine

inductive RootOp where
  | opened (session : String)
  | bind (identity : String)
  /-- Whatever an operation of the repository does to its tables. -/
  | repository (operation : RepositoryProgram PUnit)
  | reserve (limits : WriteLimits) (token : String)
  | release (token : String)
  | startWriterRun (runId indexPath : String)
  | recordWriterBlob (runId : String) (blob : ContentBlobRow)
  | releaseWriterRun (runId : String)
  /-- The files below the directory after they were written or removed. -/
  | files (spool : Option (List DirEntry))

/-- An operation with the answers of the file system and, for an interrupted one, the number of
commits before the stop. -/
structure RootLabel where
  op : RootOp
  answers : FileAnswers
  stop : Option ℕ

def forgetProcess (w : WritableRoot) : WritableRoot :=
  { w with
    repository := w.repository.forgetProcess
    active := false }

def RootLabel.program (l : RootLabel) : RootProgram PUnit :=
  match l.op with
  | .opened session => Program.commit fun w => { w.forgetProcess with session := session }
  | .bind identity => bindIdentity identity l.answers
  | .repository operation => onRepository operation
  | .reserve limits token => WritableRoot.reserve limits token
  | .release token => WritableRoot.release token
  | .startWriterRun runId indexPath => WritableRoot.startWriterRun runId indexPath
  | .recordWriterBlob runId blob => WritableRoot.recordWriterBlob runId blob
  | .releaseWriterRun runId => WritableRoot.releaseWriterRun runId l.answers
  | .files spool => Program.commit fun w => { w with spool := spool }

def rootStep (w : WritableRoot) (l : RootLabel) : WritableRoot :=
  match l.stop with
  | none => ((l.program).run w).final w
  | some k => (((l.program).run w).crash w k).forgetProcess

end Machine

section Owner

variable {identity owner : String} {answers : FileAnswers} {w t : WritableRoot}

inductive HoldsFile : List DirEntry → Prop
  | file {entries name content} (h : DirEntry.file name content ∈ entries) : HoldsFile entries
  | symlink {entries name target} (h : DirEntry.symlink name target ∈ entries) : HoldsFile entries
  | nested {entries name inner} (h : DirEntry.directory name inner ∈ entries)
      (hinner : HoldsFile inner) : HoldsFile entries

structure Pristine (w : WritableRoot) : Prop where
  tables : ∀ count ∈ w.identityBearingCounts, count = 0
  generation : w.repository.currentGeneration = 0
  clock : w.repository.clock = initialClock
  files : ∀ entries, w.spool = some entries → ¬HoldsFile entries

def Bindable (w : WritableRoot) (identity : String) : Prop :=
  canonicalWritableIdentity identity = true ∧
    (w.owner = some identity ∨ w.owner = none ∧ w.Pristine)

theorem HoldsFile.cons {entry : DirEntry} {entries : List DirEntry} (h : HoldsFile entries) :
    HoldsFile (entry :: entries) := by
  cases h with
  | file h => exact .file (List.mem_cons_of_mem _ h)
  | symlink h => exact .symlink (List.mem_cons_of_mem _ h)
  | nested h hinner => exact .nested (List.mem_cons_of_mem _ h) hinner

mutual

theorem holdsFile_of_mem (entry : DirEntry) (h : entry.containsFile = true)
    (entries : List DirEntry) (hmem : entry ∈ entries) : HoldsFile entries := by
  cases entry with
  | file name content => exact .file hmem
  | symlink name target => exact .symlink hmem
  | directory name inner => exact .nested hmem (holdsFile_of_containsFile inner h)

theorem holdsFile_of_containsFile (entries : List DirEntry) (h : containsFile entries = true) :
    HoldsFile entries := by
  cases entries with
  | nil => simp [containsFile] at h
  | cons entry entries =>
    rw [containsFile, Bool.or_eq_true] at h
    rcases h with hentry | hrest
    · exact holdsFile_of_mem entry hentry _ List.mem_cons_self
    · exact (holdsFile_of_containsFile entries hrest).cons

end

theorem containsFile_of_mem {entry : DirEntry} {entries : List DirEntry} (hmem : entry ∈ entries)
    (h : entry.containsFile = true) : containsFile entries = true := by
  induction entries with
  | nil => simp at hmem
  | cons first entries ih =>
    rw [containsFile, Bool.or_eq_true]
    rcases List.mem_cons.mp hmem with rfl | hrest
    · exact Or.inl h
    · exact Or.inr (ih hrest)

theorem containsFile_of_holdsFile {entries : List DirEntry} (h : HoldsFile entries) :
    containsFile entries = true := by
  induction h with
  | file h => exact containsFile_of_mem h rfl
  | symlink h => exact containsFile_of_mem h rfl
  | nested h _ ih => exact containsFile_of_mem h ih

theorem containsFile_iff (entries : List DirEntry) :
    containsFile entries = true ↔ HoldsFile entries :=
  ⟨holdsFile_of_containsFile entries, containsFile_of_holdsFile⟩

theorem stagingHasContent_false (answers : FileAnswers) :
    w.stagingHasContent answers = .ok false ↔
      answers.unreadable = none ∧ ∀ entries, w.spool = some entries → ¬HoldsFile entries := by
  unfold stagingHasContent
  cases answers.unreadable with
  | some e => simp
  | none =>
    cases w.spool with
    | none => simp
    | some entries => simp [← containsFile_iff]

theorem clock_eq_initialClock (clock : PublicationClock) :
    clock = initialClock ↔ clock.nextToken = 1 ∧ clock.activeToken = none ∧
      clock.generation = none ∧ clock.openedAt = none ∧ clock.lastDirtyAt = none ∧
      clock.baseRoot = none := by
  cases clock
  simp [initialClock]

theorem bindOwner_unbound {identity : String} (h : w.owner = none) :
    w.bindOwner identity answers =
      if (∀ count ∈ w.identityBearingCounts, count = 0) ∧ w.repository.currentGeneration = 0 ∧
          w.repository.clock = initialClock then
        (w.stagingHasContent answers).bind fun content =>
          if content then .error writeIdentityMismatch
          else .ok (⟨⟩, { w with owner := some identity })
      else .error writeIdentityMismatch := by
  have htables : (w.identityBearingCounts.any (0 < ·)) = true ↔
      ¬∀ count ∈ w.identityBearingCounts, count = 0 := by
    simp [Nat.pos_iff_ne_zero]
  have hstate := clock_eq_initialClock w.repository.clock
  simp only [bindOwner, h]
  split_ifs with hnonempty hpristine hpristine
  · exfalso
    rcases hnonempty with hnonempty | hnonempty
    · exact htables.mp hnonempty hpristine.1
    · obtain ⟨htoken, hactive, hstart, hopened, hdirty, hbase⟩ := hstate.mp hpristine.2.2
      simp [hpristine.2.1, htoken, hactive, hstart, hopened, hdirty, hbase] at hnonempty
  · rfl
  · rfl
  · exfalso
    obtain ⟨htable, hgeneration⟩ := not_or.mp hnonempty
    have hempty := Classical.not_not.mp (mt htables.mpr htable)
    simp only [ne_eq, not_or, not_not] at hgeneration
    obtain ⟨hzero, hclock⟩ := hgeneration
    exact hpristine ⟨hempty, hzero, hstate.mpr hclock⟩

theorem bindOwner_ok {identity : String} :
    w.bindOwner identity answers = .ok (⟨⟩, t) ↔
      (w.owner = some identity ∧ t = w) ∨
        (w.owner = none ∧ w.Pristine ∧ answers.unreadable = none ∧
          t = { w with owner := some identity }) := by
  cases howner : w.owner with
  | some owner =>
    by_cases hsame : owner = identity
    · simp [bindOwner, howner, hsame, eq_comm]
    · simp [bindOwner, howner, hsame]
  | none =>
    rw [bindOwner_unbound howner]
    have hcontent := stagingHasContent_false (w := w) answers
    split_ifs with hstate
    · obtain ⟨htables, hgeneration, hclock⟩ := hstate
      cases hread : w.stagingHasContent answers with
      | error e =>
        simp only [Except.bind, reduceCtorEq, false_and, true_and, false_or, false_iff, not_and]
        intro hpristine hreadable
        rw [hcontent.mpr ⟨hreadable, hpristine.files⟩] at hread
        cases hread
      | ok content =>
        cases content with
        | true =>
          simp only [Except.bind, if_true, reduceCtorEq, false_and, true_and, false_or, false_iff,
            not_and]
          intro hpristine hreadable
          rw [hcontent.mpr ⟨hreadable, hpristine.files⟩] at hread
          cases hread
        | false =>
          obtain ⟨hreadable, hfiles⟩ := hcontent.mp hread
          have hpristine : w.Pristine := ⟨htables, hgeneration, hclock, hfiles⟩
          simp [Except.bind, hpristine, hreadable, eq_comm]
    · simp only [false_and, true_and, false_or, false_iff, not_and]
      intro hpristine
      exact absurd ⟨hpristine.tables, hpristine.generation, hpristine.clock⟩ hstate

theorem claimOwner_error {identity : String} {e : Failure}
    (h : ((claimOwner identity answers).run w).result = .error e) :
    (claimOwner identity answers).run w = ⟨[], .error e⟩ := by
  unfold claimOwner at h ⊢
  split_ifs at h ⊢ with hcanonical
  · simpa using h
  · cases hbind : w.bindOwner identity answers with
    | error e' =>
      rw [Program.transaction_run_error hbind] at h ⊢
      simpa using h
    | ok r => simp [Program.transaction_run_ok (a := r.1) (t := r.2) hbind] at h

theorem claimOwner_ok {identity : String}
    (h : ((claimOwner identity answers).run w).result = .ok ⟨⟩) :
    w.Bindable identity ∧ ∃ t, t.owner = some identity ∧
      (claimOwner identity answers).run w = ⟨[t], .ok ⟨⟩⟩ := by
  unfold claimOwner at h ⊢
  split_ifs at h ⊢ with hcanonical
  · simp at h
  · rw [Bool.not_eq_false] at hcanonical
    cases hbind : w.bindOwner identity answers with
    | error e => simp [Program.transaction_run_error hbind] at h
    | ok r =>
      obtain ⟨⟨⟩, t⟩ := r
      rw [Program.transaction_run_ok hbind]
      rcases bindOwner_ok.mp hbind with ⟨howner, rfl⟩ | ⟨howner, hpristine, -, rfl⟩
      · exact ⟨⟨hcanonical, Or.inl howner⟩, t, howner, rfl⟩
      · exact ⟨⟨hcanonical, Or.inr ⟨howner, hpristine⟩⟩, _, rfl, rfl⟩

theorem claimOwner_result {identity : String} :
    ((claimOwner identity answers).run w).result = .ok ⟨⟩ ↔
      w.Bindable identity ∧ (w.owner = none → answers.unreadable = none) := by
  constructor
  · intro h
    obtain ⟨hbindable, -⟩ := claimOwner_ok h
    refine ⟨hbindable, fun hnone => ?_⟩
    unfold claimOwner at h
    rw [if_neg (by simp [hbindable.1])] at h
    cases hbind : w.bindOwner identity answers with
    | error e => simp [Program.transaction_run_error hbind] at h
    | ok r =>
      rcases bindOwner_ok.mp (show w.bindOwner identity answers = .ok (⟨⟩, r.2) from hbind) with
        ⟨howner, -⟩ | ⟨-, -, hreadable, -⟩
      · simp [hnone] at howner
      · exact hreadable
  · rintro ⟨⟨hcanonical, howner⟩, hreadable⟩
    obtain ⟨t, hbind⟩ : ∃ t, w.bindOwner identity answers = .ok (⟨⟩, t) := by
      rcases howner with howner | ⟨hnone, hpristine⟩
      · exact ⟨w, bindOwner_ok.mpr (Or.inl ⟨howner, rfl⟩)⟩
      · exact ⟨_, bindOwner_ok.mpr (Or.inr ⟨hnone, hpristine, hreadable hnone, rfl⟩)⟩
    rw [claimOwner, if_neg (by simp [hcanonical]), Program.transaction_run_ok hbind]

end Owner

section Runs

variable {identity : String} {owner : Option String} {answers : FileAnswers} {w : WritableRoot}

def Blind (I : WritableRoot → Prop) : Prop :=
  ∀ w t : WritableRoot, t.owner = w.owner → t.repository = w.repository → I w → I t

section Activating

variable {I : WritableRoot → Prop}

theorem retryWriterRunCleanup_preserves (hI : Blind I) (answers : FileAnswers) :
    Preserves I (retryWriterRunCleanup answers) := by
  refine Preserves.bind Preserves.read fun w => Preserves.forEach fun row _ => ?_
  split_ifs
  · exact Preserves.commit fun t h => hI t _ rfl rfl h
  · exact Preserves.pure _

theorem sweepCandidateBlobs_preserves (hI : Blind I) (answers : FileAnswers) :
    Preserves I (sweepCandidateBlobs answers) := by
  refine Preserves.bind Preserves.read fun w => Preserves.forEach fun row _ => ?_
  split_ifs
  · exact Preserves.pure _
  · exact Preserves.commit fun t h => hI t _ rfl rfl h

theorem abandonRuns_same (runs : List WriterRunRow) (w : WritableRoot) :
    (runs.foldl abandonRun w).owner = w.owner ∧
      (runs.foldl abandonRun w).repository = w.repository := by
  induction runs generalizing w with
  | nil => exact ⟨rfl, rfl⟩
  | cons run runs ih => exact ih (w.abandonRun run)

theorem reconcileWriterRuns_preserves (hI : Blind I) (answers : FileAnswers) :
    Preserves I (reconcileWriterRuns answers) := by
  refine Preserves.bind Preserves.read fun w => Preserves.bind ?_ fun _ => Preserves.bind ?_ fun _ => ?_
  · refine Preserves.commit fun t h => ?_
    obtain ⟨howner, hrepository⟩ := abandonRuns_same _ t
    exact hI t _ howner hrepository h
  · exact retryWriterRunCleanup_preserves hI answers
  · exact sweepCandidateBlobs_preserves hI answers

theorem throwIf_preserves (failure : Option Failure) : Preserves I (throwIf failure) := by
  cases failure with
  | none => exact Preserves.pure _
  | some e => exact Preserves.throw e

theorem activate_preserves (hI : Blind I) (htables : ∀ w, I w → I w.activateTables)
    (answers : FileAnswers) : Preserves I (activate answers) := by
  refine Preserves.bind Preserves.read fun w => ?_
  split_ifs
  · exact Preserves.pure _
  · refine Preserves.bind (throwIf_preserves _) fun _ => ?_
    refine Preserves.bind (Preserves.commit fun t h => hI t _ rfl rfl h) fun _ => ?_
    refine Preserves.bind (Preserves.commit fun t h => htables t h) fun _ => ?_
    refine Preserves.bind (throwIf_preserves _) fun _ => ?_
    refine Preserves.bind (Preserves.commit fun t h => hI t _ rfl rfl h) fun _ => ?_
    refine Preserves.bind (Preserves.commit fun t h => hI t _ rfl rfl h) fun _ => ?_
    exact reconcileWriterRuns_preserves hI answers

end Activating

abbrev KeepsOwner (m : RootProgram PUnit) : Prop :=
  ∀ owner, Preserves (fun w : WritableRoot => w.owner = owner) m

theorem blind_owner (owner : Option String) : Blind fun w => w.owner = owner :=
  fun _ _ howner _ h => howner.trans h

theorem activate_keepsOwner (answers : FileAnswers) : KeepsOwner (activate answers) :=
  fun owner => activate_preserves (blind_owner owner) (fun _ h => h) answers

theorem bindIdentity_refused {e : Failure}
    (h : ((claimOwner identity answers).run w).result = .error e) :
    (bindIdentity identity answers).run w = ⟨[], .error e⟩ := by
  rw [bindIdentity, Program.bind_run_error h, claimOwner_error h]

theorem bindIdentity_claimed (h : ((claimOwner identity answers).run w).result = .ok ⟨⟩) :
    w.Bindable identity ∧
      ∀ t ∈ ((bindIdentity identity answers).run w).commits, t.owner = some identity := by
  obtain ⟨hbindable, u, howner, hrun⟩ := claimOwner_ok h
  refine ⟨hbindable, fun t ht => ?_⟩
  have hfinal : ((claimOwner identity answers).run w).final w = u := by
    rw [hrun]
    rfl
  rw [bindIdentity, Program.bind_run_ok h, hfinal, hrun] at ht
  rcases List.mem_append.mp ht with ht | ht
  · rwa [List.mem_singleton.mp ht]
  · exact (activate_keepsOwner answers (some identity) u howner).1 t ht

theorem bindIdentity_commits {t : WritableRoot}
    (ht : t ∈ ((bindIdentity identity answers).run w).commits) :
    w.Bindable identity ∧ t.owner = some identity := by
  cases h : ((claimOwner identity answers).run w).result with
  | error e => simp [bindIdentity_refused h] at ht
  | ok a =>
    obtain ⟨hbindable, howner⟩ := bindIdentity_claimed h
    exact ⟨hbindable, howner t ht⟩

theorem onRepository_keepsOwner (m : RepositoryProgram PUnit) : KeepsOwner (onRepository m) := by
  intro owner
  refine Preserves.of_commits fun w h t ht => ?_
  obtain ⟨repository, -, rfl⟩ := List.mem_map.mp ht
  exact h

theorem transaction_keepsOwner {f : WritableRoot → Except Failure (PUnit × WritableRoot)}
    (h : ∀ w a t, f w = .ok (a, t) → t.owner = w.owner) : KeepsOwner (Program.transaction f) :=
  fun _ => Preserves.transaction fun w a t howner hf => (h w a t hf).trans howner

theorem reserve_keepsOwner (limits : WriteLimits) (token : String) :
    KeepsOwner (reserve limits token) := by
  refine transaction_keepsOwner fun w a t hf => ?_
  simp only at hf
  split_ifs at hf
  split at hf
  · cases hf
  · cases hf
    rfl

theorem startWriterRun_keepsOwner (runId indexPath : String) :
    KeepsOwner (startWriterRun runId indexPath) := by
  refine transaction_keepsOwner fun w a t hf => ?_
  split_ifs at hf
  split at hf
  · cases hf
  · cases hf
    rfl

theorem recordWriterBlob_keepsOwner (runId : String) (blob : ContentBlobRow) :
    KeepsOwner (recordWriterBlob runId blob) := by
  refine transaction_keepsOwner fun w a t hf => ?_
  simp only at hf
  split_ifs at hf
  cases hf
  rfl

theorem releaseWriterRun_keepsOwner (runId : String) (answers : FileAnswers) :
    KeepsOwner (releaseWriterRun runId answers) := by
  intro owner
  refine Preserves.bind (Preserves.commit fun w h => ?_) fun _ => Preserves.bind ?_ fun _ => ?_
  · split
    · exact h
    · exact h
  · exact retryWriterRunCleanup_preserves (blind_owner owner) answers
  · exact sweepCandidateBlobs_preserves (blind_owner owner) answers

theorem program_keepsOwner (l : RootLabel) (owner : String) :
    Preserves (fun w : WritableRoot => w.owner = some owner) l.program := by
  unfold RootLabel.program
  cases l.op with
  | opened session => exact Preserves.commit fun _ h => h
  | bind identity =>
    refine Preserves.of_commits fun w h t ht => ?_
    obtain ⟨⟨-, hclaim⟩, howner⟩ := bindIdentity_commits ht
    rcases hclaim with hsame | ⟨hnone, -⟩
    · rw [howner, ← hsame, h]
    · simp [h] at hnone
  | repository operation => exact onRepository_keepsOwner operation _
  | reserve limits token => exact reserve_keepsOwner limits token _
  | release token => exact Preserves.commit fun _ h => h
  | startWriterRun runId indexPath => exact startWriterRun_keepsOwner runId indexPath _
  | recordWriterBlob runId blob => exact recordWriterBlob_keepsOwner runId blob _
  | releaseWriterRun runId => exact releaseWriterRun_keepsOwner runId l.answers _
  | files spool => exact Preserves.commit fun _ h => h

theorem rootStep_owner (w : WritableRoot) (l : RootLabel) {owner : String}
    (h : w.owner = some owner) : (rootStep w l).owner = some owner := by
  unfold rootStep
  split
  · exact (program_keepsOwner l owner).final h
  · exact (program_keepsOwner l owner).crash h _

theorem run_owner (w : WritableRoot) (labels : List RootLabel) {owner : String}
    (h : w.owner = some owner) : (run rootStep w labels).owner = some owner :=
  run_preserves (I := fun w : WritableRoot => w.owner = some owner) (fun _ l h => rootStep_owner _ l h) labels h

theorem bindIdentity_ok (h : ((bindIdentity identity answers).run w).result = .ok ⟨⟩) :
    w.Bindable identity := by
  obtain ⟨⟨⟩, hclaim, -⟩ := Program.bind_result_ok.mp h
  exact (bindIdentity_claimed hclaim).1

variable (answers) in
theorem claimOwner_again (hcanonical : canonicalWritableIdentity identity = true)
    (howner : w.owner = some identity) :
    (claimOwner identity answers).run w = ⟨[w], .ok ⟨⟩⟩ := by
  simp [claimOwner, hcanonical, Program.transaction, bindOwner, howner]

theorem bindIdentity_again (hcanonical : canonicalWritableIdentity identity = true)
    (howner : w.owner = some identity) (hactive : w.active = true) :
    (bindIdentity identity answers).run w = ⟨[w], .ok ⟨⟩⟩ := by
  have hclaim := claimOwner_again answers hcanonical howner
  have hactivate : (activate answers).run w = ⟨[], .ok ⟨⟩⟩ := by
    rw [activate, Program.bind_read_run, if_pos hactive]
    rfl
  rw [bindIdentity, Program.bind_run_ok (a := ⟨⟩) (by rw [hclaim]), hclaim]
  change (⟨[w] ++ ((activate answers).run w).commits, ((activate answers).run w).result⟩ :
    Outcome WritableRoot Failure PUnit) = _
  rw [hactivate]
  rfl

theorem claimOwner_other {owner : String} (hcanonical : canonicalWritableIdentity identity = true)
    (howner : w.owner = some owner) (hother : owner ≠ identity) :
    (claimOwner identity answers).run w = ⟨[], .error writeIdentityMismatch⟩ := by
  simp [claimOwner, hcanonical, Program.transaction, bindOwner, howner, hother]

theorem activate_returns (hwritable : answers.unwritable = none)
    (hremovable : answers.unremovable = none) : Returns (fun _ => True) (activate answers) := by
  have hkeep : ∀ {m : RootProgram PUnit}, Triple (fun _ => True) m (fun _ => True) fun _ _ => True :=
    fun _ _ => ⟨fun _ _ => trivial, fun _ _ => trivial⟩
  have hloop : ∀ {ρ : Type} (rows : List ρ) (f : ρ → RootProgram PUnit),
      (∀ row, Returns (fun _ => True) (f row)) → Returns (fun _ => True) (Program.forEach rows f) :=
    fun rows f hf => Returns.forEach (fun _ _ => hkeep) fun row _ => hf row
  refine Returns.read_bind fun w => ?_
  split_ifs
  · exact Returns.pure _
  · rw [hwritable, hremovable]
    refine Returns.bind (Returns.pure _) hkeep fun _ => ?_
    refine Returns.bind (Returns.commit _) hkeep fun _ => ?_
    refine Returns.bind (Returns.commit _) hkeep fun _ => ?_
    refine Returns.bind (Returns.pure _) hkeep fun _ => ?_
    refine Returns.bind (Returns.commit _) hkeep fun _ => ?_
    refine Returns.bind (Returns.commit _) hkeep fun _ => ?_
    refine Returns.read_bind fun _ => ?_
    refine Returns.bind (Returns.commit _) hkeep fun _ => Returns.bind ?_ hkeep fun _ => ?_
    · refine Returns.read_bind fun _ => hloop _ _ fun row => ?_
      split_ifs
      · exact Returns.commit _
      · exact Returns.pure _
    · refine Returns.read_bind fun _ => hloop _ _ fun row => ?_
      split_ifs
      · exact Returns.pure _
      · exact Returns.commit _

theorem bindIdentity_completes (hclaim : ((claimOwner identity answers).run w).result = .ok ⟨⟩)
    (hwritable : answers.unwritable = none) (hremovable : answers.unremovable = none) :
    ((bindIdentity identity answers).run w).result = .ok ⟨⟩ ∧
      (((bindIdentity identity answers).run w).final w).owner = some identity := by
  obtain ⟨-, t, howner, hrun⟩ := claimOwner_ok hclaim
  have hfinal : ((claimOwner identity answers).run w).final w = t := by
    rw [hrun]
    rfl
  obtain ⟨⟨⟩, hactivate⟩ := activate_returns hwritable hremovable t trivial
  refine ⟨Program.bind_result_ok.mpr ⟨⟨⟩, hclaim, by rw [hfinal, hactivate]⟩, ?_⟩
  rw [bindIdentity, Program.bind_final hclaim, hfinal]
  exact (activate_keepsOwner answers (some identity)).final howner

theorem bindIdentity_returns (hcanonical : canonicalWritableIdentity identity = true)
    (hwritable : answers.unwritable = none) (hremovable : answers.unremovable = none) :
    Returns (fun w => w.owner = some identity) (bindIdentity identity answers) := by
  intro w howner
  have hclaim := claimOwner_again answers hcanonical howner
  exact ⟨⟨⟩, (bindIdentity_completes (by rw [hclaim]) hwritable hremovable).1⟩

theorem bindIdentity_preserves {I : WritableRoot → Prop} (hI : Blind I)
    (htables : ∀ w, I w → I w.activateTables) (howner : ∀ w, I w → w.owner = some identity)
    (hcanonical : canonicalWritableIdentity identity = true) :
    Preserves I (bindIdentity identity answers) := by
  refine Preserves.of_commits fun w hw t ht => ?_
  have hclaim := claimOwner_again answers hcanonical (howner w hw)
  rw [bindIdentity, Program.bind_run_ok (a := ⟨⟩) (by rw [hclaim]), hclaim] at ht
  rcases List.mem_append.mp ht with ht | ht
  · rwa [List.mem_singleton.mp ht]
  · exact (activate_preserves hI htables answers w hw).1 t ht

theorem onRepository_result {α : Type} (m : RepositoryProgram α) (w : WritableRoot) :
    ((onRepository m).run w).result = (m.run w.repository).result :=
  rfl

theorem onRepository_final {α : Type} (m : RepositoryProgram α) (w : WritableRoot) :
    ((onRepository m).run w).final w =
      { w with repository := (m.run w.repository).final w.repository } :=
  List.getLastD_map ..

/-- In every run a bound directory keeps its owner.  A binding is let pass exactly where the identity may
own the directory and its files can be listed; one that is refused changes nothing, one that is let
pass leaves its identity behind even when it is stopped, and it succeeds unless a later call of the
file system fails.  The identities are those of the configuration, and formatting one and parsing it
gives it back. -/
theorem identity_binding (w : WritableRoot) (labels : List RootLabel) (field : String)
    (diagnostics : List ConfigDiagnostic) :
    (∀ owner, w.owner = some owner → (run rootStep w labels).owner = some owner) ∧
      (∀ identity answers,
        let reached := run rootStep w labels
        let check := (claimOwner identity answers).run reached
        let outcome := (bindIdentity identity answers).run reached
        (outcome.result = .ok ⟨⟩ → reached.Bindable identity) ∧
          (∀ e, check.result = .error e → outcome = ⟨[], .error e⟩) ∧
          (check.result = .ok ⟨⟩ → ∀ t ∈ outcome.commits, t.owner = some identity) ∧
          (check.result = .ok ⟨⟩ ↔
            reached.Bindable identity ∧ (reached.owner = none → answers.unreadable = none)) ∧
          (check.result = .ok ⟨⟩ → answers.unwritable = none → answers.unremovable = none →
            outcome.result = .ok ⟨⟩ ∧ (outcome.final reached).owner = some identity)) ∧
      (∀ value, canonicalWritableIdentity value = true ↔
        (parseCacheIdentity value field diagnostics).1.isSome = true) ∧
      (∀ identity : CacheIdentity,
        (∃ value, (parseCacheIdentity value field diagnostics).1 = some identity) ↔ identity.Valid) ∧
      (∀ value identity, (parseCacheIdentity value field diagnostics).1 = some identity →
        formatCacheIdentity identity = value) ∧
      ∀ identity : CacheIdentity, identity.Valid →
        parseCacheIdentity (formatCacheIdentity identity) field diagnostics =
          (some identity, diagnostics) := by
  refine ⟨fun _ h => run_owner w labels h, fun identity answers => ⟨?_, ?_, ?_, ?_, ?_⟩, fun _ => ?_,
    fun identity => ⟨?_, ?_⟩, fun _ _ h => (parseCacheIdentity_valid h).2,
    fun _ h => parseCacheIdentity_format h⟩
  · exact bindIdentity_ok
  · exact fun e h => bindIdentity_refused h
  · exact fun h => (bindIdentity_claimed h).2
  · exact claimOwner_result
  · exact bindIdentity_completes
  · exact canonicalWritableIdentity_iff field diagnostics
  · rintro ⟨value, h⟩
    exact (parseCacheIdentity_valid h).1
  · intro h
    exact ⟨formatCacheIdentity identity, by rw [parseCacheIdentity_format h]⟩

def sampleIdentity : String :=
  "17091:00112233445566778899aabbccddeeff00112233445566778899aabbccddeeff:"

def otherIdentity : CacheIdentity where
  kind := 37091
  pubkey := "00112233445566778899aabbccddeeff00112233445566778899aabbccddeeff"
  identifier := "main"

def sampleRoot : WritableRoot :=
  { initial 100 "first" with owner := some sampleIdentity, active := true }

theorem sampleIdentity_canonical : canonicalWritableIdentity sampleIdentity = true := by
  decide +kernel

theorem otherIdentity_valid : otherIdentity.Valid :=
  ⟨⟨by decide +kernel, by decide +kernel⟩, Or.inr ⟨rfl, by decide +kernel⟩⟩

theorem initial_counts (capacity : ℕ) (session : String) :
    (initial capacity session).identityBearingCounts = List.replicate 19 0 :=
  rfl

theorem initial_pristine (capacity : ℕ) (session : String) : (initial capacity session).Pristine where
  tables count hcount := by
    rw [initial_counts] at hcount
    exact List.eq_of_mem_replicate hcount
  generation := rfl
  clock := rfl
  files entries hentries := absurd hentries (Option.some_ne_none _).symm

/-- A new directory is bound for the first time.  A bound one is asked for by its owner again and then
by another identity. -/
theorem identity_binding_rebound :
    let answers : FileAnswers := ⟨none, none, none, fun _ => false⟩
    let first := (bindIdentity sampleIdentity answers).run (initial 100 "first")
    let reached := run rootStep sampleRoot [⟨.files (some [.file "info" []]), answers, none⟩]
    let other := formatCacheIdentity otherIdentity
    (first.result = .ok ⟨⟩ ∧ (first.final (initial 100 "first")).owner = some sampleIdentity) ∧
      reached.owner = some sampleIdentity ∧ reached.Bindable sampleIdentity ∧
      (bindIdentity other answers).run reached = ⟨[], .error writeIdentityMismatch⟩ ∧
      parseCacheIdentity other "caches[0]" [] = (some otherIdentity, []) := by
  intro answers first reached other
  have hfirst : ∀ w : WritableRoot, w.Bindable sampleIdentity →
      ((bindIdentity sampleIdentity answers).run w).result = .ok ⟨⟩ ∧
        (((bindIdentity sampleIdentity answers).run w).final w).owner = some sampleIdentity := by
    intro w hbindable
    obtain ⟨-, -, -, hcheck, hcompletes⟩ :=
      (identity_binding w [] "caches[0]" []).2.1 sampleIdentity answers
    exact hcompletes (hcheck.mpr ⟨hbindable, fun _ => rfl⟩) rfl rfl
  have hformat : parseCacheIdentity other "caches[0]" [] = (some otherIdentity, []) :=
    (identity_binding sampleRoot [] "caches[0]" []).2.2.2.2.2 otherIdentity otherIdentity_valid
  have hcanonical : canonicalWritableIdentity other = true :=
    (canonicalWritableIdentity_iff "caches[0]" []).mpr (by rw [hformat]; rfl)
  have hbound : ∀ labels, (run rootStep sampleRoot labels).owner = some sampleIdentity := fun labels =>
    (identity_binding sampleRoot labels "caches[0]" []).1 sampleIdentity rfl
  have hagain : ∀ w : WritableRoot, w.owner = some sampleIdentity → w.active = true →
      w.Bindable sampleIdentity := by
    intro w howner hactive
    refine ((identity_binding w [] "caches[0]" []).2.1 sampleIdentity answers).1 ?_
    rw [run_nil, bindIdentity_again sampleIdentity_canonical howner hactive]
  have hrefused : ∀ w : WritableRoot, w.owner = some sampleIdentity →
      (bindIdentity other answers).run w = ⟨[], .error writeIdentityMismatch⟩ := by
    intro w howner
    refine ((identity_binding w [] "caches[0]" []).2.1 other answers).2.1 _ ?_
    rw [run_nil, claimOwner_other hcanonical howner (by decide +kernel)]
  exact ⟨hfirst _ ⟨sampleIdentity_canonical, Or.inr ⟨rfl, initial_pristine 100 "first"⟩⟩, hbound _,
    hagain _ (hbound _) rfl, hrefused _ (hbound _), hformat⟩

end Runs

end WritableRoot

end NixstrCache.Persistence
