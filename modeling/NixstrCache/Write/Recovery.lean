import NixstrCache.Persistence.CleanBlobs
import NixstrCache.Persistence.Ownership
import NixstrCache.Persistence.WritableOwner
import NixstrCache.Write.Arrivals

/-!
Opening a staging directory after uploads.

Uploads are cut into their transactions, and those of different uploads may come in any order.  A
transaction that fails belongs to an upload that is not answered with success, so it is no step.  A
restart opens the blob store, binds the identity and runs the recompute once for every staged
narinfo.  No call of the file system fails.
-/

namespace NixstrCache.Write

open Durable KeyedTable Runs Persistence Nix Config WritableRoot
open Persistence.WriteRepository (StagedNarInfo StagingNarInfo RepositoryProgram insertStagedBlob
  recordNarInfo commitOverlay discarded onBlobs Current Recorded OverlayCommit)
open Persistence.BlobStore (succeeding)

def reliable : FileAnswers := ⟨none, none, none, fun _ => false⟩

section Model

variable (options : EligibilityOptions)

/-- `EligibilityModel.changed`, where the reading may fail. -/
def recompute (lower : String → Bool) (route : String) : RepositoryProgram Unit := do
  let s ← Program.read
  match Recompute.start options s route with
  | .error e => Program.throw e
  | .ok _ => discarded (commitOverlay (Recompute.admits options lower s route))

/-- `EligibilityModel.reconcile`.  The lower cache may answer each recompute differently. -/
def reconcile (lower : String → String → Bool) : RepositoryProgram Unit := do
  let s ← Program.read
  match s.stagedCandidateHashes options.maxVisited with
  | .error e => Program.throw e
  | .ok hashes => Program.forEach hashes fun hash => recompute options (lower hash) hash

def opening (digest : Bytes → String) (identity session : String) (now : ℕ) : RootProgram Unit := do
  Program.commit fun w => { w.forgetProcess with session := session }
  onRepository (onBlobs (BlobStore.reconcile digest List.length succeeding succeeding now))
  bindIdentity identity reliable

def restart (digest : Bytes → String) (lower : String → String → Bool) (identity session : String)
    (now : ℕ) : RootProgram Unit := do
  opening digest identity session now
  onRepository (reconcile options lower)

def dependents (s : WriteRepository) (hash : String) : List StagedNarInfoRow :=
  s.stagedNarInfos.rows.filter fun r => r.storePathHash ∈ s.affected hash

/-- What a restart reads must be within the ceilings: all staged narinfos together, and for each of
them the narinfos that depend on it. -/
def WithinCeilings (s : WriteRepository) : Prop :=
  s.stagedNarInfos.rows.length ≤ options.maxVisited ∧
    ∀ n ∈ s.stagedNarInfos.rows, ((dependents s n.storePathHash).map
      StagedNarInfoRow.metadataBytes).sum ≤ options.maxMetadataBytes

instance (s : WriteRepository) : Decidable (WithinCeilings options s) := by
  unfold WithinCeilings
  infer_instance

end Model

inductive UploadOp where
  | reserve (token : String) (bytes : ℕ)
  | releaseReservation (token : String)
  | admitBlob (upload : String) (content : Bytes) (token : String)
  | commitRoute (upload route : String) (size : ℕ) (components : List (RouteComponent String))
      (row : StagedBlobRow)
  | releaseUpload (upload : String)
  | insertRow (row : StagedBlobRow)
  | recordNarInfo (hash : String) (info : StagingNarInfo)
  | changed (options : EligibilityOptions) (lower : String → Bool) (route : String)
  /-- The commit at the end of a recompute during which other uploads went on. -/
  | commitOverlay (admitted : List String)
  | restart (options : EligibilityOptions) (lower : String → String → Bool) (session : String)

structure UploadLabel where
  op : UploadOp
  now : ℕ

section Machine

variable (digest : Bytes → String) (identity : String)

/-- The handler records a narinfo once its route is staged and its text names the path. -/
def recordStaged (hash : String) (info : StagingNarInfo) : RepositoryProgram Unit := do
  let s ← Program.read
  if isStorePathHash hash ∧ info.storePathHash = hash ∧ (s.lookup (narInfoRoute hash)).isSome then
    recordNarInfo (narInfoRoute hash) info
  else Program.throw (.typeError "narinfo route mismatch")

def UploadLabel.program (l : UploadLabel) : RootProgram Unit :=
  match l.op with
  | .reserve token bytes => onRepository (onBlobs (BlobStore.reserve succeeding token bytes l.now))
  | .releaseReservation token => onRepository (onBlobs (BlobStore.releaseReservation token))
  | .admitBlob upload content token =>
    onRepository (discarded (onBlobs (BlobStore.promote digest List.length content .write
      (some (.upload upload)) token l.now)))
  | .commitRoute upload route size components row => onRepository do
    onBlobs (BlobStore.commitRoute succeeding l.now route size components (.upload upload))
    insertStagedBlob row
  | .releaseUpload upload =>
    onRepository (onBlobs (BlobStore.releaseOwner succeeding l.now (.upload upload)))
  | .insertRow row => onRepository (insertStagedBlob row)
  | .recordNarInfo hash info => onRepository (recordStaged hash info)
  | .changed options lower route => onRepository (recompute options lower route)
  | .commitOverlay admitted => onRepository (discarded (commitOverlay admitted))
  | .restart options lower session => Write.restart options digest lower identity session l.now

def Answered (w : WritableRoot) (l : UploadLabel) : Prop :=
  ((l.program digest identity).run w).result.isOk = true

instance (w : WritableRoot) (l : UploadLabel) : Decidable (Answered digest identity w l) :=
  inferInstanceAs (Decidable (_ = true))

def uploadStep (w : WritableRoot) (l : UploadLabel) : WritableRoot :=
  match ((l.program digest identity).run w).result with
  | .ok _ => ((l.program digest identity).run w).final w
  | .error _ => w

end Machine

/-- A repository that a restart can read: the narinfos have valid hashes and staged routes, no
generation is ahead of the current one, and the blobs are clean. -/
structure Recoverable (s : WriteRepository) : Prop where
  current : Current s
  hashes : ∀ n ∈ s.stagedNarInfos.rows, isStorePathHash n.storePathHash = true
  routes : ∀ n ∈ s.stagedNarInfos.rows, (s.lookup n.route).isSome = true
  blobs : s.blobs.Clean List.length

abbrev EndsRecoverable {α : Type} (m : RepositoryProgram α) : Prop :=
  Triple Recoverable m (fun _ => True) fun _ => Recoverable

section Uploads

variable {s t : WriteRepository} {options : EligibilityOptions}

theorem recoverable_initial (capacity : ℕ) : Recoverable (.initial capacity) := by
  refine ⟨⟨?_, ?_⟩, ?_, ?_, BlobStore.clean_empty _ _⟩
  all_goals
    intro r hr
    simp [WriteRepository.initial] at hr

theorem Recoverable.with_blobs (h : Recoverable s) {blobs : BlobStore String Bytes}
    (hblobs : blobs.Clean List.length) : Recoverable { s with blobs := blobs } :=
  ⟨⟨h.current.entries, h.current.paths⟩, h.hashes, h.routes, hblobs⟩

theorem onBlobs_recoverable {α : Type} {m : BlobStore.StoreProgram String Bytes α}
    (h : BlobStore.EndsClean List.length (BlobStore.Clean List.length) m) :
    EndsRecoverable (onBlobs m) := by
  refine fun s hs => ⟨fun _ _ => trivial, fun a ha => ?_⟩
  have hfinal : ((onBlobs m).run s).final s = { s with blobs := (m.run s.blobs).final s.blobs } :=
    List.getLastD_map ..
  rw [hfinal]
  exact hs.with_blobs ((h s.blobs hs.blobs).2 a ha)

theorem discarded_recoverable {α : Type} {m : RepositoryProgram α} (h : EndsRecoverable m) :
    EndsRecoverable (discarded m) :=
  Triple.bind h fun _ => Triple.pure _ fun _ hs => hs

theorem insertStagedBlob_recoverable (row : StagedBlobRow) :
    EndsRecoverable (insertStagedBlob row) := by
  refine Triple.transaction fun s a t hs ht => ⟨trivial, ?_⟩
  split at ht
  · cases ht
  · rename_i stagedBlobs hinsert
    cases ht
    refine ⟨⟨hs.current.entries, hs.current.paths⟩, hs.hashes, fun n hn => ?_, hs.blobs⟩
    have hold := hs.routes n hn
    rw [WriteRepository.lookup] at hold ⊢
    rw [Table.find?_insert? hinsert]
    split_ifs
    · rfl
    · exact hold

theorem recordStaged_recoverable (hash : String) (info : StagingNarInfo) :
    EndsRecoverable (recordStaged hash info) := by
  refine fun s hs => ⟨fun _ _ => trivial, fun a ha => ?_⟩
  rw [recordStaged, Program.bind_read_run] at ha ⊢
  split_ifs at ha ⊢ with hstaged
  · obtain ⟨hvalid, rfl, hroute⟩ := hstaged
    obtain ⟨t, hrun, hrecorded⟩ :=
      WriteRepository.recordNarInfo_run (narInfoRoute info.storePathHash) info s
    rw [hrun]
    change Recoverable t
    obtain ⟨stagedNarInfos, stagedReferences, hrest⟩ := hrecorded.rest
    have hrow : ∀ n ∈ t.stagedNarInfos.rows, n ∈ s.stagedNarInfos.rows ∨
        n = ⟨info.storePathHash, narInfoRoute info.storePathHash, info.url, info.rawBytes⟩ := by
      intro n hn
      rw [Table.mem_iff_find?, hrecorded.narInfos] at hn
      split_ifs at hn
      · exact Or.inr (Option.some.inj hn).symm
      · rw [Option.filter_eq_some_iff] at hn
        exact Or.inl (Table.find?_eq_some.mp hn.1).1
    have hlookup : ∀ route, t.lookup route = s.lookup route := by
      intro route
      rw [hrest]
      rfl
    refine ⟨?_, fun n hn => ?_, fun n hn => ?_, ?_⟩
    · rw [hrest]
      exact ⟨hs.current.entries, hs.current.paths⟩
    · rcases hrow n hn with hold | rfl
      · exact hs.hashes n hold
      · exact hvalid
    · rw [hlookup]
      rcases hrow n hn with hold | rfl
      · exact hs.routes n hold
      · exact hroute
    · rw [hrest]
      exact hs.blobs
  · simp at ha

theorem Recoverable.committed {hashes : List String} {generation : ℕ} (hs : Recoverable s)
    (h : WriteRepository.advanceOverlay hashes s = .ok (generation, t)) : Recoverable t := by
  obtain ⟨-, hcommit⟩ := WriteRepository.advanceOverlay_ok hs.current h
  obtain ⟨_, _, rfl⟩ := WriteRepository.advanceOverlay_rest h
  exact ⟨hcommit.current, hs.hashes, hs.routes, hs.blobs⟩

theorem commitOverlay_recoverable (hashes : List String) : EndsRecoverable (commitOverlay hashes) := by
  refine Triple.bind (R := fun _ => Recoverable) (Triple.read fun _ hs => hs) fun s => ?_
  split_ifs
  · exact Triple.pure _ fun _ hs => hs
  · exact Triple.transaction fun t a u ht hu => ⟨trivial, ht.committed hu⟩

end Uploads

section Recomputes

variable {options : EligibilityOptions} {lower : String → Bool} {s t u : WriteRepository}
  {hash route : String}

theorem seedOf_hash (hhash : isStorePathHash hash = true) : s.seedOf hash = some hash := by
  have hlength : hash.toList.length = 32 := by
    simp only [isStorePathHash, decide_eq_true_eq] at hhash
    rw [String.length_toList]
    exact hhash.1
  have hnar : hash.startsWith "nar/" = false := by
    rw [← Bool.not_eq_true, String.startsWith_string_iff]
    intro hstart
    have hnarInfo := isNarRoute_narInfoRoute hhash
    rw [isNarRoute, ← Bool.not_eq_true, String.startsWith_string_iff, narInfoRoute,
      String.toList_append] at hnarInfo
    exact hnarInfo (hstart.trans (List.prefix_append _ _))
  have htake : String.ofList (hash.toList.take 32) = hash := by
    rw [List.take_of_length_le hlength.le, String.ofList_toList]
  have hne : hash ≠ "" := by
    rintro rfl
    simp at hlength
  simp only [WriteRepository.seedOf, hnar, Bool.false_eq_true, if_false, htake, truthy, if_neg hne]

theorem start_isOk (hhash : isStorePathHash hash = true) :
    (∃ r, Recompute.start options s hash = .ok r) ↔
      (dependents s hash).length ≤ options.maxVisited ∧
        ((dependents s hash).map StagedNarInfoRow.metadataBytes).sum ≤ options.maxMetadataBytes := by
  have hseed : truthy (if hash.startsWith "nar/" then
      (s.stagedNarInfos.rows.find? fun r => r.narRoute = hash).map StagedNarInfoRow.storePathHash
    else some (String.ofList (hash.toList.take 32))) = some hash := seedOf_hash hhash
  have hperm : ((dependents s hash).insertionSort fun a b => a.storePathHash ≤ b.storePathHash).Perm
      (dependents s hash) := List.perm_insertionSort _ _
  have hsum : ((((dependents s hash).insertionSort fun a b =>
      a.storePathHash ≤ b.storePathHash).map s.candidateRow).map StagedNarInfo.metadataBytes).sum =
      ((dependents s hash).map StagedNarInfoRow.metadataBytes).sum := by
    rw [List.map_map]
    exact (hperm.map StagedNarInfoRow.metadataBytes).sum_nat
  have haffected : s.affectedCandidates hash options.maxVisited =
      if options.maxVisited < (dependents s hash).length then
        .error (.rangeError "eligibility visited-node ceiling exceeded")
      else
        .ok (((dependents s hash).insertionSort fun a b => a.storePathHash ≤ b.storePathHash).map
          s.candidateRow) := by
    simp only [WriteRepository.affectedCandidates, hseed]
    rw [← hperm.length_eq]
    rfl
  unfold Recompute.start
  rw [haffected]
  by_cases hvisited : options.maxVisited < (dependents s hash).length
  · simp only [if_pos hvisited, exists_false, false_iff, not_and, reduceCtorEq]
    omega
  · simp only [if_neg hvisited, hsum]
    split_ifs with hmetadata
    · simp only [exists_false, false_iff, not_and]
      omega
    · exact iff_of_true ⟨_, rfl⟩ ⟨by omega, by omega⟩

/-- The recovery of `s` has come to `t`: the staged rows are as they were, and no path is lost. -/
structure Recovering (s t : WriteRepository) : Prop where
  recoverable : Recoverable t
  stagedBlobs : t.stagedBlobs = s.stagedBlobs
  stagedNarInfos : t.stagedNarInfos = s.stagedNarInfos
  stagedReferences : t.stagedReferences = s.stagedReferences
  paths : storePaths s ⊆ storePaths t

theorem Recoverable.recovering (h : Recoverable s) : Recovering s s :=
  ⟨h, rfl, rfl, rfl, subset_rfl⟩

theorem Recovering.dependents (h : Recovering s t) (hash : String) :
    dependents t hash = dependents s hash := by
  have hwiden : t.widen = s.widen := by
    funext found
    simp only [WriteRepository.widen, h.stagedReferences]
  have haffected : t.affected hash = s.affected hash := by
    rw [WriteRepository.affected, WriteRepository.affected, hwiden, h.stagedReferences]
  rw [Write.dependents, Write.dependents, haffected, h.stagedNarInfos]

theorem Recovering.committed {hashes : List String} {generation : ℕ} (h : Recovering s t)
    (hcommit : WriteRepository.advanceOverlay hashes t = .ok (generation, u)) : Recovering s u := by
  obtain ⟨-, hoverlay⟩ := WriteRepository.advanceOverlay_ok h.recoverable.current hcommit
  refine ⟨h.recoverable.committed hcommit, hoverlay.stagedBlobs.trans h.stagedBlobs,
    hoverlay.stagedNarInfos.trans h.stagedNarInfos,
    hoverlay.stagedReferences.trans h.stagedReferences, fun hash hhash => ?_⟩
  have hin := h.paths hhash
  simp only [storePaths, Set.mem_ofPred_eq, WriteRepository.mem_overlayStorePathsOf] at hin ⊢
  rw [hoverlay.generation]
  exact (hoverlay.paths hash).mpr (Or.inl hin)

theorem recompute_preserves (lower : String → Bool) (route : String) :
    Preserves (Recovering s) (recompute options lower route) := by
  refine Preserves.of_commits fun t ht u hu => ?_
  rw [recompute, Program.bind_read_run] at hu
  split at hu
  · simp at hu
  · rw [WriteRepository.discarded_commits, commitOverlay, Program.bind_read_run] at hu
    split_ifs at hu
    · simp at hu
    · obtain ⟨generation, hcommit⟩ := Program.mem_transaction_commits.mp hu
      exact ht.committed hcommit

theorem discarded_result {α : Type} {m : RepositoryProgram α} {a : α}
    (h : (m.run s).result = .ok a) : ((discarded m).run s).result = .ok () := by
  rw [discarded, Program.bind_run_ok h]
  rfl

theorem recompute_ok (ht : Recoverable t) (lower : String → Bool) (route : String) :
    ((recompute options lower route).run t).result = .ok () ↔
      ∃ r, Recompute.start options t route = .ok r := by
  rw [recompute, Program.bind_read_run]
  cases hstart : Recompute.start options t route with
  | error e => simp
  | ok r =>
    refine iff_of_true ?_ ⟨r, rfl⟩
    obtain ⟨v, hadmits, hrunning, -⟩ := Recompute.admits_spec lower hstart
    simp only
    rw [hadmits]
    have hfound : ∀ hash ∈ v.admitted, ∃ n, t.stagedNarInfos.find? hash = some n ∧
        (t.lookup n.route).isSome ∧ (t.lookup n.narRoute).isSome := by
      intro hash hhash
      obtain ⟨-, c, rfl, hgranted⟩ := hrunning.sound.admitted hash hhash
      have hc := hgranted.candidate
      rw [hrunning.candidates] at hc
      obtain ⟨n, hn, -, rfl⟩ :=
        (WriteRepository.mem_affectedCandidates (Recompute.start_ok hstart).1 c).mp hc
      exact ⟨n, Table.mem_iff_find?.mp hn, ht.routes n hn, hgranted.found⟩
    by_cases hnone : v.admitted = []
    · apply discarded_result (a := t.currentGeneration)
      rw [commitOverlay, Program.bind_read_run, if_pos hnone]
      rfl
    · obtain ⟨u, hu⟩ := WriteRepository.advanceOverlay_succeeds ht.current hfound
      apply discarded_result (a := t.currentGeneration + 1)
      rw [commitOverlay, Program.bind_read_run, if_neg hnone, Program.transaction_run_ok hu]

end Recomputes

section Restarts

variable {options : EligibilityOptions} {digest : Bytes → String} {s t : WriteRepository}
  {w : WritableRoot} {identity session : String} {now : ℕ}

variable (options) in
theorem reconcile_preserves (lower : String → String → Bool) :
    Preserves (Recovering s) (reconcile options lower) := by
  refine Preserves.bind Preserves.read fun u => ?_
  split
  · exact Preserves.throw _
  · exact Preserves.forEach fun hash _ => recompute_preserves (lower hash) hash

theorem mem_stagedCandidateHashes {hashes : List String} {maxVisited : ℕ}
    (h : s.stagedCandidateHashes maxVisited = .ok hashes) (hash : String) :
    hash ∈ hashes ↔ ∃ n ∈ s.stagedNarInfos.rows, n.storePathHash = hash := by
  unfold WriteRepository.stagedCandidateHashes at h
  simp only at h
  split_ifs at h
  cases h
  rw [(List.perm_insertionSort _ _).mem_iff, List.mem_map]

theorem stagedCandidateHashes_isOk (s : WriteRepository) (maxVisited : ℕ) :
    (∃ hashes, s.stagedCandidateHashes maxVisited = .ok hashes) ↔
      s.stagedNarInfos.rows.length ≤ maxVisited := by
  have hlength : ((s.stagedNarInfos.rows.map StagedNarInfoRow.storePathHash).insertionSort
      (· ≤ ·)).length = s.stagedNarInfos.rows.length := by
    rw [List.length_insertionSort, List.length_map]
  simp only [WriteRepository.stagedCandidateHashes, hlength]
  split_ifs with hcount
  · simp only [exists_false, false_iff]
    omega
  · exact iff_of_true ⟨_, rfl⟩ (by omega)

variable (options) in
theorem reconcile_ok (hs : Recoverable s) (lower : String → String → Bool) :
    ((reconcile options lower).run s).result = .ok () ↔ WithinCeilings options s := by
  have hround : ∀ {t n}, Recovering s t → n ∈ s.stagedNarInfos.rows →
      (((recompute options (lower n.storePathHash) n.storePathHash).run t).result = .ok () ↔
        (dependents s n.storePathHash).length ≤ options.maxVisited ∧
          ((dependents s n.storePathHash).map StagedNarInfoRow.metadataBytes).sum ≤
            options.maxMetadataBytes) := by
    intro t n ht hn
    rw [recompute_ok ht.recoverable, start_isOk (hs.hashes n hn), ht.dependents]
  rw [reconcile, Program.bind_read_run]
  cases hhashes : s.stagedCandidateHashes options.maxVisited with
  | error e =>
    refine iff_of_false (by simp) fun hwithin => ?_
    obtain ⟨hashes, hok⟩ := (stagedCandidateHashes_isOk s _).mpr hwithin.1
    rw [hok] at hhashes
    cases hhashes
  | ok hashes =>
    have hcount := (stagedCandidateHashes_isOk s options.maxVisited).mp ⟨hashes, hhashes⟩
    have hmem := mem_stagedCandidateHashes hhashes
    simp only
    constructor
    · intro hok
      refine ⟨hcount, fun n hn => ?_⟩
      obtain ⟨t, ht, hresult⟩ := Program.forEach_ok
        (fun hash _ => recompute_preserves (lower hash) hash) hs.recovering hok n.storePathHash
        ((hmem _).mpr ⟨n, hn, rfl⟩)
      exact ((hround ht hn).mp hresult).2
    · rintro ⟨-, hmetadata⟩
      have hreturns : Returns (Recovering s) (Program.forEach hashes fun hash =>
          recompute options (lower hash) hash) := Returns.forEach
        (fun hash _ => recompute_preserves (lower hash) hash)
        (fun hash hhash t ht => ⟨(), by
          obtain ⟨n, hn, rfl⟩ := (hmem hash).mp hhash
          refine (hround ht hn).mpr ⟨?_, hmetadata n hn⟩
          exact (List.length_filter_le _ _).trans hcount⟩)
      obtain ⟨⟨⟩, hok⟩ := hreturns s hs.recovering
      exact hok

/-- The directory belongs to the identity, and the recovery of `s` has come to its repository. -/
structure Opened (identity : String) (s : WriteRepository) (w : WritableRoot) : Prop where
  owner : w.owner = some identity
  recovering : Recovering s w.repository

theorem Recovering.activate (h : Recovering s t) : Recovering s t.activateRows :=
  ⟨⟨⟨h.recoverable.current.entries, h.recoverable.current.paths⟩, h.recoverable.hashes,
    h.recoverable.routes, h.recoverable.blobs⟩, h.stagedBlobs, h.stagedNarInfos, h.stagedReferences,
    h.paths⟩

theorem Recovering.with_blobs (h : Recovering s t) {blobs : BlobStore String Bytes}
    (hblobs : blobs.Clean List.length) : Recovering s { t with blobs := blobs } :=
  ⟨h.recoverable.with_blobs hblobs, h.stagedBlobs, h.stagedNarInfos, h.stagedReferences, h.paths⟩

theorem Recovering.forget (h : Recovering s t) : Recovering s t.forgetProcess :=
  ⟨⟨⟨h.recoverable.current.entries, h.recoverable.current.paths⟩, h.recoverable.hashes,
    h.recoverable.routes, h.recoverable.blobs.dropLeases⟩, h.stagedBlobs, h.stagedNarInfos,
    h.stagedReferences, h.paths⟩

variable (digest session now) in
theorem opening_ok (hcanonical : canonicalWritableIdentity identity = true)
    (hw : Opened identity s w) :
    ((opening digest identity session now).run w).result = .ok () ∧
      Opened identity s (((opening digest identity session now).run w).final w) := by
  have hbinding : Blind (Opened identity s) := by
    rintro w t howner hrepository ⟨h, hrecovering⟩
    exact ⟨howner.trans h, hrepository ▸ hrecovering⟩
  have hbind : Preserves (Opened identity s) (bindIdentity identity reliable) :=
    bindIdentity_preserves hbinding (fun w h => ⟨h.owner, h.recovering.activate⟩)
      (fun w h => h.owner) hcanonical
  have hblobs : ∀ v, Opened identity s v →
      ((onRepository (onBlobs (BlobStore.reconcile digest List.length succeeding succeeding now))).run
        v).result = .ok () ∧
      Opened identity s (((onRepository (onBlobs (BlobStore.reconcile digest List.length succeeding
        succeeding now))).run v).final v) := by
    intro v hv
    obtain ⟨hok, hclean⟩ := BlobStore.reconcile_clean digest succeeding succeeding now
      hv.recovering.recoverable.blobs
    refine ⟨hok, ?_⟩
    rw [onRepository_final]
    refine ⟨hv.owner, ?_⟩
    have hfinal : ((onBlobs (BlobStore.reconcile digest List.length succeeding succeeding now)).run
        v.repository).final v.repository = { v.repository with
          blobs := ((BlobStore.reconcile digest List.length succeeding succeeding now).run
            v.repository.blobs).final v.repository.blobs } := List.getLastD_map ..
    rw [hfinal]
    exact hv.recovering.with_blobs hclean
  have hforget : Opened identity s { w.forgetProcess with session := session } :=
    ⟨hw.owner, hw.recovering.forget⟩
  have hends : ∀ v, Opened identity s v →
      ((bindIdentity identity reliable).run v).result = .ok () ∧
        Opened identity s (((bindIdentity identity reliable).run v).final v) := by
    intro v hv
    have hreturns : Returns _ (bindIdentity identity reliable) :=
      bindIdentity_returns hcanonical rfl rfl
    obtain ⟨⟨⟩, hok⟩ := hreturns v hv.owner
    exact ⟨hok, hbind.final hv⟩
  obtain ⟨hreconciled, hclean⟩ := hblobs _ hforget
  refine Program.bind_ends (a := ⟨⟩) rfl ?_
  rw [Program.commit_final]
  exact Program.bind_ends hreconciled (hends _ hclean)

theorem Recovering.within (h : Recovering s t) :
    WithinCeilings options t ↔ WithinCeilings options s := by
  simp only [WithinCeilings, h.dependents, h.stagedNarInfos]

variable (options digest session now) in
theorem restart_ok (hcanonical : canonicalWritableIdentity identity = true)
    (howner : w.owner = some identity) (hw : Recoverable w.repository)
    (lower : String → String → Bool) :
    ((restart options digest lower identity session now).run w).result = .ok () ↔
      WithinCeilings options w.repository := by
  obtain ⟨hopened, hopen⟩ := opening_ok digest session now
    hcanonical ⟨howner, hw.recovering⟩
  have hrecovers := reconcile_ok options hopen.recovering.recoverable lower
  rw [hopen.recovering.within] at hrecovers
  rw [restart, Program.bind_result_ok, ← hrecovers]
  constructor
  · rintro ⟨⟨⟩, -, hok⟩
    rwa [onRepository_result] at hok
  · intro hok
    refine ⟨(), hopened, ?_⟩
    rwa [onRepository_result]

variable (options digest session now) in
theorem restart_opened (hcanonical : canonicalWritableIdentity identity = true)
    (howner : w.owner = some identity) (hw : Recoverable w.repository)
    (lower : String → String → Bool) :
    Opened identity w.repository
      (((restart options digest lower identity session now).run w).final w) := by
  obtain ⟨hopened, hopen⟩ := opening_ok digest session now
    hcanonical ⟨howner, hw.recovering⟩
  rw [restart, Program.bind_final hopened, onRepository_final]
  generalize ((opening digest identity session now).run w).final w = v at hopen
  have hrecovering := (reconcile_preserves options lower).final hopen.recovering
  exact ⟨hopen.owner, hrecovering⟩

end Restarts

section Runs

variable {digest : Bytes → String} {identity : String} {w : WritableRoot}

structure Bound (identity : String) (w : WritableRoot) : Prop where
  owner : w.owner = some identity
  recoverable : Recoverable w.repository

theorem onRepository_bound {m : RepositoryProgram Unit} (hm : EndsRecoverable m)
    (hw : Bound identity w) (hok : ((onRepository m).run w).result = .ok ()) :
    Bound identity (((onRepository m).run w).final w) := by
  rw [onRepository_final]
  exact ⟨hw.owner, (hm w.repository hw.recoverable).2 () hok⟩

theorem recompute_recoverable (options : EligibilityOptions) (lower : String → Bool)
    (route : String) : EndsRecoverable (recompute options lower route) :=
  fun _ hs => ⟨fun _ _ => trivial, fun _ _ =>
    ((recompute_preserves lower route).final hs.recovering).recoverable⟩

theorem program_bound (hcanonical : canonicalWritableIdentity identity = true)
    (hw : Bound identity w) (l : UploadLabel)
    (hok : ((l.program digest identity).run w).result = .ok ()) :
    Bound identity (((l.program digest identity).run w).final w) := by
  unfold UploadLabel.program at hok ⊢
  cases hop : l.op with
  | reserve token bytes =>
    rw [hop] at hok
    exact onRepository_bound (onBlobs_recoverable (BlobStore.reserve_clean token bytes)) hw hok
  | releaseReservation token =>
    rw [hop] at hok
    exact onRepository_bound (onBlobs_recoverable (BlobStore.releaseReservation_clean token)) hw hok
  | admitBlob upload content token =>
    rw [hop] at hok
    exact onRepository_bound (discarded_recoverable (onBlobs_recoverable
      (BlobStore.promote_clean digest content .write (some (.upload upload)) token))) hw hok
  | commitRoute upload route size components row =>
    rw [hop] at hok
    refine onRepository_bound (Triple.bind (onBlobs_recoverable ?_) fun _ =>
      insertStagedBlob_recoverable row) hw hok
    exact BlobStore.commitRoute_clean rfl route size components
  | releaseUpload upload =>
    rw [hop] at hok
    exact onRepository_bound (onBlobs_recoverable (BlobStore.releaseOwner_clean rfl)) hw hok
  | insertRow row =>
    rw [hop] at hok
    exact onRepository_bound (insertStagedBlob_recoverable row) hw hok
  | recordNarInfo hash info =>
    rw [hop] at hok
    exact onRepository_bound (recordStaged_recoverable hash info) hw hok
  | changed options lower route =>
    rw [hop] at hok
    exact onRepository_bound (recompute_recoverable options lower route) hw hok
  | commitOverlay admitted =>
    rw [hop] at hok
    exact onRepository_bound (discarded_recoverable (commitOverlay_recoverable admitted)) hw hok
  | restart options lower session =>
    have hopened := restart_opened options digest session l.now
      hcanonical hw.owner hw.recoverable lower
    exact ⟨hopened.owner, hopened.recovering.recoverable⟩

theorem uploadStep_bound (hcanonical : canonicalWritableIdentity identity = true)
    (hw : Bound identity w) (l : UploadLabel) : Bound identity (uploadStep digest identity w l) := by
  unfold uploadStep
  split
  · rename_i hok
    exact program_bound hcanonical hw l hok
  · exact hw

/-- After any uploads into a new directory, and any restarts in between, a restart succeeds and keeps
the store paths of the overlay exactly when all staged narinfos together, and for each of them those
that depend on it, are within the ceilings. -/
theorem restart_succeeds (hcanonical : canonicalWritableIdentity identity = true) (capacity : ℕ)
    (howner : w.owner = some identity) (hnew : w.repository = .initial capacity)
    (labels : List UploadLabel) (options : EligibilityOptions) (lower : String → String → Bool)
    (session : String) (now : ℕ) :
    let reached := run (uploadStep digest identity) w labels
    let outcome := (restart options digest lower identity session now).run reached
    (outcome.result = .ok () ∧
        storePaths reached.repository ⊆ storePaths (outcome.final reached).repository) ↔
      WithinCeilings options reached.repository := by
  intro reached outcome
  have hreached : Bound identity reached := by
    refine run_preserves (I := Bound identity) (fun v l hv => uploadStep_bound hcanonical hv l) labels ?_
    exact ⟨howner, hnew ▸ recoverable_initial capacity⟩
  have hok := restart_ok options digest session now
    hcanonical hreached.owner hreached.recoverable lower
  have hopened := restart_opened options digest session now
    hcanonical hreached.owner hreached.recoverable lower
  exact (and_iff_left hopened.recovering.paths).trans hok

end Runs

section Samples

open StagingArea (sampleHash)

/-- A narinfo without references is uploaded, with one recompute after it. -/
def samplePut (options : EligibilityOptions) (c : Char) : List UploadLabel :=
  [⟨.insertRow ⟨narInfoRoute (sampleHash c), "digest", 1, "path"⟩, 1⟩,
    ⟨.recordNarInfo (sampleHash c) ⟨sampleHash c, "nar/n", [], 1⟩, 1⟩,
    ⟨.changed options (fun _ => false) (narInfoRoute (sampleHash c)), 1⟩]

/-- A NAR of one chunk is uploaded and a narinfo that names it, and the directory is opened again. -/
theorem restart_succeeds_admitted :
    let reached := run (uploadStep StagingArea.sampleDigest sampleIdentity) sampleRoot
      ([⟨.reserve "t" 2, 1⟩, ⟨.admitBlob "a" [7, 1] "t", 1⟩,
        ⟨.commitRoute "a" "nar/n" 2 [⟨0, StagingArea.sampleDigest [7, 1], 2⟩]
          ⟨"nar/n", "digest", 2, "path"⟩, 1⟩] ++ samplePut ⟨1, 1⟩ 'a')
    let outcome := (restart ⟨1, 1⟩ StagingArea.sampleDigest (fun _ _ => false) sampleIdentity
      "second" 2).run reached
    outcome.result = .ok () ∧
      storePaths reached.repository ⊆ storePaths (outcome.final reached).repository :=
  (restart_succeeds sampleIdentity_canonical 100 rfl rfl _ ⟨1, 1⟩ (fun _ _ => false) "second" 2).mpr
    (by decide +kernel)

/-- Two narinfos that have nothing to do with each other are more than a restart reads, although
every upload succeeds. -/
theorem unrelated_uploads_stop_restart :
    let labels := samplePut ⟨1, 10⟩ 'a' ++ samplePut ⟨1, 10⟩ 'b'
    let reached := run (uploadStep StagingArea.sampleDigest sampleIdentity) sampleRoot labels
    Always (uploadStep StagingArea.sampleDigest sampleIdentity)
        (Answered StagingArea.sampleDigest sampleIdentity) sampleRoot labels ∧
      ((restart ⟨1, 10⟩ StagingArea.sampleDigest (fun _ _ => false) sampleIdentity "second" 2).run
        reached).result = .error (.rangeError "eligibility visited-node ceiling exceeded") := by
  decide +kernel

end Samples

end NixstrCache.Write
