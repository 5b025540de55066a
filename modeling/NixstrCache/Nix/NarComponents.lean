import NixstrCache.Hashtree.FileBuild
import NixstrCache.Nix.NarStaging
import NixstrCache.Persistence.Admissions

/-!
The components of a staged NAR.

Whatever chunks a body comes in and whatever happens between them, the components of an upload are the
consecutive pieces of what has been received, all of them full but the last one.  A file that is built from
them is the one that is built from a plain copy of the body.
-/

namespace NixstrCache.Nix.NarStaging

open Durable KeyedTable Runs Persistence Chunks
open Hashtree.Writer (BuildPlatform WriterLimits WriterState LogicalFile Built buildFile
  buildFile_components componentsOf samplePlatform sampleStorePlatform sampleChunkLimits fullChunk fullChunk_length
  fullChunk_digest sample_chunked sample_stores sample_fits path_built)

variable {env : NarEnv} {l : NarLabel} {s t : NarStaging} {u v : NarUpload}

/-- The components of the pieces, with their positions. -/
def piecesOf (digest : Bytes → String) (pieces : List Bytes) : List (RouteComponent String) :=
  pieces.mapIdx fun i piece => ⟨i, digest piece, piece.length⟩

/-- What the pieces and the buffer are in a phase. -/
def CutAt (pieces : List Bytes) (buffered : Bytes) : NarPhase → Prop
  | .reading => (∀ piece ∈ pieces, piece.length = fileChunkBytes) ∧ buffered.length < fileChunkBytes
  | .admitting _ rest => (∀ piece ∈ pieces, piece.length = fileChunkBytes) ∧
      if rest.isSome then buffered.length = fileChunkBytes
      else buffered ≠ [] ∧ buffered.length ≤ fileChunkBytes
  | .resuming rest => buffered = [] ∧
      if rest.isSome then ∀ piece ∈ pieces, piece.length = fileChunkBytes else Chunked fileChunkBytes pieces
  | .stored => buffered = [] ∧ Chunked fileChunkBytes pieces

def Cut (env : NarEnv) (u : NarUpload) : Prop :=
  ∃ pieces, u.received = pieces.flatten ++ u.buffered ∧ u.components = piecesOf env.digest pieces ∧
    CutAt pieces u.buffered u.phase

def Cuts (env : NarEnv) (s : NarStaging) : Prop :=
  ∀ u ∈ s.nars.rows, Cut env u

theorem Cuts.of_subset (h : Cuts env s) (hsub : ∀ u ∈ t.nars.rows, u ∈ s.nars.rows ∨ Cut env u) :
    Cuts env t := by
  intro u hu
  rcases hsub u hu with hold | hcut
  · exact h u hold
  · exact hcut

theorem mem_setUpload (h : v ∈ (s.setUpload u).nars.rows) : v = u ∨ v ∈ s.nars.rows := by
  obtain ⟨w, hw, rfl⟩ := List.mem_map.mp h
  split_ifs
  · exact Or.inl rfl
  · exact Or.inr hw

theorem Cuts.setUpload (h : Cuts env s) (hcut : Cut env u) : Cuts env (s.setUpload u) := by
  refine h.of_subset fun v hv => ?_
  rcases mem_setUpload hv with rfl | hold
  · exact Or.inr hcut
  · exact Or.inl hold

theorem Cuts.answer (h : Cuts env s) (id status : ℕ) : Cuts env (s.answer id status) :=
  h.of_subset fun _ hu => Or.inl (Table.mem_filter.mp hu).1

theorem Cuts.setBlobs (h : Cuts env s) (blobs : BlobStore String Bytes) : Cuts env (s.setBlobs blobs) :=
  h

theorem Cuts.reject (h : Cuts env s) (status : ℕ) : Cuts env (s.reject l u status) := by
  unfold NarStaging.reject
  exact (h.setBlobs _).answer _ _

theorem Cuts.flush (h : Cuts env s) {rest : Option Bytes}
    (hcut : ∀ token, Cut env { u with phase := .admitting token rest }) : Cuts env (s.flush l u rest) := by
  unfold NarStaging.flush
  dsimp only
  split
  · exact (h.setBlobs _).setUpload (hcut l.token)
  · exact (h.setBlobs _).reject _

theorem Cuts.consume (h : Cuts env s) {pieces : List Bytes} (hreceived : u.received = pieces.flatten ++ u.buffered)
    (hcomponents : u.components = piecesOf env.digest pieces)
    (hfull : ∀ piece ∈ pieces, piece.length = fileChunkBytes) (hroom : u.buffered.length < fileChunkBytes)
    (value : Bytes) : Cuts env (s.consume env l u value) := by
  unfold NarStaging.consume
  have hpart : (u.buffered ++ value.take (fileChunkBytes - u.buffered.length)).length ≤ fileChunkBytes := by
    rw [List.length_append, List.length_take]
    omega
  have hnext : u.received ++ value.take (fileChunkBytes - u.buffered.length) =
      pieces.flatten ++ (u.buffered ++ value.take (fileChunkBytes - u.buffered.length)) := by
    rw [hreceived, List.append_assoc]
  split_ifs with hempty
  · exact h.setUpload ⟨pieces, hreceived, hcomponents, hfull, hroom⟩
  dsimp only
  split_ifs with hceiling hfilled
  · exact h.reject _
  · exact h.flush fun token => ⟨pieces, hnext, hcomponents, hfull, hfilled⟩
  · exact h.setUpload ⟨pieces, hnext, hcomponents, hfull, lt_of_le_of_ne hpart hfilled⟩

theorem piecesOf_concat (digest : Bytes → String) (pieces : List Bytes) (piece : Bytes) :
    piecesOf digest (pieces ++ [piece]) =
      piecesOf digest pieces ++ [⟨(piecesOf digest pieces).length, digest piece, piece.length⟩] := by
  simp [piecesOf, List.mapIdx_append]

theorem Cuts.promoted (h : Cuts env s) {token : String} {rest : Option Bytes} (hcut : Cut env u)
    (hphase : u.phase = .admitting token rest) : Cuts env (s.promoted env l u token rest) := by
  obtain ⟨pieces, hreceived, hcomponents, hat⟩ := hcut
  rw [hphase] at hat
  obtain ⟨hfull, hlast⟩ := hat
  unfold NarStaging.promoted
  dsimp only
  split
  · next entry hresult =>
    have hhash : entry.hash = env.digest u.buffered := by
      have hcases := @BlobStore.promote_cases String Bytes _ env.digest List.length s.blobs u.buffered
        .write (some (.upload u.owner)) token l.now
      rcases hcases with ⟨⟨e, herror⟩, -⟩ | ⟨hok, -⟩
      · rw [hresult] at herror
        cases herror
      · have hfound := Except.ok.inj (hresult.symm.trans hok)
        simpa using List.find?_some hfound.symm
    refine (h.setBlobs _).setUpload ⟨pieces ++ [u.buffered], ?_, ?_, rfl, ?_⟩
    · simp [hreceived]
    · rw [piecesOf_concat, hcomponents, hhash]
    · split_ifs at hlast ⊢ with hrest
      · intro piece hpiece
        rcases List.mem_append.mp hpiece with hold | hnew
        · exact hfull piece hold
        · rw [List.mem_singleton.mp hnew, hlast]
      · exact chunked_concat hfull hlast.1 hlast.2
  · exact (h.setBlobs _).reject _
  · exact (h.setBlobs _).reject _

theorem Cuts.settle (h : Cuts env s) (hcut : Cut env { u with phase := .stored }) :
    Cuts env (s.settle env l u) := by
  unfold NarStaging.settle
  split
  · split
    · dsimp only
      split
      · exact (h.setBlobs _).setUpload hcut
      · exact (h.setBlobs _).reject _
    · exact h.reject _
  · dsimp only
    split
    · exact (h.setBlobs _).reject _
    · split
      · exact (h.setBlobs _).reject _
      · split
        · exact (h.setBlobs _).reject _
        · exact Cuts.setUpload (h.of_subset fun _ hu => Or.inl hu) hcut

theorem Cuts.advance (h : Cuts env s) (hcut : Cut env u) : Cuts env (s.advance env l u) := by
  obtain ⟨pieces, hreceived, hcomponents, hat⟩ := id hcut
  unfold NarStaging.advance
  split
  · next hphase =>
    rw [hphase] at hat
    exact h.consume hreceived hcomponents hat.1 hat.2 _
  · next hphase =>
    rw [hphase] at hat
    obtain ⟨hfull, hroom⟩ := hat
    split_ifs with hempty
    · exact h.setUpload ⟨pieces, hreceived, hcomponents, hempty, chunked_of_full (by decide) hfull⟩
    · exact h.flush fun token => ⟨pieces, hreceived, hcomponents, hfull, hempty, hroom.le⟩
  · next hphase => exact h.promoted hcut hphase
  · next rest hphase =>
    rw [hphase] at hat
    exact h.consume hreceived hcomponents hat.2 (by rw [hat.1]; decide) _
  · next hphase =>
    rw [hphase] at hat
    exact h.settle ⟨pieces, hreceived, hcomponents, hat.1, hat.2⟩
  · exact h.reject _
  · exact (h.setBlobs _).reject _
  · exact h.answer _ _
  · exact h

theorem Cuts.put (h : Cuts env s) (id : ℕ) (route owner : String) : Cuts env (s.put id route owner) := by
  unfold NarStaging.put
  split_ifs
  · exact h.answer _ _
  · exact h
  · split
    · exact h
    · next nars hinsert =>
      refine h.of_subset fun u hu => ?_
      change u ∈ nars.rows at hu
      rw [(Table.insert?_eq_some.mp hinsert).2, List.mem_append, List.mem_singleton] at hu
      rcases hu with hold | rfl
      · exact Or.inl hold
      · exact Or.inr ⟨[], rfl, rfl, by simp, Nat.zero_lt_succ _⟩

theorem Cuts.stage (h : Cuts env s) (e : StagingArea.Event) : Cuts env (s.stage env e) := by
  refine h.of_subset fun u hu => ?_
  unfold NarStaging.stage at hu
  split at hu
  · exact Or.inl hu
  · split at hu
    · exact Or.inl hu
    · exact Or.inl hu
  · dsimp only at hu
    split at hu
    · simp at hu
    · exact Or.inl hu
  · exact Or.inl hu

theorem Cuts.step (h : Cuts env s) (l : NarLabel) : Cuts env (s.step env l) := by
  unfold NarStaging.step
  split
  · exact h.stage _
  · unfold reserveBody
    split_ifs <;> exact h
  · split_ifs <;> exact h
  · exact h.put _ _ _
  · refine h.of_subset fun u hu => Or.inl ?_
    unfold discardRoute at hu
    split at hu
    · exact hu
    · dsimp only at hu
      split at hu <;> exact hu
  · split
    · exact h
    · next u hfound =>
      obtain ⟨id, -, hfind⟩ := Option.bind_eq_some_iff.mp hfound
      exact h.advance (h u (Table.find?_eq_some.mp hfind).1)

section Results

variable {capacity : ℕ} {labels : List NarLabel}

theorem ended_components (hu : u ∈ (run (step env) (initial capacity) labels).nars.rows)
    (hended : u.phase = .stored) : ∃ pieces, Chunked fileChunkBytes pieces ∧ pieces.flatten = u.received ∧
      u.components = piecesOf env.digest pieces := by
  have hcuts : Cuts env (run (step env) (initial capacity) labels) :=
    run_preserves (fun s l hs => hs.step l) labels (by simp [Cuts, initial])
  obtain ⟨pieces, hreceived, hcomponents, hat⟩ := hcuts u hu
  rw [hended] at hat
  exact ⟨pieces, hat.2, by rw [hreceived, hat.1, List.append_nil], hcomponents⟩

/-- In every order of chunks, admissions, other uploads, publications and restarts: when the body of a NAR has
ended, its components are the consecutive pieces of two mebibytes of what has been received, with their
digests and sizes.  Any other upload of the same body has the same components, in this run or another one. -/
theorem nar_components {others : List NarLabel} (hu : u ∈ (run (step env) (initial capacity) labels).nars.rows)
    (hended : u.phase = .stored) :
    (∃ pieces, Chunked fileChunkBytes pieces ∧ pieces.flatten = u.received ∧
      u.components = piecesOf env.digest pieces) ∧
    ∀ v ∈ (run (step env) (initial capacity) others).nars.rows, v.phase = .stored → v.received = u.received →
      v.components = u.components := by
  obtain ⟨pieces, hpieces, hflatten, hcomponents⟩ := ended_components hu hended
  refine ⟨⟨pieces, hpieces, hflatten, hcomponents⟩, fun v hv hvEnded hsame => ?_⟩
  obtain ⟨others, hothers, hvFlatten, hvComponents⟩ := ended_components hv hvEnded
  rw [hvComponents, hcomponents,
    hothers.unique (by decide) hpieces (hvFlatten.trans (hsame.trans hflatten.symm))]

def chunkEnv : NarEnv where
  toStagingEnv := { StagingArea.sampleEnv with
    digest := fun bytes => StagingArea.sampleDigest (samplePlatform.digest bytes)
    perBodyBytes := 4194304 }
  storeRoot := ""

def uploading (b : BlobStore String Bytes) (u : NarUpload) : NarStaging :=
  ⟨{ StagingArea.initial 0 with repository := { WriteRepository.initial 0 with blobs := b } },
    ⟨[u], List.nodup_singleton _⟩, []⟩

def noFailure (_ : String) : Option String :=
  none

def labelled (event : NarEvent) : NarLabel :=
  ⟨event, 0, "t", noFailure⟩

variable {b b₁ b₂ : BlobStore String Bytes} {e : NarEvent} {n : ℕ} {full value rest : Bytes}
variable {left : Option Bytes} {hash : String} {entry : BlobInventoryEntry String}

theorem uploading_setUpload (h : v.id = u.id) : (uploading b u).setUpload v = uploading b v := by
  rw [setUpload, uploading, uploading]
  congr 1
  ext1
  simp [h]

theorem uploading_step (h : subject e = some u.id) :
    step env (uploading b u) (labelled e) = (uploading b u).advance env (labelled e) u := by
  have hfind : (uploading b u).nars.find? u.id = some u := by simp [uploading, Table.find?]
  cases e with
  | chunk id value | done id | promote id | resume id | fail id | respond id ok =>
    obtain rfl : id = u.id := Option.some.inj h
    simp only [step, labelled, subject, Option.bind_some, hfind]
  | staging e | reserve id | abandon id | put id route owner | discard route removes => cases h

theorem uploading_flush (hlength : u.buffered.length = n)
    (hrun : ((BlobStore.reserve noFailure "t" n 0).run b).result = .ok ⟨⟩)
    (hstore : ((BlobStore.reserve noFailure "t" n 0).run b).final b = b₁) :
    (uploading b u).flush (labelled e) u left = uploading b₁ { u with phase := .admitting "t" left } := by
  have hblobs : (uploading b u).blobs = b := rfl
  simp only [flush, labelled, hlength, hblobs, hrun, hstore]
  exact uploading_setUpload rfl

/-- `promote` of what the upload has buffered, with its hash and its length. -/
def promoting (content : Bytes) (hash : String) (n : ℕ) :
    BlobStore.StoreProgram String Bytes (Option (BlobInventoryEntry String)) :=
  BlobStore.promote (fun _ => hash) (fun _ => n) content .write (some (.upload "o")) "t" 0

theorem uploading_promoted (hbuffered : u.buffered = full) (howner : u.owner = "o") (hlength : full.length = n)
    (hhash : env.digest full = hash) (hrun : ((promoting full hash n).run b).result = .ok (some entry))
    (hstore : (((promoting full hash n).run b).final b).dropReservation "t" = b₁) :
    (uploading b u).promoted env (labelled e) u "t" left =
      uploading b₁
        { u with
          buffered := []
          components := u.components ++ [⟨u.components.length, entry.hash, n⟩]
          phase := .resuming left } := by
  have hblobs : (uploading b u).blobs = b := rfl
  have hpromote : (BlobStore.promote env.digest List.length full .write (some (.upload "o")) "t" 0 :
      BlobStore.StoreProgram String Bytes _) = promoting full hash n := by
    rw [promoting, BlobStore.promote, BlobStore.promote, hhash, hlength]
  simp only [promoted, labelled, hblobs, hbuffered, howner, hlength]
  simp only [hpromote, hrun, hstore]
  exact uploading_setUpload rfl

theorem uploading_full (hbuffered : u.buffered = []) (hfull : full.length = fileChunkBytes)
    (hroom : u.received.length + full.length ≤ env.perBodyBytes) :
    (uploading b u).consume env (labelled e) u (full ++ rest) =
      (uploading b u).flush (labelled e) { u with buffered := full, received := u.received ++ full } (some rest) := by
  have hne : full ++ rest ≠ [] := by
    intro hnil
    rw [(List.append_eq_nil_iff.mp hnil).1] at hfull
    exact absurd hfull (by decide)
  have htake : (full ++ rest).take (fileChunkBytes - ([] : Bytes).length) = full := by
    rw [List.length_nil, Nat.sub_zero, ← hfull, List.take_left]
  have hdrop : (full ++ rest).drop (fileChunkBytes - ([] : Bytes).length) = rest := by
    rw [List.length_nil, Nat.sub_zero, ← hfull, List.drop_left]
  simp only [consume, hbuffered, htake, hdrop, if_neg hne, if_neg (Nat.not_lt.mpr hroom), List.nil_append,
    if_pos hfull]

theorem uploading_part (hne : value ≠ []) (hshort : u.buffered.length + value.length < fileChunkBytes)
    (hroom : u.received.length + value.length ≤ env.perBodyBytes) :
    (uploading b u).consume env (labelled e) u value =
      uploading b { u with buffered := u.buffered ++ value, received := u.received ++ value, phase := .reading } := by
  have htake : value.take (fileChunkBytes - u.buffered.length) = value := List.take_of_length_le (by omega)
  have hopen : (u.buffered ++ value).length ≠ fileChunkBytes := by
    rw [List.length_append]
    exact hshort.ne
  simp only [consume, if_neg hne, htake, if_neg (Nat.not_lt.mpr hroom), if_neg hopen]
  exact uploading_setUpload rfl

theorem uploading_settled {size : ℕ} (hsize : u.received.length = size) (hcomponents : u.components ≠ [])
    (hrun : ((BlobStore.commitRoute noFailure 0 u.route size u.components (.upload u.owner)).run b).result =
      .ok ⟨⟩) :
    ((uploading b u).settle env (labelled e) u).nars.rows = [{ u with phase := .stored }] := by
  have hlookup : (uploading b u).area.repository.lookup u.route = none := rfl
  have hblobs : (uploading b u).blobs = b := rfl
  have hinsert : ∀ b' row, ∃ t, ((uploading b u).setBlobs b').area.repository.stagedBlobs.insert? row = some t :=
    fun _ _ => ⟨_, rfl⟩
  obtain ⟨first, more, hfirst⟩ := List.exists_cons_of_ne_nil hcomponents
  obtain ⟨t, ht⟩ := hinsert (((BlobStore.commitRoute noFailure 0 u.route size (first :: more)
    (.upload u.owner)).run b).final b) (rowOf env u first.hash)
  simp only [settle, hlookup, labelled, hsize, hblobs, hrun]
  simp only [hfirst, ht]
  rw [setUpload]
  change [u].map (fun w => if w.id = u.id then _ else w) = _
  simp

def oneHash : String :=
  StagingArea.sampleDigest (List.replicate 32 1)

def twoHash : String :=
  StagingArea.sampleDigest (samplePlatform.digest [2, 3])

def store0 : BlobStore String Bytes :=
  BlobStore.empty 4194304

def store1 : BlobStore String Bytes :=
  ((BlobStore.reserve noFailure "t" 2097152 0).run store0).final store0

def store2 : BlobStore String Bytes :=
  (((promoting fullChunk oneHash 2097152).run store1).final store1).dropReservation "t"

def store3 : BlobStore String Bytes :=
  ((BlobStore.reserve noFailure "t" 2 0).run store2).final store2

def store4 : BlobStore String Bytes :=
  (((promoting [2, 3] twoHash 2).run store3).final store3).dropReservation "t"

def sampleComponents : List (RouteComponent String) :=
  [⟨0, oneHash, 2097152⟩, ⟨1, twoHash, 2⟩]

theorem reserve_first : ((BlobStore.reserve noFailure "t" 2097152 0).run store0).result = .ok ⟨⟩ :=
  rfl

theorem promote_first : ((promoting fullChunk oneHash 2097152).run store1).result =
    .ok (some ⟨oneHash, 2097152, .write, 0, 1⟩) :=
  rfl

theorem reserve_second : ((BlobStore.reserve noFailure "t" 2 0).run store2).result = .ok ⟨⟩ :=
  rfl

theorem promote_second : ((promoting [2, 3] twoHash 2).run store3).result = .ok (some ⟨twoHash, 2, .write, 0, 1⟩) :=
  rfl

theorem commit_both : ((BlobStore.commitRoute noFailure 0 "nar/n" 2097154 sampleComponents (.upload "o")).run
    store4).result = .ok ⟨⟩ :=
  rfl

theorem fullChunk_hash : chunkEnv.digest fullChunk = oneHash := by
  change StagingArea.sampleDigest (samplePlatform.digest fullChunk) = oneHash
  rw [fullChunk_digest]
  rfl

def uploadAt (buffered received : Bytes) (components : List (RouteComponent String)) (phase : NarPhase) :
    NarUpload :=
  ⟨1, "nar/n", "o", buffered, received, components, phase⟩

theorem put_sample : step chunkEnv (initial 4194304) (labelled (.put 1 "nar/n" "o")) =
    uploading store0 (uploadAt [] [] [] .reading) := by
  have hroute : isNarUploadRoute "nar/n" = true := by decide +kernel
  change (initial 4194304).put 1 "nar/n" "o" = _
  rw [put, hroute]
  rfl

theorem uploading_first (hlength : full.length = fileChunkBytes) (hroom : full.length ≤ env.perBodyBytes)
    (hhash : env.digest full = hash)
    (hreserve : ((BlobStore.reserve noFailure "t" n 0).run b).result = .ok ⟨⟩) (hn : fileChunkBytes = n)
    (hstore : ((BlobStore.reserve noFailure "t" n 0).run b).final b = b₁)
    (hpromote : ((promoting full hash n).run b₁).result = .ok (some entry))
    (hpromoted : (((promoting full hash n).run b₁).final b₁).dropReservation "t" = b₂) (rest : Bytes) :
    run (step env) (uploading b (uploadAt [] [] [] .reading))
      [labelled (.chunk 1 (full ++ rest)), labelled (.promote 1)] =
        uploading b₂ (uploadAt [] full [⟨0, entry.hash, n⟩] (.resuming (some rest))) := by
  have hchunk : step env (uploading b (uploadAt [] [] [] .reading)) (labelled (.chunk 1 (full ++ rest))) =
      uploading b₁ (uploadAt full full [] (.admitting "t" (some rest))) := by
    rw [uploading_step rfl]
    exact (uploading_full (u := uploadAt [] [] [] .reading) rfl hlength (by simpa [uploadAt] using hroom)).trans
      (uploading_flush (hlength.trans hn) hreserve hstore)
  have hlast : step env (uploading b₁ (uploadAt full full [] (.admitting "t" (some rest))))
      (labelled (.promote 1)) = uploading b₂ (uploadAt [] full [⟨0, entry.hash, n⟩] (.resuming (some rest))) := by
    rw [uploading_step rfl]
    exact uploading_promoted rfl rfl (hlength.trans hn) hhash hpromote hpromoted
  simp only [run_cons, run_nil, hchunk, hlast]

theorem uploading_last {received piece : Bytes} {components : List (RouteComponent String)}
    (hlength : piece.length = n) (hhash : env.digest piece = hash)
    (hreserve : ((BlobStore.reserve noFailure "t" n 0).run b).result = .ok ⟨⟩)
    (hstore : ((BlobStore.reserve noFailure "t" n 0).run b).final b = b₁)
    (hpromote : ((promoting piece hash n).run b₁).result = .ok (some entry))
    (hpromoted : (((promoting piece hash n).run b₁).final b₁).dropReservation "t" = b₂) (hne : piece ≠ []) :
    run (step env) (uploading b (uploadAt piece received components .reading))
      [labelled (.done 1), labelled (.promote 1)] =
        uploading b₂
          (uploadAt [] received (components ++ [⟨components.length, entry.hash, n⟩]) (.resuming none)) := by
  have hdone : step env (uploading b (uploadAt piece received components .reading)) (labelled (.done 1)) =
      uploading b₁ (uploadAt piece received components (.admitting "t" none)) := by
    rw [uploading_step rfl]
    obtain ⟨first, more, rfl⟩ := List.exists_cons_of_ne_nil hne
    exact uploading_flush hlength hreserve hstore
  have hlast : step env (uploading b₁ (uploadAt piece received components (.admitting "t" none)))
      (labelled (.promote 1)) = uploading b₂
        (uploadAt [] received (components ++ [⟨components.length, entry.hash, n⟩]) (.resuming none)) := by
    rw [uploading_step rfl]
    exact uploading_promoted rfl rfl hlength hhash hpromote hpromoted
  simp only [run_cons, run_nil, hdone, hlast]

theorem first_piece (rest : Bytes) :
    run (step chunkEnv) (uploading store0 (uploadAt [] [] [] .reading))
      [labelled (.chunk 1 (fullChunk ++ rest)), labelled (.promote 1)] =
        uploading store2 (uploadAt [] fullChunk [⟨0, oneHash, 2097152⟩] (.resuming (some rest))) := by
  have hroom : fullChunk.length ≤ chunkEnv.perBodyBytes := by
    rw [fullChunk_length]
    decide
  exact uploading_first fullChunk_length hroom fullChunk_hash reserve_first rfl rfl promote_first rfl rest

theorem last_piece {received : Bytes} (hlength : received.length = 2097154) :
    (run (step chunkEnv) (uploading store2 (uploadAt [2, 3] received [⟨0, oneHash, 2097152⟩] .reading))
      [labelled (.done 1), labelled (.promote 1), labelled (.resume 1)]).nars.rows =
        [uploadAt [] received sampleComponents .stored] := by
  have hshort : ([2, 3] : Bytes).length = 2 := rfl
  have hhash : chunkEnv.digest [2, 3] = twoHash := rfl
  have hreserved : ((BlobStore.reserve noFailure "t" 2 0).run store2).final store2 = store3 := rfl
  have hpromoted : (((promoting [2, 3] twoHash 2).run store3).final store3).dropReservation "t" = store4 := rfl
  have hlast : run (step chunkEnv)
      (uploading store2 (uploadAt [2, 3] received [⟨0, oneHash, 2097152⟩] .reading))
      [labelled (.done 1), labelled (.promote 1)] =
        uploading store4 (uploadAt [] received sampleComponents (.resuming none)) :=
    uploading_last hshort hhash reserve_second hreserved promote_second hpromoted (List.cons_ne_nil _ _)
  have hresume : ((uploading store4 (uploadAt [] received sampleComponents (.resuming none))).settle chunkEnv
      (labelled (.resume 1)) (uploadAt [] received sampleComponents (.resuming none))).nars.rows =
        [uploadAt [] received sampleComponents .stored] :=
    uploading_settled hlength (List.cons_ne_nil _ _) commit_both
  have hlabels : [labelled (.done 1), labelled (.promote 1), labelled (.resume 1)] =
      [labelled (.done 1), labelled (.promote 1)] ++ [labelled (.resume 1)] := rfl
  rw [hlabels, run_append, hlast, run_cons, run_nil, uploading_step rfl]
  exact hresume

theorem resume_rest {received : Bytes} {components : List (RouteComponent String)} (hne : rest ≠ [])
    (hshort : rest.length < fileChunkBytes) (hroom : received.length + rest.length ≤ chunkEnv.perBodyBytes) :
    step chunkEnv (uploading b (uploadAt [] received components (.resuming (some rest)))) (labelled (.resume 1)) =
      uploading b (uploadAt rest (received ++ rest) components .reading) := by
  rw [uploading_step rfl]
  exact uploading_part hne (by simpa [uploadAt] using hshort) hroom

theorem chunk_part {buffered received : Bytes} {components : List (RouteComponent String)} (hne : value ≠ [])
    (hshort : buffered.length + value.length < fileChunkBytes)
    (hroom : received.length + value.length ≤ chunkEnv.perBodyBytes) :
    step chunkEnv (uploading b (uploadAt buffered received components .reading)) (labelled (.chunk 1 value)) =
      uploading b (uploadAt (buffered ++ value) (received ++ value) components .reading) := by
  rw [uploading_step rfl]
  exact uploading_part hne hshort hroom

theorem resume_nothing {received : Bytes} {components : List (RouteComponent String)} :
    step chunkEnv (uploading b (uploadAt [] received components (.resuming (some [])))) (labelled (.resume 1)) =
      uploading b (uploadAt [] received components .reading) := by
  rw [uploading_step rfl]
  exact uploading_setUpload rfl

/-- A body of two pieces in one chunk. -/
def wholeLabels : List NarLabel :=
  [.put 1 "nar/n" "o", .chunk 1 (fullChunk ++ [2, 3]), .promote 1, .resume 1, .done 1, .promote 1,
    .resume 1].map labelled

def cutLabels : List NarLabel :=
  [.put 1 "nar/n" "o", .chunk 1 fullChunk, .promote 1, .resume 1, .chunk 1 [2], .chunk 1 [3], .done 1, .promote 1,
    .resume 1].map labelled

theorem whole_stored : uploadAt [] (fullChunk ++ [2, 3]) sampleComponents .stored ∈
    (run (step chunkEnv) (initial 4194304) wholeLabels).nars.rows := by
  have hlabels : wholeLabels = labelled (.put 1 "nar/n" "o") ::
      ([labelled (.chunk 1 (fullChunk ++ [2, 3])), labelled (.promote 1)] ++
        labelled (.resume 1) :: [labelled (.done 1), labelled (.promote 1), labelled (.resume 1)]) := rfl
  have hroom : fullChunk.length + ([2, 3] : Bytes).length ≤ chunkEnv.perBodyBytes := by
    rw [fullChunk_length]
    decide
  rw [hlabels, run_cons, put_sample, run_append, first_piece, run_cons,
    resume_rest (List.cons_ne_nil _ _) (by decide) hroom, last_piece (by rw [List.length_append, fullChunk_length]; rfl)]
  exact List.mem_singleton_self _

theorem cut_stored : uploadAt [] (fullChunk ++ [2] ++ [3]) sampleComponents .stored ∈
    (run (step chunkEnv) (initial 4194304) cutLabels).nars.rows := by
  have hlabels : cutLabels = labelled (.put 1 "nar/n" "o") ::
      ([labelled (.chunk 1 fullChunk), labelled (.promote 1)] ++ labelled (.resume 1) ::
        labelled (.chunk 1 [2]) :: labelled (.chunk 1 [3]) ::
          [labelled (.done 1), labelled (.promote 1), labelled (.resume 1)]) := rfl
  have hfirst := first_piece []
  rw [List.append_nil] at hfirst
  have hroom : fullChunk.length + ([2] : Bytes).length ≤ chunkEnv.perBodyBytes := by
    rw [fullChunk_length]
    decide
  have hmore : (fullChunk ++ [2]).length + ([3] : Bytes).length ≤ chunkEnv.perBodyBytes := by
    rw [List.length_append, fullChunk_length]
    decide
  have hlength : (fullChunk ++ [2] ++ [3]).length = 2097154 := by
    rw [List.length_append, List.length_append, fullChunk_length]
    rfl
  rw [hlabels, run_cons, put_sample, run_append, hfirst, run_cons, resume_nothing, run_cons,
    chunk_part (List.cons_ne_nil _ _) (by decide) hroom, run_cons,
    chunk_part (List.cons_ne_nil _ _) (by decide) hmore, List.nil_append, List.cons_append, List.nil_append,
    last_piece hlength]
  exact List.mem_singleton_self _

theorem nar_components_sample : ∃ u ∈ (run (step chunkEnv) (initial 4194304) wholeLabels).nars.rows,
    ∃ v ∈ (run (step chunkEnv) (initial 4194304) cutLabels).nars.rows,
      u.components = sampleComponents ∧ v.components = u.components := by
  refine ⟨_, whole_stored, _, cut_stored, rfl, (nar_components whole_stored rfl).2 _ cut_stored rfl ?_⟩
  exact List.append_assoc _ _ _

/-- A component with its hash as a text. -/
def textual (text : List UInt8 → String) (component : RouteComponent (List UInt8)) : RouteComponent String :=
  ⟨component.index, text component.hash, component.size⟩

theorem piecesOf_textual {text : List UInt8 → String} {digest : Bytes → String}
    {hash : List UInt8 → List UInt8} (htext : ∀ bytes, digest bytes = text (hash bytes))
    (pieces : List Bytes) :
    piecesOf digest pieces = (componentsOf hash pieces).map (textual text) := by
  refine List.ext_getElem (by simp [piecesOf, componentsOf]) fun i _ _ => ?_
  simp [piecesOf, componentsOf, textual, htext]

/-- Where the store has the pieces, a file that is built from the components of a staged NAR is the one that is
built from a plain copy of its body, however the copy is read. -/
theorem staged_nar_built {p : BuildPlatform} {limits : WriterLimits} {text : List UInt8 → String}
    {reads : List Bytes} {file : LogicalFile} {built : Built} {before after : WriterState}
    (hu : u ∈ (run (step env) (initial capacity) labels).nars.rows) (hended : u.phase = .stored)
    (htext : ∀ bytes, env.digest bytes = text (p.digest bytes))
    (hstored : ∀ pieces, Chunked fileChunkBytes pieces → pieces.flatten = u.received →
      ∀ s, ∀ piece ∈ pieces, p.lookup s (p.digest piece) = some piece)
    (hfits : Fits fileChunkBytes 0 reads) (hreads : reads.flatten = u.received)
    (hsource : file.source = .path reads) (hbuild : buildFile p limits file before = .ok built after) :
    ∃ components, u.components = components.map (textual text) ∧
      buildFile p limits { file with source := .components components } before = .ok built after := by
  obtain ⟨pieces, hpieces, hflatten, hcomponents⟩ := ended_components hu hended
  refine ⟨componentsOf p.digest pieces, hcomponents.trans (piecesOf_textual htext pieces), ?_⟩
  exact buildFile_components hsource hfits hpieces (hreads.trans hflatten.symm)
    (hstored pieces hpieces hflatten) hbuild

theorem staged_nar_built_sample : ∃ built after components,
    buildFile sampleStorePlatform sampleChunkLimits ⟨"nar/n", .path [fullChunk, [2], [3]], 2097154⟩ ⟨[], []⟩ =
        .ok built after ∧
      sampleComponents = components.map (textual StagingArea.sampleDigest) ∧
      buildFile sampleStorePlatform sampleChunkLimits ⟨"nar/n", .components components, 2097154⟩ ⟨[], []⟩ =
        .ok built after := by
  obtain ⟨built, after, hbuild⟩ := path_built "nar/n"
  have hstored : ∀ pieces, Chunked fileChunkBytes pieces → pieces.flatten = fullChunk ++ [2, 3] →
      ∀ s, ∀ piece ∈ pieces, sampleStorePlatform.lookup s (sampleStorePlatform.digest piece) = some piece := by
    intro pieces hpieces hflatten s piece hpiece
    rw [hpieces.unique (by decide) sample_chunked (hflatten.trans (by simp))] at hpiece
    exact sample_stores s piece hpiece
  have htext : ∀ bytes, chunkEnv.digest bytes =
    StagingArea.sampleDigest (sampleStorePlatform.digest bytes) := fun _ => rfl
  have hreads : [fullChunk, [2], [3]].flatten = fullChunk ++ [2, 3] := by simp
  obtain ⟨components, hcomponents, hsame⟩ :=
    staged_nar_built whole_stored rfl htext hstored sample_fits hreads rfl hbuild
  exact ⟨built, after, components, hbuild, hcomponents, hsame⟩

end Results

end NixstrCache.Nix.NarStaging
