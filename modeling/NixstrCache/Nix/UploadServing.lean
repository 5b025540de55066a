import NixstrCache.Hashtree.BuiltServing
import NixstrCache.Nix.UploadRoutes

/-!
From the upload of a NAR to its download.

A batch hands its files to the build by their routes.  Where the blob store has components of a route the file is
made of these, so that a reader of what has been published gets the bytes that the upload has received.
-/

namespace NixstrCache.Nix

open Durable KeyedTable Runs Persistence Chunks
open Protocol (ManifestLimits)
open Hashtree.Writer (BuildPlatform BuildLimits WriterState LogicalFile BuiltLink Published Readable Shows Names
  Apart sortedComponents Addable merged joinPath IsSegment segmentsOf_joinPath)
open Hashtree (segmentsOf)
open Hashtree.Reader (World Session ResolvedPath)

section Routes

variable {a b route : String} {before files : List LogicalFile}

/-- A path of one part, or one below `nar`. -/
def UploadPath (parts : List String) : Prop :=
  ∃ name, IsSegment name ∧ (parts = [name] ∧ name ≠ "nar" ∨ parts = ["nar", name])

theorem narInfoRoute_segment {hash : String} (h : isStorePathHash hash = true) :
    IsSegment (narInfoRoute hash) ∧ narInfoRoute hash ≠ "nar" := by
  simp only [isStorePathHash, decide_eq_true_eq, List.all_eq_true, Bool.decide_or, Bool.decide_and,
    Bool.or_eq_true, Bool.and_eq_true] at h
  obtain ⟨hlength, hall⟩ := h
  have hlong : (narInfoRoute hash).length = 40 := by
    rw [narInfoRoute, String.length_append, hlength]
    rfl
  refine ⟨⟨fun hempty => ?_, fun hslash => ?_⟩, fun hnar => ?_⟩
  · rw [hempty] at hlong
    exact absurd hlong (by decide)
  · rw [narInfoRoute, String.toList_append, List.mem_append] at hslash
    rcases hslash with hslash | hslash
    · exact absurd (hall _ hslash) (by decide)
    · exact absurd hslash (by decide)
  · rw [hnar] at hlong
    exact absurd hlong (by decide)

theorem narRoute_path (h : isNarUploadRoute route = true) :
    ∃ name, IsSegment name ∧ route = joinPath ["nar", name] := by
  simp only [isNarUploadRoute, decide_eq_true_eq, List.all_eq_true] at h
  obtain ⟨hnar, hlong, hall⟩ := h
  rw [isNarRoute, String.startsWith_string_iff] at hnar
  obtain ⟨rest, hrest⟩ := hnar
  have hdrop : route.toList.drop 4 = rest := by
    rw [← hrest]
    rfl
  refine ⟨String.ofList rest, ⟨fun hempty => ?_, fun hslash => ?_⟩, ?_⟩
  · rw [← String.length_toList, ← hrest, String.ofList_eq_empty_iff.mp hempty] at hlong
    exact absurd hlong (by decide)
  · rw [String.toList_ofList, ← hdrop] at hslash
    exact absurd (hall _ hslash) (by decide)
  · rw [joinPath, ← String.toList_inj, String.toList_ofList, ← hrest]
    simp [List.intercalate]

theorem UploadRoute.path (h : UploadRoute route) : ∃ parts, UploadPath parts ∧ route = joinPath parts := by
  cases h with
  | @narInfo hash hhash =>
    obtain ⟨hsegment, hne⟩ := narInfoRoute_segment hhash
    refine ⟨[narInfoRoute hash], ⟨_, hsegment, Or.inl ⟨rfl, hne⟩⟩, ?_⟩
    simp [joinPath, List.intercalate]
  | nar hroute =>
    obtain ⟨name, hsegment, hpath⟩ := narRoute_path hroute
    exact ⟨_, ⟨name, hsegment, Or.inr rfl⟩, hpath⟩

theorem UploadPath.segments {parts : List String} (h : UploadPath parts) :
    ∀ part ∈ parts, IsSegment part := by
  obtain ⟨name, hname, ⟨rfl, -⟩ | rfl⟩ := h
  · simpa using hname
  · have hnar : IsSegment "nar" := ⟨by decide, by decide⟩
    simpa using And.intro hnar hname

theorem UploadPath.eq_of_begins {parts others : List String} (h : UploadPath parts)
    (hothers : UploadPath others) (hbegins : parts <+: others) : parts = others := by
  obtain ⟨name, -, ⟨rfl, hname⟩ | rfl⟩ := h
  · obtain ⟨other, -, ⟨rfl, -⟩ | rfl⟩ := hothers
    · simpa using hbegins
    · exact absurd (by simpa using hbegins) hname
  · obtain ⟨other, -, ⟨rfl, -⟩ | rfl⟩ := hothers
    · simpa using hbegins.length_le
    · simpa using hbegins

theorem UploadRoute.segments (h : UploadRoute route) :
    UploadPath (segmentsOf route) ∧ route = joinPath (segmentsOf route) := by
  obtain ⟨parts, hparts, rfl⟩ := h.path
  rw [segmentsOf_joinPath hparts.segments]
  exact ⟨hparts, rfl⟩

theorem UploadRoute.eq_of_begins (ha : UploadRoute a) (hb : UploadRoute b)
    (h : segmentsOf a <+: segmentsOf b) : a = b := by
  rw [ha.segments.2, hb.segments.2, ha.segments.1.eq_of_begins hb.segments.1 h]

theorem UploadRoute.apart {old file : LogicalFile} (hold : UploadRoute old.route)
    (hfile : UploadRoute file.route) (hne : old.route ≠ file.route) : Apart old file :=
  ⟨fun h => hne (hold.eq_of_begins hfile h), fun h => hne (hfile.eq_of_begins hold h).symm⟩

theorem uploads_addable (hbefore : ∀ file ∈ before, UploadRoute file.route)
    (hfiles : ∀ file ∈ files, UploadRoute file.route) (hdistinct : (files.map LogicalFile.route).Nodup)
    (hcount : 3 * (before.length + files.length) ≤ 9007199254740991) : Addable before files := by
  refine ⟨fun file hfile => (hfiles file hfile).segments.2, ?_, fun old hold file hfile => ?_, ?_⟩
  · refine (List.pairwise_map.mp hdistinct).imp_of_mem fun hold hfile hne => ?_
    exact (hfiles _ hold).apart (hfiles _ hfile) hne
  · by_cases hsame : old.route = file.route
    · exact Or.inl hsame
    · exact Or.inr ((hbefore old hold).apart (hfiles file hfile) hsame)
  · have hshort : ∀ file ∈ merged before files, (segmentsOf file.route).length + 1 ≤ 3 := by
      intro file hfile
      have hroute : UploadRoute file.route := by
        rcases List.mem_append.mp hfile with hold | hnew
        · exact hbefore file (List.mem_of_mem_filter hold)
        · exact hfiles file hnew
      obtain ⟨name, -, ⟨hparts, -⟩ | hparts⟩ := hroute.segments.1
      · simp [hparts]
      · simp [hparts]
    have hfew : (merged before files).length ≤ before.length + files.length := by
      rw [merged, List.length_append]
      exact Nat.add_le_add_right (List.length_filter_le _ _) _
    have hsum := List.sum_le_card_nsmul ((merged before files).map fun file => (segmentsOf file.route).length + 1)
      3 (by simpa using hshort)
    rw [List.length_map, Nat.nsmul_eq_mul] at hsum
    exact hsum.trans (by omega)

end Routes

namespace NarStaging

section Batches

variable (hash : String → List UInt8) (reads : String → List Bytes) (s : WriteRepository)

def hashedComponents (components : List (RouteComponent String)) : List (RouteComponent (List UInt8)) :=
  components.map fun item => ⟨item.index, hash item.hash, item.size⟩

/-- The file of a row: its route components in the blob store, if there are any, or else what is at its path. -/
def batchFile (row : BatchEntryRow) : LogicalFile where
  route := row.route
  source :=
    match s.blobs.routeComponents row.route with
    | [] => .path (reads row.path)
    | components => .components (hashedComponents hash components)
  size := row.size

def publicationBatchFiles (batch : FrozenBatch) (maxEntries : ℕ) : Except Failure (List LogicalFile) :=
  if s.batchReadable batch = false then .error (.error "frozen batch identity changed")
  else
    let rows := (s.batchEntries.rows.filter fun row => row.batchId = batch.id).insertionSort
      fun a b => Protocol.utf8 a.route ≤ Protocol.utf8 b.route
    if maxEntries < rows.length then .error (.rangeError "logical entry ceiling exceeded")
    else .ok (rows.map (batchFile hash reads s))

variable {hash reads s} {batch : FrozenBatch} {maxEntries : ℕ} {files : List LogicalFile} {file : LogicalFile}

theorem batch_distinct (h : publicationBatchFiles hash reads s batch maxEntries = .ok files) :
    (files.map LogicalFile.route).Nodup := by
  unfold publicationBatchFiles at h
  dsimp only at h
  split_ifs at h
  obtain rfl := Except.ok.inj h
  rw [List.map_map, List.Nodup, List.pairwise_map]
  have hrows : (s.batchEntries.rows.filter fun row => row.batchId = batch.id).Pairwise fun a b => a.route ≠ b.route := by
    refine ((List.pairwise_map.mp s.batchEntries.unique).filter _).imp_of_mem fun ha hb hne hsame => hne ?_
    have hfirst := of_decide_eq_true (List.mem_filter.mp ha).2
    have hsecond := of_decide_eq_true (List.mem_filter.mp hb).2
    exact Prod.ext (hfirst.trans hsecond.symm) hsame
  exact hrows.perm (List.perm_insertionSort _ _).symm fun h => h.symm

theorem batch_named (h : publicationBatchFiles hash reads s batch maxEntries = .ok files) (hfile : file ∈ files) :
    file.route ∈ s.routes := by
  unfold publicationBatchFiles at h
  dsimp only at h
  split_ifs at h
  obtain rfl := Except.ok.inj h
  obtain ⟨row, hrow, rfl⟩ := List.mem_map.mp hfile
  exact WriteRepository.route_of_batch (List.mem_of_mem_filter ((List.perm_insertionSort _ _).mem_iff.mp hrow))

/-- A batch of any run can be added to files under routes of uploads, and what comes of it has such routes. -/
theorem batch_addable {env : NarEnv} {capacity : ℕ} {labels : List NarLabel} {before : List LogicalFile}
    (hbefore : ∀ file ∈ before, UploadRoute file.route)
    (h : publicationBatchFiles hash reads (run (step env) (initial capacity) labels).area.repository batch
      maxEntries = .ok files)
    (hcount : 3 * (before.length + files.length) ≤ 9007199254740991) :
    Addable before files ∧ ∀ file ∈ merged before files, UploadRoute file.route := by
  have hfiles : ∀ file ∈ files, UploadRoute file.route := fun file hfile =>
    (run_uploaded env capacity labels).2.2 _ (batch_named h hfile)
  refine ⟨uploads_addable hbefore hfiles (batch_distinct h) hcount, fun file hfile => ?_⟩
  rcases List.mem_append.mp hfile with hold | hnew
  · exact hbefore file (List.mem_of_mem_filter hold)
  · exact hfiles file hnew

theorem source_of_batch (h : publicationBatchFiles hash reads s batch maxEntries = .ok files) (hfile : file ∈ files)
    (hcomponents : s.blobs.routeComponents file.route ≠ []) :
    file.source = .components (hashedComponents hash (s.blobs.routeComponents file.route)) := by
  unfold publicationBatchFiles at h
  dsimp only at h
  split_ifs at h
  obtain rfl := Except.ok.inj h
  obtain ⟨row, -, rfl⟩ := List.mem_map.mp hfile
  change s.blobs.routeComponents row.route ≠ [] at hcomponents
  change (batchFile hash reads s row).source =
    .components (hashedComponents hash (s.blobs.routeComponents row.route))
  cases hfound : s.blobs.routeComponents row.route with
  | nil => exact absurd hfound hcomponents
  | cons first rest => simp only [batchFile, hfound]

end Batches

section Contents

variable {digest : Bytes → List UInt8} {components : List (RouteComponent (List UInt8))}
variable {chunks others pieces : List Bytes}

theorem sortedComponents_hashed (hash : String → List UInt8) (s : BlobStore String Bytes) (route : String) :
    sortedComponents (hashedComponents hash (s.routeComponents route)) =
      hashedComponents hash (s.routeComponents route) := by
  refine List.Pairwise.insertionSort_eq ?_
  rw [hashedComponents, BlobStore.routeComponents, List.map_map, List.pairwise_map]
  exact List.pairwise_insertionSort (fun a b : ComponentRow String => a.index ≤ b.index) _

theorem names_pieces {hash : String → List UInt8} {text : Bytes → String} {items : List (RouteComponent String)}
    (htext : ∀ bytes, hash (text bytes) = digest bytes) (hfilled : ∀ piece ∈ pieces, piece ≠ [])
    (hsame : BlobStore.identities items = pieces.map fun piece => (text piece, piece.length)) :
    List.Forall₂ (Names digest) (hashedComponents hash items) pieces := by
  induction pieces generalizing items with
  | nil =>
    obtain rfl := List.map_eq_nil_iff.mp hsame
    exact .nil
  | cons piece pieces ih =>
    cases items with
    | nil => cases hsame
    | cons item items =>
      obtain ⟨hpiece, hpieces⟩ := List.forall_mem_cons.mp hfilled
      obtain ⟨hitem, hrest⟩ := List.cons.inj hsame
      obtain ⟨hhash, hsize⟩ := Prod.mk.inj hitem
      refine .cons ⟨?_, hsize.symm, hpiece⟩ (ih hpieces hrest)
      rw [← htext, ← hhash]

theorem named_once (content : List UInt8 → Bytes) (hchunks : List.Forall₂ (Names digest) components chunks)
    (hothers : List.Forall₂ (Names digest) components others)
    (hfound : ∀ chunk ∈ chunks, content (digest chunk) = chunk)
    (hfound' : ∀ chunk ∈ others, content (digest chunk) = chunk) : chunks = others := by
  induction hchunks generalizing others with
  | nil =>
    cases hothers
    rfl
  | cons hfirst _ ih =>
    cases hothers with
    | cons hother hrest =>
      obtain ⟨hchunk, hmore⟩ := List.forall_mem_cons.mp hfound
      obtain ⟨hchunk', hmore'⟩ := List.forall_mem_cons.mp hfound'
      rw [← hchunk, ← hchunk', hfirst.1, hother.1, ih hrest hmore hmore']

end Contents

section Results

variable {env : NarEnv} {capacity : ℕ} {labels later : List NarLabel} {u : NarUpload}
variable {p : BuildPlatform} {limits : BuildLimits} {readLimits : ManifestLimits}
variable {files : List LogicalFile} {root : BuiltLink} {t : WriterState}
variable {w : World} {traversal : Hashtree.Reader.TraversalLimits} {method : Hashtree.Reader.Method}
variable {session session' : Session} {found : ResolvedPath} {hash : String → List UInt8}
variable {reads : String → List Bytes} {batch : FrozenBatch} {maxEntries : ℕ}
variable {batched : List LogicalFile} {file : LogicalFile}

/-- What has been uploaded as a NAR is what is served under its route: when a batch has the route, at any time
after the upload has been stored, and any sequence of builds has published its file, a reader that gets an answer
for the route gets the size of the uploaded body and its bytes, whatever has happened in between. -/
theorem upload_served (hu : u ∈ (run (step env) (initial capacity) labels).nars.rows) (hended : u.phase = .stored)
    (hunique : ∀ bytes, env.digest bytes = env.digest u.received → bytes = u.received)
    (hbatch : publicationBatchFiles hash reads (run (step env) (initial capacity) (labels ++ later)).area.repository
      batch maxEntries = .ok batched) (hbatched : file ∈ batched) (hroute : file.route = u.route)
    (hhash : ∀ bytes, hash (env.digest bytes) = p.digest bytes)
    (h : Published p limits readLimits files root t) (hfile : file ∈ files) (hlimit : 2 ≤ limits.maxLinks)
    (hdigest : ∀ bytes, (p.digest bytes).length = 32)
    (hread : Readable p.toPlatform limits.toWriterLimits readLimits t) (hshows : Shows p readLimits files t w)
    (hresolve : Hashtree.Reader.resolve w traversal root.hash u.route method session = .ok found session') :
    found.size = u.received.length ∧ (found.body.isSome = true ↔ method = .get) ∧
      ∀ body, found.body = some body → ∀ state events,
        let x := Runs.run (Hashtree.Reader.streamStep w traversal) (body, state) events
        x.1.enqueued <+: u.received ∧ (x.1.state = .closed → x.1.enqueued = u.received) := by
  obtain ⟨pieces, hpieces, hfilled, hcomponents, hbody, -⟩ := stored_backed hu hended later
  have hreceived := hunique _ hbody.symm
  obtain ⟨nodes, hcomplete, hroot, hfiles⟩ := h.candidate hlimit hdigest
  obtain ⟨other, hother, hsegments, bytes, hcontains, hlength, hsize, hanswer⟩ :=
    hcomplete.served hfiles hroot hdigest hread hshows hresolve
  obtain rfl : file = other := by
    by_contra hdiffers
    have hsymmetric : Std.Symm Apart := ⟨fun _ _ h => ⟨h.2, h.1⟩⟩
    exact (hfiles.apart.forall hfile hother hdiffers).1 (by rw [hsegments, hroute])
  -- Both what the file contains and what has been uploaded is named by the components.
  have hsome : (run (step env) (initial capacity) (labels ++ later)).area.repository.blobs.routeComponents
      file.route ≠ [] := by
    intro hnone
    rw [hroute] at hnone
    change BlobStore.identities
      ((run (step env) (initial capacity) (labels ++ later)).area.repository.blobs.routeComponents u.route) = _
        at hcomponents
    rw [hnone] at hcomponents
    exact hfilled (List.map_eq_nil_iff.mp hcomponents.symm)
  have hsource := source_of_batch hbatch hbatched hsome
  have hnames := names_pieces hhash (hpieces.filled (by decide)) hcomponents
  have huploaded : file.Contains p.digest pieces.flatten := by
    rw [LogicalFile.Contains, hsource]
    refine ⟨pieces, ?_, rfl⟩
    rw [sortedComponents_hashed, hroute]
    exact hnames
  have hcontained := hcontains
  rw [LogicalFile.Contains, hsource] at hcontained
  obtain ⟨chunks, hchunks, rfl⟩ := hcontained
  rw [sortedComponents_hashed, hroute] at hchunks
  have hsame : chunks = pieces := by
    refine named_once w.content hchunks hnames (fun chunk hchunk => ?_) fun chunk hchunk => ?_
    · exact hshows.contents file hfile _ hcontains chunk (List.infix_of_mem_flatten hchunk)
    · exact hshows.contents file hfile _ huploaded chunk (List.infix_of_mem_flatten hchunk)
  rw [hsame, hreceived] at hanswer hlength
  exact ⟨hsize.trans hlength.symm, hanswer⟩

section Samples

open Hashtree.Writer (samplePlatform samplePlatform_digest sampleBuildLimits sampleTraversal candidateWorld readsBack
  partsFound sample_readable sample_shows built_checked)
open Programs (returned returned_eq_some)

/-- A NAR of one byte. -/
def sampleUploads : List NarLabel :=
  [.put 1 "nar/n" "o", .chunk 1 [1], .done 1, .promote 1, .resume 1].map fun event =>
    ⟨event, 0, "t", fun _ => none⟩

/-- Its narinfo, and the batch with both. -/
def sampleBatching : List NarLabel :=
  [.reserve 2, .staging (.put 2 (StagingArea.sampleHash 'b') [1]), .staging (.lookup 2), .staging (.link 2),
    .staging (.insert 2), .staging (.read 2), .staging (.validate 2 true true),
    .staging (.commitOverlay [StagingArea.sampleHash 'b']),
    .staging (.background ⟨.batch (.markPublicationDirty 1 none), 0, fun _ => none, none⟩),
    .staging (.background ⟨.batch (.claimPublicationBatch 1), 0, fun _ => none, none⟩)].map fun event =>
    ⟨event, 0, "t", fun _ => none⟩

def sampleHashOf (text : String) : List UInt8 :=
  samplePlatform.digest (text.toList.map fun c => UInt8.ofNat c.toNat)

theorem sampleHashOf_digest (bytes : Bytes) :
    sampleHashOf (StagingArea.sampleDigest bytes) = samplePlatform.digest bytes := by
  have hchar : ∀ n < 256, (Char.ofNat n).toNat = n := by decide +kernel
  have hbytes : (bytes.map fun b => Char.ofNat b.toNat).map (fun c => UInt8.ofNat c.toNat) = bytes := by
    rw [List.map_map, List.map_congr_left (g := id) fun b _ => ?_, List.map_id]
    simp [hchar _ b.toNat_lt]
  rw [sampleHashOf, StagingArea.sampleDigest, String.toList_ofList, hbytes]

/-- The sample platform with the component in the blob store. -/
def uploadPlatform : BuildPlatform where
  toPlatform := samplePlatform
  lookup s hash := ([1] :: s.inventory).find? fun blob => samplePlatform.digest blob = hash
  named s hash bytes h := by simpa using List.find?_some h

def sampleNar : LogicalFile :=
  ⟨"nar/n", .components [⟨0, samplePlatform.digest [1], 1⟩], 1⟩

deriving instance DecidableEq for Hashtree.Writer.FileSource, Hashtree.Writer.LogicalFile

theorem sample_batched : publicationBatchFiles sampleHashOf (fun _ => [[1]])
    (run (step sampleEnv) (initial 100) (sampleUploads ++ sampleBatching)).area.repository ⟨1, 1, 1, none, 2⟩ 2 =
      .ok [⟨narInfoRoute (StagingArea.sampleHash 'b'), .path [[1]], 1⟩, sampleNar] := by
  decide +kernel

def uploadCheck (root : BuiltLink) (t : WriterState) : Bool :=
  readsBack t && partsFound [[], [1]] t &&
    (returned (Hashtree.Reader.resolve (candidateWorld t) sampleTraversal root.hash "nar/n" .get) .initial).isSome

theorem upload_served_sample : ∃ root t found session,
    Published uploadPlatform sampleBuildLimits Protocol.sampleLimits [sampleNar] root t ∧
      Hashtree.Reader.resolve (candidateWorld t) sampleTraversal root.hash "nar/n" .get .initial =
        .ok found session ∧ found.size = 1 ∧
      ∀ body, found.body = some body → ∀ state events,
        let x := Runs.run (Hashtree.Reader.streamStep (candidateWorld t) sampleTraversal) (body, state) events
        x.1.state = .closed → x.1.enqueued = [1] := by
  obtain ⟨root, t, hbuild, hcheck⟩ :=
    @built_checked uploadPlatform sampleBuildLimits [sampleNar] none ⟨[], []⟩ uploadCheck (by decide +kernel)
  simp only [uploadCheck, Bool.and_eq_true] at hcheck
  obtain ⟨⟨hreads, hparts⟩, hserves⟩ := hcheck
  obtain ⟨found, hfound⟩ := Option.isSome_iff_exists.mp hserves
  obtain ⟨session, hresolve⟩ := returned_eq_some.mp hfound
  have hu : (⟨1, "nar/n", "o", [], [1], [⟨0, StagingArea.sampleDigest [1], 1⟩], .stored⟩ : NarUpload) ∈
      (run (step sampleEnv) (initial 100) sampleUploads).nars.rows := by decide +kernel
  have hroute : UploadRoute sampleNar.route := .nar (by decide +kernel)
  have h : Published uploadPlatform sampleBuildLimits Protocol.sampleLimits [sampleNar] root t :=
    .first (uploads_addable nofun (by simpa using hroute) (List.nodup_singleton _) (by decide)) hbuild
  have hshows : Shows uploadPlatform Protocol.sampleLimits [sampleNar] t (candidateWorld t) := by
    refine sample_shows rfl hreads hparts fun file hfile bytes hcontains => ?_
    obtain rfl := List.mem_singleton.mp hfile
    obtain ⟨chunks, hchunks, rfl⟩ := hcontains
    change List.Forall₂ (Names samplePlatform.digest) [⟨0, samplePlatform.digest [1], 1⟩] chunks at hchunks
    obtain ⟨chunk, rest, ⟨hhash, hlength, -⟩, hrest, rfl⟩ := List.forall₂_cons_left_iff.mp hchunks
    obtain rfl := List.forall₂_nil_left_iff.mp hrest
    obtain ⟨byte, rfl⟩ := List.length_eq_one_iff.mp hlength
    obtain rfl : byte = 1 := (List.cons.inj hhash).1
    exact ⟨1, rfl, by simp⟩
  obtain ⟨hsize, -, hbytes⟩ := upload_served hu rfl (fun _ hsame => StagingArea.sampleDigest_injective hsame)
    sample_batched (List.mem_cons_of_mem _ (List.mem_singleton_self sampleNar)) rfl (p := uploadPlatform)
    sampleHashOf_digest h (List.mem_singleton_self sampleNar) (le_refl 2) samplePlatform_digest
    (sample_readable hreads) hshows hresolve
  exact ⟨root, t, found, session, h, hresolve, hsize,
    fun body hbody state events => (hbytes body hbody state events).2⟩

end Samples

end Results

end NarStaging

end NixstrCache.Nix
