import Mathlib.Data.List.Find
import NixstrCache.Hashtree.BuiltWorld
import NixstrCache.Protocol.NameOrder

/-!
Serving what a build has written.

The reader of a request meets sources that fail, budgets that end and streams that take their steps in any
order.  Whatever it serves for a path of a candidate are the bytes of the file with this route.  Under limits
that are large enough it finds every file whose names have no characters beyond the basic plane.
-/

namespace NixstrCache.Hashtree.Writer

open Protocol Programs
open Persistence (Bytes)
open Reader (World Session Chunk Method ResolvedPath FileStream StreamEvent)

section Descents

variable {w : World} {store : Store} {within : Bounds → String → Bool} {height n : ℕ} {hash : List UInt8}
variable {segments : List String} {link : ManifestLink} {limits : Reader.TraversalLimits}
variable {path : String} {s u : Session} {found : ResolvedPath}

theorem walk_mono (h : walk within store height hash segments = some link) (hn : height ≤ n) :
    walk within store n hash segments = some link := by
  induction height generalizing n hash segments with
  | zero => simp [walk] at h
  | succ height ih =>
    obtain ⟨n, rfl⟩ := Nat.exists_eq_add_of_le' (Nat.one_le_of_lt hn)
    cases segments with
    | nil => simp [walk] at h
    | cons segment rest =>
      simp only [walk] at h ⊢
      cases hnode : store hash with
      | none => simp [hnode] at h
      | some node =>
        simp only [hnode] at h ⊢
        by_cases hfanout : node.validated.manifest.type = .fanout
        · rw [if_pos hfanout] at h ⊢
          obtain ⟨child, hchild, hbelow⟩ := Option.bind_eq_some_iff.mp h
          exact Option.bind_eq_some_iff.mpr ⟨child, hchild, ih hbelow (by omega)⟩
        · rw [if_neg hfanout] at h ⊢
          cases hentry : entryNamed node.validated.manifest.links segment with
          | none => simp [hentry] at h
          | some entry =>
            simp only [hentry] at h ⊢
            split_ifs at h ⊢ with hlast htree
            · exact h
            · exact ih h (by omega)

theorem walk_of_descend {fuel depth : ℕ} {expected : LinkType}
    (h : Reader.descend w limits path fuel depth hash expected segments s = .ok link u) :
    walk unitsWithin (worldStore w) fuel hash segments = some link := by
  induction fuel generalizing depth hash expected segments s with
  | zero => cases h
  | succ fuel ih =>
    rw [Reader.descend] at h
    obtain ⟨_, _, -, h⟩ := bind_ok.mp h
    obtain ⟨manifest, _, hmanifest, h⟩ := bind_ok.mp h
    obtain ⟨_, _, -, h⟩ := bind_ok.mp h
    obtain ⟨_, _, -, h⟩ := bind_ok.mp h
    obtain ⟨_, v, -, h⟩ := bind_ok.mp h
    obtain ⟨decoded, hdecoded, rfl⟩ := Reader.manifestOf_ok hmanifest
    have hnode : worldStore w hash = some ⟨decoded, 0, 0⟩ := by
      rw [worldStore, hdecoded]
      rfl
    cases segments with
    | nil => cases h
    | cons segment rest =>
      simp only [walk, hnode]
      by_cases hfanout : decoded.manifest.type = .fanout
      · rw [Reader.nextLink, if_pos hfanout] at h
        rw [if_pos hfanout]
        cases hchild : childFor unitsWithin decoded.manifest.links segment with
        | none =>
          rw [hchild] at h
          cases h
        | some child =>
          rw [hchild] at h
          exact ih h
      · rw [Reader.nextLink, if_neg hfanout] at h
        rw [if_neg hfanout]
        cases hentry : entryNamed decoded.manifest.links segment with
        | none =>
          rw [hentry] at h
          cases h
        | some entry =>
          rw [hentry] at h
          by_cases hnext : rest = [] ∨ isTree entry.type = true
          · rw [Option.filter_some, if_pos (decide_eq_true hnext), Option.map_some] at h
            cases rest with
            | nil =>
              obtain ⟨rfl, -⟩ := EStateM.Result.ok.inj h
              exact if_pos rfl
            | cons next rest =>
              have htree : isTree entry.type = true := hnext.resolve_left (List.cons_ne_nil _ _)
              dsimp only
              rw [if_neg (List.cons_ne_nil _ _), if_pos htree]
              exact ih h
          · rw [Option.filter_some, if_neg (by simpa using hnext)] at h
            cases h

theorem serveLink_link {method : Method} (h : Reader.serveLink w limits method link s = .ok found u) :
    found.hash = link.hash ∧ found.size = link.size ∧ found.type = link.type ∧ isTree link.type = false ∧
      (method = .head → found.body = none) := by
  unfold Reader.serveLink at h
  cases htype : link.type with
  | blob =>
    rw [htype] at h
    cases method with
    | head =>
      obtain ⟨rfl, -⟩ := EStateM.Result.ok.inj h
      exact ⟨rfl, rfl, rfl, rfl, fun _ => rfl⟩
    | get =>
      obtain ⟨_, _, -, h⟩ := bind_ok.mp h
      obtain ⟨rfl, -⟩ := EStateM.Result.ok.inj h
      exact ⟨rfl, rfl, rfl, rfl, fun hhead => by cases hhead⟩
  | file =>
    rw [htype] at h
    obtain ⟨plan, v, hplan, h⟩ := bind_ok.mp h
    have hsize := (Reader.filePlan_ok hplan (Nat.lt_succ_self _)).2
    cases method with
    | head =>
      obtain ⟨rfl, -⟩ := EStateM.Result.ok.inj h
      exact ⟨rfl, hsize, rfl, rfl, fun _ => rfl⟩
    | get =>
      obtain ⟨rfl, -⟩ := EStateM.Result.ok.inj h
      exact ⟨rfl, hsize, rfl, rfl, fun hhead => by cases hhead⟩
  | directory =>
    rw [htype] at h
    cases h
  | fanout =>
    rw [htype] at h
    cases h

end Descents

section Serving

variable {p : BuildPlatform} {limits : BuildLimits} {readLimits : ManifestLimits}
variable {files : List LogicalFile} {nodes : Nodes} {t : WriterState} {root : BuiltLink} {w : World}
variable {traversal : Reader.TraversalLimits} {path : String} {method : Method} {s u : Session}
variable {found : ResolvedPath}

theorem Leads.bytesOf (hdigest : ∀ bytes, (p.digest bytes).length = 32)
    (ht : Stocked p.toPlatform limits.toWriterLimits t)
    (hread : Readable p.toPlatform limits.toWriterLimits readLimits t)
    (hshows : Shows p readLimits files t w) {file : LogicalFile} (hfile : file ∈ files) {bytes : Bytes}
    (hcontains : file.Contains p.digest bytes) {chunks : List Chunk} {body : FileStream}
    (hserved : Reader.Served w traversal found chunks body)
    (hleads : Leads p.toPlatform t bytes found.hash found.size found.type) :
    Reader.bytesOf w chunks = bytes := by
  have hblob := hserved.blob
  have hplanned := hserved.file
  generalize found.hash = hash, found.size = size, found.type = type at hleads hblob hplanned
  cases hleads with
  | direct =>
    rw [hblob rfl, Reader.bytesOf, List.flatMap_singleton]
    exact hshows.contents file hfile bytes hcontains bytes List.infix_rfl
  | tree parts built hflat hentries hroot =>
    obtain ⟨manifest, hmem, wire, level, below, hwire, hhash, -, -, hholds, hbelow⟩ := hroot.manifest
    have hleaves := hshows.leaves hdigest ht hread hmem hwire ⟨hentries, hholds, hbelow ▸ List.infix_rfl⟩
      (Nat.lt_of_lt_of_le (Nat.lt_succ_self level) (Nat.le_add_left (level + 1) traversal.maxDepth))
    have hchunks : chunks = _ := (hplanned rfl (traversal.maxDepth + (level + 1)) (by omega)).chunks
    rw [hchunks, hhash, hleaves, hbelow, Reader.bytesOf, List.map_map, List.flatMap_map, ← hflat,
      ← List.flatMap_id]
    refine List.flatMap_congr fun chunk hchunk => ?_
    exact hshows.contents file hfile bytes hcontains chunk (hflat ▸ List.infix_of_mem_flatten hchunk)

theorem Complete.served (h : Complete p limits files nodes t) (hfiles : Routed files)
    (hroot : builtAt nodes "" = some root) (hdigest : ∀ bytes, (p.digest bytes).length = 32)
    (hread : Readable p.toPlatform limits.toWriterLimits readLimits t)
    (hshows : Shows p readLimits files t w)
    (hresolve : Reader.resolve w traversal root.hash path method s = .ok found u) :
    ∃ file ∈ files, segmentsOf file.route = segmentsOf path ∧ ∃ bytes, file.Contains p.digest bytes ∧
      bytes.length = file.size ∧ found.size = file.size ∧ (found.body.isSome = true ↔ method = .get) ∧
      ∀ body, found.body = some body → ∀ state events,
        let x := Runs.run (Reader.streamStep w traversal) (body, state) events
        x.1.enqueued <+: bytes ∧ (x.1.state = .closed → x.1.enqueued = bytes) := by
  have hstocked := h.sane.stocked
  obtain ⟨height, hfound⟩ := h.found hfiles hroot (hshows.offers hdigest hstocked hread)
  obtain ⟨_, v, hsegments, hrest⟩ := bind_ok.mp hresolve
  obtain ⟨link, v', hlink, hserve⟩ := bind_ok.mp hrest
  have hpath : segmentsOf path ≠ [] := by simpa using (Reader.refuse_ok hsegments).1
  rw [Reader.namingPath_ok] at hserve
  obtain ⟨hhash, hsize, htype, hleaf, hhead⟩ := serveLink_link hserve
  -- The search finds the link that the descent has found.
  obtain ⟨hsound, hpaths⟩ := hfound (max height (traversal.maxDepth + 1)) (le_max_left _ _)
  have hwalk := walk_mono (walk_of_descend hlink) (le_max_right height (traversal.maxDepth + 1))
  rcases (hpaths path hpath).2 link (search_of_walk hsound le_rfl hwalk) with
    ⟨-, file, hfile, hroute, bytes, hcontains, hlength, hleads⟩ | ⟨htree, -⟩
  · refine ⟨file, hfile, hroute, bytes, hcontains, hlength, ?_, ?_, ?_⟩
    · rw [hsize, ← hlength]
      exact hleads.size
    · cases method with
      | head => simp [hhead rfl]
      | get =>
        obtain ⟨⟨chunks, body, hserved⟩, -⟩ := Reader.serveLink_ok hserve
        simp [hserved.response]
    · intro body hbody state events
      cases method with
      | head =>
        rw [hhead rfl] at hbody
        cases hbody
      | get =>
        obtain ⟨⟨chunks, other, hserved⟩, -⟩ := Reader.serveLink_ok hserve
        obtain rfl := Option.some.inj (hbody.symm.trans hserved.response)
        have hleads' : Leads p.toPlatform t bytes found.hash found.size found.type := by
          rw [hhash, hsize, htype]
          exact hleads
        have hbytes := Leads.bytesOf hdigest hstocked hread hshows hfile hcontains hserved hleads'
        have hserves : Reader.Serves w chunks (body, state).1 := hserved.serves
        have hbounded := (Reader.stream_serves traversal hserves events).bounded
        rw [hbytes] at hbounded
        exact ⟨hbounded.1, fun hclosed => (hbounded.2.2 hclosed).1⟩
  · exact absurd (hleaf.symm.trans htree) Bool.false_ne_true

end Serving

section Locating

variable {p : BuildPlatform} {limits : BuildLimits} {files : List LogicalFile} {nodes : Nodes}
variable {t : WriterState} {store : Store} {root built : BuiltLink} {parts segments : List String}
variable {height n : ℕ} {hash : List UInt8} {type : LinkType} {link : ManifestLink} {segment : String}

/-- Every name of a route is one of the basic plane. -/
def BasicRoutes (files : List LogicalFile) : Prop :=
  ∀ file ∈ files, ∀ part ∈ segmentsOf file.route, Basic part

theorem within_basic {bounds : Bounds} (hfirst : Basic bounds.first) (hlast : Basic bounds.last)
    (hsegment : Basic segment) : unitsWithin bounds segment = bytesWithin bounds segment := by
  simp only [unitsWithin, bytesWithin, basic_le_iff hfirst hsegment, basic_le_iff hsegment hlast]

theorem Complete.row_of_entry (h : Complete p limits files nodes t) (hfiles : Routed files)
    (hopens : Opens p store nodes n parts) (hway : OnWay files parts)
    (hbuilt : builtAt nodes (joinPath parts) = some built)
    (hlink : link ∈ Hashtree.entries store n built.hash) :
    ∃ name child, link = nameLink name child ∧ builtAt nodes (joinPath (parts ++ [name])) = some child ∧
      (∀ part ∈ parts ++ [name], IsSegment part) ∧
      ∃ file ∈ files, parts ++ [name] <+: segmentsOf file.route := by
  obtain ⟨found, hfound, -, hnamed, hentries⟩ := hopens
  obtain rfl := Option.some.inj (hbuilt.symm.trans hfound)
  obtain ⟨name, hname, hentry⟩ := hentries link hlink
  obtain ⟨child, hchild, rfl⟩ := Option.map_eq_some_iff.mp ((hnamed name hname).symm.trans hentry)
  have hsegments : ∀ part ∈ parts ++ [name], IsSegment part := by
    simpa [or_imp, forall_and] using ⟨hway.segments, hname⟩
  exact ⟨name, child, rfl, hchild, hsegments, (h.builtAt_isSome hfiles hsegments).mp (by rw [hchild]; rfl)⟩

theorem Complete.ordersAgree (h : Complete p limits files nodes t) (hfiles : Routed files)
    (hbasic : BasicRoutes files) (hopens : ∀ parts, OnWay files parts → Opens p store nodes n parts)
    (hsound : Sound p.lib store height hash type) (hn : height ≤ n) (hway : OnWay files parts)
    (hbuilt : builtAt nodes (joinPath parts) = some built)
    (hbelow : Hashtree.entries store height hash ⊆ Hashtree.entries store n built.hash)
    (hsegments : ∀ segment ∈ segments, Basic segment)
    (hfound : search store n hash segments = some link) : OrdersAgree store height hash segments := by
  induction height generalizing hash type parts built segments with
  | zero => trivial
  | succ height ih =>
    obtain ⟨node, hnode, haccepted, -, hlinks, hbounds⟩ := id hsound
    cases segments with
    | nil => trivial
    | cons segment rest =>
      intro other hother
      obtain rfl := Option.some.inj (hnode.symm.trans hother)
      obtain ⟨hsegment, hrest⟩ := List.forall_mem_cons.mp hsegments
      split_ifs with hfanout
      · have hchildren : ∀ child ∈ node.validated.manifest.links,
            Hashtree.entries store height child.hash ⊆ Hashtree.entries store (height + 1) hash := by
          intro child hchild entry hentry
          simp only [Hashtree.entries, hnode, if_pos hfanout]
          exact List.mem_flatMap.mpr ⟨child, hchild, hentry⟩
        have hnames : ∀ child ∈ node.validated.manifest.links,
            ∀ name ∈ namesOf (Hashtree.entries store height child.hash), Basic name := by
          intro child hchild name hname
          obtain ⟨entry, hentry, hnamed⟩ := List.mem_filterMap.mp hname
          obtain ⟨name', child', rfl, -, -, file, hfile, hbegins⟩ :=
            h.row_of_entry hfiles (hopens parts hway) hway hbuilt (hbelow (hchildren child hchild hentry))
          obtain rfl := Option.some.inj hnamed
          exact hbasic file hfile _ (hbegins.subset (by simp))
        have hsame : childFor unitsWithin node.validated.manifest.links segment =
            childFor bytesWithin node.validated.manifest.links segment := by
          refine List.find?_congr fun child hchild => ?_
          obtain ⟨bounds, hof, hbounding⟩ := hbounds hfanout child hchild
          rw [hof, Option.any_some, Option.any_some]
          exact within_basic (hnames child hchild _ hbounding.first) (hnames child hchild _ hbounding.last)
            hsegment
        refine ⟨hsame, fun child hchild => ?_⟩
        have hmem := (childFor_eq_some hchild).1
        rw [search_fanout hsound hn hnode hfanout, hchild, Option.bind_some] at hfound
        exact ih (hlinks child hmem ((haccepted.fanout hfanout).1 child hmem)) (by omega) hway hbuilt
          (List.Subset.trans (hchildren child hmem) hbelow) hsegments hfound
      · intro entry hentry hmore
        rw [search_directory hn hnode hfanout, hentry] at hfound
        simp only [if_neg hmore] at hfound
        split_ifs at hfound with htree
        · have hmem := (entryNamed_eq_some hentry).1
          have hhere : entry ∈ Hashtree.entries store (height + 1) hash := by
            simp only [Hashtree.entries, hnode, if_neg hfanout]
            exact hmem
          obtain ⟨name, child, rfl, hchild, hnames, -⟩ :=
            h.row_of_entry hfiles (hopens parts hway) hway hbuilt (hbelow hhere)
          have hsoundBelow := hlinks _ hmem htree
          rcases h.leadsTo hfiles hnames hchild with ⟨hleaf, -⟩ | ⟨-, hwayBelow⟩
          · exact absurd (hleaf.symm.trans htree) Bool.false_ne_true
          · refine ih hsoundBelow (by omega) hwayBelow hchild ?_ hrest hfound
            exact (hsoundBelow.entries_eq (Nat.le_of_succ_le hn)).symm ▸ List.Subset.refl _

end Locating

section Samples

/-- The sample platform, with the inventory in place of the blob store. -/
def sampleBuildPlatform : BuildPlatform where
  toPlatform := samplePlatform
  lookup s hash := s.inventory.find? fun blob => samplePlatform.digest blob = hash
  named s hash bytes h := by simpa using List.find?_some h

def sampleBuildLimits : BuildLimits :=
  ⟨⟨2, 10, 4096⟩, none, none, none⟩

theorem nothing_settles (_ : Session) (_ : List UInt8) :
    (none : Option (Except Reader.ReadError Unit)) ≠ some (.error .spinning) :=
  (Option.some_ne_none _).symm

/-- A reader that has the blobs of the candidate in its store. -/
def candidateWorld (t : WriterState) : World where
  clock := fun _ => 0
  aborted := fun _ => false
  content := fun hash => (t.inventory.find? fun blob => samplePlatform.digest blob = hash).getD []
  decode := fun bytes => (decodeValidatedManifest smallMessagePack bytes Protocol.sampleLimits).toOption
  maxWireBytes := 4096
  loaded := fun _ _ => none
  stored := fun _ _ => true
  inflight := fun _ _ => none
  sources := fun _ _ => []
  leased := fun _ _ => true
  blob := fun _ _ => Reader.sampleBlob _
  loaded_settles := nothing_settles
  inflight_settles := nothing_settles

def readsBack (t : WriterState) : Bool :=
  decodesBack t && t.written.all fun manifest =>
    (smallMessagePack.encode (manifestValue manifest)).toOption.all fun wire =>
      (candidateWorld t).content (samplePlatform.digest wire) = wire

theorem sample_readable {t : WriterState} (h : readsBack t = true) :
    Readable samplePlatform sampleBuildLimits.toWriterLimits Protocol.sampleLimits t :=
  readable_of_decodesBack (by decide) (Bool.and_eq_true_iff.mp h).1

theorem readsBack_content {t : WriterState} (h : readsBack t = true) {manifest : Manifest}
    (hmem : manifest ∈ t.written) {wire : List UInt8}
    (hwire : encodeManifest smallMessagePack manifest = .ok wire) :
    (candidateWorld t).content (samplePlatform.digest wire) = wire := by
  have hencode : smallMessagePack.encode (manifestValue manifest) = .ok wire := hwire
  have hfound := List.all_eq_true.mp (Bool.and_eq_true_iff.mp h).2 manifest hmem
  rw [hencode] at hfound
  exact of_decide_eq_true hfound

def partsFound (parts : List Bytes) (t : WriterState) : Bool :=
  parts.all fun bytes => (candidateWorld t).content (samplePlatform.digest bytes) = bytes

theorem contains_single {digest : List UInt8 → List UInt8} {files : List LogicalFile} {parts : List Bytes}
    (h : ∀ file ∈ files, ∃ byte, file.source = .path [[byte]] ∧ [byte] ∈ parts) :
    ∀ file ∈ files, ∀ bytes, file.Contains digest bytes → ∃ byte, bytes = [byte] ∧ bytes ∈ parts := by
  intro file hfile bytes hcontains
  obtain ⟨byte, hsource, hbyte⟩ := h file hfile
  rw [LogicalFile.Contains, hsource] at hcontains
  obtain rfl : [byte] = bytes := by simpa using hcontains
  exact ⟨byte, rfl, hbyte⟩

theorem sample_shows {p : BuildPlatform} (hp : p.toPlatform = samplePlatform) {t : WriterState}
    (h : readsBack t = true) {files : List LogicalFile} {parts : List Bytes}
    (hparts : partsFound ([] :: parts) t = true)
    (hfiles : ∀ file ∈ files, ∀ bytes, file.Contains samplePlatform.digest bytes →
      ∃ byte, bytes = [byte] ∧ bytes ∈ parts) :
    Shows p Protocol.sampleLimits files t (candidateWorld t) := by
  obtain ⟨platform, lookup, named⟩ := p
  obtain rfl : platform = samplePlatform := hp
  refine ⟨fun _ => rfl, fun _ hmem wire hwire => readsBack_content h hmem hwire, ?_⟩
  intro file hfile bytes hcontains chunk hchunk
  have hfound : ∀ bytes ∈ [] :: parts, (candidateWorld t).content (samplePlatform.digest bytes) = bytes :=
    fun bytes hbytes => of_decide_eq_true (List.all_eq_true.mp hparts bytes hbytes)
  obtain ⟨byte, rfl, hbyte⟩ := hfiles file hfile bytes hcontains
  rcases List.infix_cons_iff.mp hchunk with hbegins | hrest
  · rcases List.prefix_cons_iff.mp hbegins with rfl | ⟨rest, rfl, hrest⟩
    · exact hfound [] (by simp)
    · obtain rfl := List.prefix_nil.mp hrest
      exact hfound _ (by simp [hbyte])
  · obtain rfl := List.infix_nil.mp hrest
    exact hfound [] (by simp)

theorem built_checked {p : BuildPlatform} {limits : BuildLimits} {files : List LogicalFile}
    {base : Option Base} {s : WriterState} {check : BuiltLink → WriterState → Bool}
    (h : (match build p limits files base s with
      | .ok root t => check root t
      | .error _ _ => false) = true) :
    ∃ root t, build p limits files base s = .ok root t ∧ check root t = true := by
  cases hbuild : build p limits files base s with
  | ok root t =>
    rw [hbuild] at h
    exact ⟨root, t, rfl, h⟩
  | error e t =>
    rw [hbuild] at h
    cases h

def sampleTraversal : Reader.TraversalLimits :=
  ⟨4, 10, 10, 4096, 10, 4096, 4096, 100, 1⟩

/-- A file below the root and a file in a directory. -/
def sampleFiles : List LogicalFile :=
  [⟨"a", .path [[1]], 1⟩, ⟨"d/b", .path [[2]], 1⟩]

/-- Another content for the one file, and a file beside the other. -/
def sampleUpdate : List LogicalFile :=
  [⟨"a", .path [[3]], 1⟩, ⟨"d/c", .path [[4]], 1⟩]

/-- A reader serves the file in the directory. -/
def sampleServes (root : BuiltLink) (t : WriterState) : Bool :=
  decide ((returned (Reader.resolve (candidateWorld t) sampleTraversal root.hash "d/b" .get) .initial).map
    ResolvedPath.size = some 1)

def blobsKept (t : WriterState) : Bool :=
  t.written.all fun manifest => manifest.links.all fun link =>
    link.type ≠ .blob || t.inventory.any fun blob => samplePlatform.digest blob = link.hash

def manifestsKept (t : WriterState) : Bool :=
  t.written.all fun manifest =>
    match encodeManifest smallMessagePack manifest with
    | .error _ => false
    | .ok wire => t.inventory.any fun blob => samplePlatform.digest blob = samplePlatform.digest wire

/-- What has been materialized is what the hashes say, the tree is there, and the update can be built on it
and served. -/
def sampleFetches (root : BuiltLink) (t : WriterState) : Bool :=
  (returned (Reader.materialize (candidateWorld t) sampleTraversal root.hash) .initial).any fun fetched =>
    let u : WriterState := ⟨blobsOf (candidateWorld t) fetched, t.written⟩
    (fetched.inventory.all fun blob => samplePlatform.digest ((candidateWorld t).content blob.1) = blob.1) &&
      readsBack u && blobsKept u && manifestsKept u &&
      match build sampleBuildPlatform sampleBuildLimits sampleUpdate (some ⟨root.hash, u.inventory⟩)
          ⟨[], u.written⟩ with
      | .ok root' t' => sampleServes root' t'
      | .error _ _ => false

/-- The manifest of the root has two links. -/
def sampleNames (root : BuiltLink) (t : WriterState) : Bool :=
  decide ((storedManifest samplePlatform Protocol.sampleLimits t.inventory root.hash).map
    (fun manifest => manifest.links.length) = some 2)

def updateCheck (root : BuiltLink) (t : WriterState) : Bool :=
  readsBack t && partsFound [[], [1], [2], [3], [4]] t && sampleServes root t && sampleNames root t

def sampleCheck (root : BuiltLink) (t : WriterState) : Bool :=
  readsBack t && partsFound [[], [1], [2]] t && sampleServes root t && sampleFetches root t && blobsKept t &&
    match build sampleBuildPlatform sampleBuildLimits sampleUpdate (some ⟨root.hash, t.inventory⟩)
        ⟨[], t.written⟩ with
    | .ok root' t' => updateCheck root' t'
    | .error _ _ => false

theorem sample_first : ∃ root t,
    build sampleBuildPlatform sampleBuildLimits sampleFiles none ⟨[], []⟩ = .ok root t ∧
      sampleCheck root t = true :=
  built_checked (by decide +kernel)

theorem sample_published {root : BuiltLink} {t : WriterState}
    (h : build sampleBuildPlatform sampleBuildLimits sampleFiles none ⟨[], []⟩ = .ok root t) :
    Published sampleBuildPlatform sampleBuildLimits Protocol.sampleLimits sampleFiles root t :=
  .first ⟨by decide +kernel, by decide +kernel, by simp, by decide +kernel⟩ h

theorem sampleUpdate_addable : Addable sampleFiles sampleUpdate :=
  ⟨by decide +kernel, by decide +kernel, by decide +kernel, by decide +kernel⟩

theorem sample_carries {t u : WriterState} {root : List UInt8} (hwritten : u.written = t.written)
    (hkept : blobsKept u = true) (hstored : ∀ manifest ∈ u.written, ∃ wire,
      encodeManifest smallMessagePack manifest = .ok wire ∧
        ∃ blob ∈ u.inventory, samplePlatform.digest blob = samplePlatform.digest wire) :
    CarriesTree samplePlatform t u root := by
  refine ⟨hwritten ▸ List.Subset.refl _, fun _ hmem _ _ _ => hwritten ▸ hmem,
    fun _ _ _ _ _ _ hmem _ _ _ => hwritten ▸ hmem,
    fun manifest hmem wire hwire => ?_, fun manifest hmem link hlink hblob => ?_⟩
  · obtain ⟨other, hother, hblob⟩ := hstored manifest hmem
    obtain rfl : wire = other := Except.ok.inj (hwire.symm.trans hother)
    exact hblob
  · have hfound := List.all_eq_true.mp (List.all_eq_true.mp hkept manifest hmem) link hlink
    simpa [hblob] using hfound

theorem manifestsKept_stored {t : WriterState} (h : manifestsKept t = true) :
    ∀ manifest ∈ t.written, ∃ wire, encodeManifest smallMessagePack manifest = .ok wire ∧
      ∃ blob ∈ t.inventory, samplePlatform.digest blob = samplePlatform.digest wire := by
  intro manifest hmem
  have hone := List.all_eq_true.mp h manifest hmem
  cases hwire : encodeManifest smallMessagePack manifest with
  | error e =>
    rw [hwire] at hone
    cases hone
  | ok wire =>
    rw [hwire] at hone
    obtain ⟨blob, hblob, hsame⟩ := List.any_eq_true.mp hone
    exact ⟨wire, rfl, blob, hblob, of_decide_eq_true hsame⟩

theorem sample_built : ∃ root t root' t',
    Published sampleBuildPlatform sampleBuildLimits Protocol.sampleLimits sampleFiles root t ∧
      sampleCheck root t = true ∧ CarriesTree samplePlatform t t root.hash ∧
      build sampleBuildPlatform sampleBuildLimits sampleUpdate (some ⟨root.hash, t.inventory⟩)
        ⟨[], t.written⟩ = .ok root' t' ∧ updateCheck root' t' = true := by
  obtain ⟨root, t, hbuild, hcheck⟩ := sample_first
  have hpublished := sample_published hbuild
  have hall := hcheck
  simp only [sampleCheck, Bool.and_eq_true] at hall
  obtain ⟨⟨⟨⟨⟨-, -⟩, -⟩, -⟩, hkept⟩, hupdate⟩ := hall
  obtain ⟨root', t', hbuild', hcheck'⟩ := built_checked hupdate
  obtain ⟨nodes, hcomplete, -⟩ := hpublished.candidate (le_refl 2) samplePlatform_digest
  exact ⟨root, t, root', t', hpublished, hcheck, sample_carries rfl hkept hcomplete.sane.stocked.stored,
    hbuild', hcheck'⟩

theorem sampleCheck_reads {root : BuiltLink} {t : WriterState} (h : sampleCheck root t = true) :
    Readable samplePlatform sampleBuildLimits.toWriterLimits Protocol.sampleLimits t ∧
      Shows sampleBuildPlatform Protocol.sampleLimits sampleFiles t (candidateWorld t) ∧
      sampleFetches root t = true := by
  simp only [sampleCheck, Bool.and_eq_true] at h
  obtain ⟨⟨⟨⟨⟨hreads, hparts⟩, -⟩, hfetches⟩, -⟩, -⟩ := h
  refine ⟨sample_readable hreads, sample_shows rfl hreads hparts (contains_single ?_), hfetches⟩
  exact List.forall_mem_cons.mpr ⟨⟨1, rfl, by decide⟩, List.forall_mem_singleton.mpr ⟨2, rfl, by decide⟩⟩

theorem updateCheck_reads {root : BuiltLink} {t : WriterState} (h : updateCheck root t = true) :
    Readable samplePlatform sampleBuildLimits.toWriterLimits Protocol.sampleLimits t ∧
      Shows sampleBuildPlatform Protocol.sampleLimits (merged sampleFiles sampleUpdate) t (candidateWorld t) ∧
      sampleServes root t = true ∧ sampleNames root t = true := by
  simp only [updateCheck, Bool.and_eq_true] at h
  obtain ⟨⟨⟨hreads, hparts⟩, hserves⟩, hnames⟩ := h
  refine ⟨sample_readable hreads, sample_shows rfl hreads hparts (contains_single fun file hfile => ?_), hserves,
    hnames⟩
  have hbefore : ∀ file ∈ sampleFiles, ∃ byte, file.source = .path [[byte]] ∧ [byte] ∈ [[1], [2], [3], [4]] :=
    List.forall_mem_cons.mpr ⟨⟨1, rfl, by decide⟩, List.forall_mem_singleton.mpr ⟨2, rfl, by decide⟩⟩
  have hnew : ∀ file ∈ sampleUpdate, ∃ byte, file.source = .path [[byte]] ∧ [byte] ∈ [[1], [2], [3], [4]] :=
    List.forall_mem_cons.mpr ⟨⟨3, rfl, by decide⟩, List.forall_mem_singleton.mpr ⟨4, rfl, by decide⟩⟩
  rcases mem_merged.mp hfile with ⟨hold, -⟩ | hfile
  · exact hbefore file hold
  · exact hnew file hfile

theorem sample_updated : ∃ root t,
    Published sampleBuildPlatform sampleBuildLimits Protocol.sampleLimits (merged sampleFiles sampleUpdate)
      root t ∧ updateCheck root t = true := by
  obtain ⟨root, t, root', t', h, hcheck, hcarries, hbuild, hupdate⟩ := sample_built
  exact ⟨root', t', .next h hcarries (sampleCheck_reads hcheck).1 sampleUpdate_addable hbuild, hupdate⟩

/-- Three files below the root, and two links for a manifest. -/
def wideFiles : List LogicalFile :=
  [⟨"a", .path [[1]], 1⟩, ⟨"b", .path [[2]], 1⟩, ⟨"c", .path [[3]], 1⟩]

def wideCheck (_ : BuiltLink) (t : WriterState) : Bool :=
  readsBack t && partsFound [[], [1], [2], [3]] t

theorem basicRoutes_of {files : List LogicalFile}
    (h : (files.all fun file => (segmentsOf file.route).all fun part =>
      part.toList.all fun c => decide (c.toNat < 0x10000)) = true) : BasicRoutes files := by
  intro file hfile part hpart c hc
  have hparts := List.all_eq_true.mp (List.all_eq_true.mp h file hfile) part hpart
  exact of_decide_eq_true (List.all_eq_true.mp hparts c hc)

end Samples

section Results

variable {p : BuildPlatform} {limits : BuildLimits} {readLimits : ManifestLimits}
variable {before files : List LogicalFile} {s t u : WriterState} {root root' : BuiltLink} {store : Store}
variable {w : World} {traversal : Reader.TraversalLimits} {path : String} {method : Method}
variable {session session' : Session} {found : ResolvedPath}

/-- Whatever a store answers for other hashes and whatever it takes to ask it, the search from the root of
what a sequence of builds has published finds exactly the merged files and the directories on the way to
them, and the links lead to what these files contain. -/
theorem published_found (h : Published p limits readLimits files root t) (hlimit : 2 ≤ limits.maxLinks)
    (hdigest : ∀ bytes, (p.digest bytes).length = 32) (hoffers : Offers p.toPlatform t store) :
    ∃ height, ∀ n, height ≤ n → Sound p.lib store n root.hash root.type ∧ ∀ path, segmentsOf path ≠ [] →
      ((search store n root.hash (segmentsOf path)).isSome = true ↔
        ∃ file ∈ files, segmentsOf path <+: segmentsOf file.route) ∧
      ∀ link, search store n root.hash (segmentsOf path) = some link →
        LeadsTo p files t (segmentsOf path) (target link) := by
  obtain ⟨nodes, hcomplete, hroot, hfiles⟩ := h.candidate hlimit hdigest
  exact hcomplete.found hfiles hroot hoffers

theorem sample_offers : ∃ root t,
    Published sampleBuildPlatform sampleBuildLimits Protocol.sampleLimits (merged sampleFiles sampleUpdate)
      root t ∧ Offers samplePlatform t (worldStore (candidateWorld t)) := by
  obtain ⟨root, t, h, hcheck⟩ := sample_updated
  obtain ⟨hread, hshows, -⟩ := updateCheck_reads hcheck
  obtain ⟨nodes, hcomplete, -⟩ := h.candidate (le_refl 2) samplePlatform_digest
  exact ⟨root, t, h, hshows.offers samplePlatform_digest hcomplete.sane.stocked hread⟩

theorem published_found_sample : ∃ root t height,
    Published sampleBuildPlatform sampleBuildLimits Protocol.sampleLimits (merged sampleFiles sampleUpdate)
      root t ∧ (search (worldStore (candidateWorld t)) height root.hash (segmentsOf "d/b")).isSome = true := by
  obtain ⟨root, t, h, hoffers⟩ := sample_offers
  obtain ⟨height, hfound⟩ := published_found h (le_refl 2) samplePlatform_digest hoffers
  refine ⟨root, t, height, h, (((hfound height le_rfl).2 "d/b" (by decide +kernel)).1).mpr ?_⟩
  exact ⟨_, List.mem_cons_self .., List.prefix_rfl⟩

/-- Whatever the sources of a reader do, what it serves for a path of what has been published is the file
with these segments: the size that it announces is the one of the file, and its body never gives other bytes,
in whatever order the streams take their steps, and all of them when it is closed. -/
theorem published_served (h : Published p limits readLimits files root t) (hlimit : 2 ≤ limits.maxLinks)
    (hdigest : ∀ bytes, (p.digest bytes).length = 32)
    (hread : Readable p.toPlatform limits.toWriterLimits readLimits t)
    (hshows : Shows p readLimits files t w)
    (hresolve : Reader.resolve w traversal root.hash path method session = .ok found session') :
    ∃ file ∈ files, segmentsOf file.route = segmentsOf path ∧ ∃ bytes, file.Contains p.digest bytes ∧
      bytes.length = file.size ∧ found.size = file.size ∧ (found.body.isSome = true ↔ method = .get) ∧
      ∀ body, found.body = some body → ∀ state events,
        let x := Runs.run (Reader.streamStep w traversal) (body, state) events
        x.1.enqueued <+: bytes ∧ (x.1.state = .closed → x.1.enqueued = bytes) := by
  obtain ⟨nodes, hcomplete, hroot, hfiles⟩ := h.candidate hlimit hdigest
  exact hcomplete.served hfiles hroot hdigest hread hshows hresolve

theorem published_served_sample : ∃ root t found session,
    Published sampleBuildPlatform sampleBuildLimits Protocol.sampleLimits (merged sampleFiles sampleUpdate)
      root t ∧
      Reader.resolve (candidateWorld t) sampleTraversal root.hash "d/b" .get .initial = .ok found session ∧
      ∃ file ∈ merged sampleFiles sampleUpdate, segmentsOf file.route = segmentsOf "d/b" ∧
        found.size = file.size := by
  obtain ⟨root, t, h, hcheck⟩ := sample_updated
  obtain ⟨hread, hshows, hserves, -⟩ := updateCheck_reads hcheck
  obtain ⟨found, hfound, -⟩ := Option.map_eq_some_iff.mp (of_decide_eq_true hserves)
  obtain ⟨session, hresolve⟩ := returned_eq_some.mp hfound
  obtain ⟨file, hfile, hroute, bytes, -, -, hsize, -⟩ :=
    published_served h (le_refl 2) samplePlatform_digest hread hshows hresolve
  exact ⟨root, t, found, session, h, hresolve, file, hfile, hroute, hsize⟩

/-- A tree with more names below the root than a manifest may have links cannot be read: the root is a
fanout, and the resolver takes it for a directory. -/
theorem large_root_unreadable (h : Published p limits readLimits files root t) (hlimit : 2 ≤ limits.maxLinks)
    (hdigest : ∀ bytes, (p.digest bytes).length = 32)
    (hread : Readable p.toPlatform limits.toWriterLimits readLimits t)
    (hshows : Shows p readLimits files t w) (hlarge : limits.maxLinks < (rootNames files).length) :
    Reader.resolve w traversal root.hash path method session ≠ .ok found session' := by
  obtain ⟨nodes, hcomplete, hroot, hfiles⟩ := h.candidate hlimit hdigest
  intro hresolve
  obtain ⟨_, v, -, hrest⟩ := bind_ok.mp hresolve
  obtain ⟨link, v', hlink, -⟩ := bind_ok.mp hrest
  obtain ⟨_, _, -, hdescend⟩ := bind_ok.mp hlink
  obtain ⟨manifest, _, hmanifest, hdescend⟩ := bind_ok.mp hdescend
  obtain ⟨_, _, -, hdescend⟩ := bind_ok.mp hdescend
  obtain ⟨_, _, htype, -⟩ := bind_ok.mp hdescend
  obtain ⟨decoded, hdecoded, rfl⟩ := Reader.manifestOf_ok hmanifest
  have hdirectory : decoded.manifest.type = .directory := by
    have hdiffers := (Reader.refuse_ok htype).1
    simpa [Reader.typeDiffers] using hdiffers
  -- The manifest of the root has the type that the build says.
  obtain ⟨height, hfound⟩ :=
    hcomplete.found hfiles hroot (hshows.offers hdigest hcomplete.sane.stocked hread)
  obtain ⟨hsound, -⟩ := hfound (height + 1) (Nat.le_succ height)
  obtain ⟨node, hnode, -, hmatches, -⟩ := hsound
  rw [worldStore, hdecoded] at hnode
  obtain rfl := Option.some.inj hnode
  rw [hdirectory] at hmatches
  have hrootType : root.type = .directory := by simpa [typeMatches] using hmatches
  exact absurd ((hcomplete.root_type hfiles hroot).mp hrootType) (by omega)

theorem large_root_unreadable_sample : ∃ root t,
    Published sampleBuildPlatform sampleBuildLimits Protocol.sampleLimits wideFiles root t ∧
      ∀ found session, Reader.resolve (candidateWorld t) sampleTraversal root.hash "a" .get .initial ≠
        .ok found session := by
  obtain ⟨root, t, hbuild, hcheck⟩ := @built_checked sampleBuildPlatform sampleBuildLimits wideFiles none ⟨[], []⟩ wideCheck (by decide +kernel)
  simp only [wideCheck, Bool.and_eq_true] at hcheck
  have hparts : ∀ file ∈ wideFiles, ∃ byte, file.source = .path [[byte]] ∧ [byte] ∈ [[1], [2], [3]] :=
    List.forall_mem_cons.mpr ⟨⟨1, rfl, by decide⟩, List.forall_mem_cons.mpr ⟨⟨2, rfl, by decide⟩,
      List.forall_mem_singleton.mpr ⟨3, rfl, by decide⟩⟩⟩
  have hshows := sample_shows (p := sampleBuildPlatform) rfl hcheck.1 hcheck.2 (contains_single hparts)
  have h : Published sampleBuildPlatform sampleBuildLimits Protocol.sampleLimits wideFiles root t :=
    .first ⟨by decide +kernel, by decide +kernel, by simp, by decide +kernel⟩ hbuild
  refine ⟨root, t, h, fun found session => ?_⟩
  exact large_root_unreadable h (le_refl 2) samplePlatform_digest (sample_readable hcheck.1) hshows
    (by decide +kernel)

/-- Where all names are of the basic plane and the root is no fanout, limits that are large enough let the
resolver find every file and every directory that has been published, and report the absence of everything
else. -/
theorem published_located (h : Published p limits readLimits files root t) (hlimit : 2 ≤ limits.maxLinks)
    (hdigest : ∀ bytes, (p.digest bytes).length = 32) (hoffers : Offers p.toPlatform t store)
    (hbasic : BasicRoutes files) (hnames : (rootNames files).length ≤ limits.maxLinks) (path : String)
    (hpath : segmentsOf path ≠ []) :
    ∃ needed, ∀ traversal, TraversalLimits.Within needed traversal →
      (∃ link, locate traversal store path root.hash = .ok link ∧
        LeadsTo p files t (segmentsOf path) (target link)) ∨
      (locate traversal store path root.hash = .error (.verifiedAbsent path) ∧
        ¬∃ file ∈ files, segmentsOf path <+: segmentsOf file.route) := by
  obtain ⟨nodes, hcomplete, hroot, hfiles⟩ := h.candidate hlimit hdigest
  have hdirectory := (hcomplete.root_type hfiles hroot).mpr hnames
  have hway := hcomplete.root_onWay hfiles hroot
  obtain ⟨height, hfound⟩ := hcomplete.found hfiles hroot hoffers
  obtain ⟨common, hopens⟩ := hcomplete.all_open hfiles hoffers
  obtain ⟨hsound, hpaths⟩ := hfound (max height common) (le_max_left _ _)
  obtain ⟨hsome, hleads⟩ := hpaths path hpath
  obtain ⟨needed, hneeded⟩ := locate_eq_walk (hdirectory ▸ hsound) path
  refine ⟨needed, fun traversal hwithin => ?_⟩
  rw [hneeded traversal hwithin]
  cases hsearch : search store (max height common) root.hash (segmentsOf path) with
  | none =>
    have hwalk : walk unitsWithin store (max height common) root.hash (segmentsOf path) = none := by
      by_contra hwalked
      obtain ⟨link, hlink⟩ := Option.ne_none_iff_exists'.mp hwalked
      simpa [hsearch] using search_of_walk hsound le_rfl hlink
    rw [hwalk]
    refine Or.inr ⟨rfl, fun hexists => ?_⟩
    have hcontra := hsome.mpr hexists
    rw [hsearch] at hcontra
    cases hcontra
  | some link =>
    obtain ⟨file, hfile, hbegins⟩ := hsome.mp (by rw [hsearch]; rfl)
    have hagree := hcomplete.ordersAgree hfiles hbasic
      (fun parts hway => (hopens parts hway).mono (le_max_right height common)) hsound le_rfl hway hroot
      (List.Subset.refl _) (fun part hpart => hbasic file hfile part (hbegins.subset hpart)) hsearch
    rw [(walk_eq_some_iff hsound le_rfl hsearch).mpr hagree]
    exact Or.inl ⟨link, rfl, hleads link hsearch⟩

theorem published_located_sample : ∃ root t needed,
    Published sampleBuildPlatform sampleBuildLimits Protocol.sampleLimits (merged sampleFiles sampleUpdate)
      root t ∧ ∀ traversal, TraversalLimits.Within needed traversal → ∃ link,
        locate traversal (worldStore (candidateWorld t)) "d/b" root.hash = .ok link := by
  obtain ⟨root, t, h, hoffers⟩ := sample_offers
  obtain ⟨needed, hneeded⟩ := published_located h (le_refl 2) samplePlatform_digest hoffers
    (basicRoutes_of (by decide +kernel)) (by decide +kernel) "d/b" (by decide +kernel)
  refine ⟨root, t, needed, h, fun traversal hwithin => ?_⟩
  rcases hneeded traversal hwithin with ⟨link, hlink, -⟩ | ⟨-, habsent⟩
  · exact ⟨link, hlink⟩
  · exact absurd ⟨_, List.mem_cons_self .., List.prefix_rfl⟩ habsent

/-- A file that a build does not replace keeps its link: the search from the new root finds the one that the
search from the old root finds. -/
theorem kept_found (h : Published p limits readLimits before root s) (hlimit : 2 ≤ limits.maxLinks)
    (hdigest : ∀ bytes, (p.digest bytes).length = 32) (hcarries : CarriesTree p.toPlatform s u root.hash)
    (hread : Readable p.toPlatform limits.toWriterLimits readLimits u) (hadd : Addable before files)
    (hbuild : build p limits files (some ⟨root.hash, u.inventory⟩) ⟨[], u.written⟩ = .ok root' t)
    (hoffers : Offers p.toPlatform t store) :
    ∃ height, ∀ n, height ≤ n → ∀ old ∈ before, (∀ file ∈ files, old.route ≠ file.route) →
      ∃ link, search store n root.hash (segmentsOf old.route) = some link ∧
        search store n root'.hash (segmentsOf old.route) = some link := by
  obtain ⟨nodes, hcandidate⟩ := h.candidate hlimit hdigest
  obtain ⟨result, ⟨hresult, hroot', hfiles'⟩, hwritten, hkept⟩ :=
    build_next hlimit hdigest hcandidate hcarries hread hadd hbuild
  obtain ⟨hcomplete, hroot, hfiles⟩ := hcandidate
  have hcarried := hcomplete.carried hfiles hroot hcarries
  obtain ⟨height, hopens⟩ := hcarried.all_open hfiles (hoffers.mono hwritten)
  obtain ⟨height', hopens'⟩ := hresult.all_open hfiles' hoffers
  refine ⟨max height height', fun n hn old hold hroutes => ?_⟩
  obtain ⟨built, -, hbuilt, -⟩ := hcomplete.filed old hold
  have hcanonical : old.route = joinPath (segmentsOf old.route) := hfiles.canonical old hold
  rcases List.eq_nil_or_concat (segmentsOf old.route) with hnil | ⟨dir, name, hconcat⟩
  · exact absurd hnil (hfiles.filled old hold)
  rw [List.concat_eq_append] at hconcat
  have hsegments : ∀ part ∈ dir ++ [name], IsSegment part := fun _ hpart => isSegment_of_mem (hconcat ▸ hpart)
  have hsearch := hcarried.search_eq hfiles
    (fun parts hway => (hopens parts hway).mono ((le_max_left _ _).trans hn))
    (hcarried.root_onWay hfiles hroot) hroot hsegments
  have hsearch' := hresult.search_eq hfiles'
    (fun parts hway => (hopens' parts hway).mono ((le_max_right _ _).trans hn))
    (hresult.root_onWay hfiles' hroot') hroot' hsegments
  rw [List.nil_append, ← hconcat, ← hcanonical] at hsearch hsearch'
  rw [hkept old hold hroutes, hbuilt] at hsearch'
  rw [hbuilt] at hsearch
  exact ⟨nameLink name built, hsearch, hsearch'⟩

theorem kept_found_sample : ∃ root t root' t' height,
    Published sampleBuildPlatform sampleBuildLimits Protocol.sampleLimits sampleFiles root t ∧
      build sampleBuildPlatform sampleBuildLimits sampleUpdate (some ⟨root.hash, t.inventory⟩)
        ⟨[], t.written⟩ = .ok root' t' ∧ ∃ link,
        search (worldStore (candidateWorld t')) height root.hash (segmentsOf "d/b") = some link ∧
          search (worldStore (candidateWorld t')) height root'.hash (segmentsOf "d/b") = some link := by
  obtain ⟨root, t, root', t', h, hcheck, hcarries, hbuild, hupdate⟩ := sample_built
  obtain ⟨hread, hshows, -⟩ := updateCheck_reads hupdate
  have hreadBefore := (sampleCheck_reads hcheck).1
  obtain ⟨nodes, hcandidate⟩ := h.candidate (le_refl 2) samplePlatform_digest
  obtain ⟨result, ⟨hresult, -⟩, -⟩ := build_next (le_refl 2) samplePlatform_digest hcandidate hcarries
    hreadBefore sampleUpdate_addable hbuild
  obtain ⟨height, hfound⟩ := kept_found h (le_refl 2) samplePlatform_digest hcarries hreadBefore
    sampleUpdate_addable hbuild (hshows.offers samplePlatform_digest hresult.sane.stocked hread)
  have hlink := hfound height le_rfl ⟨"d/b", .path [[2]], 1⟩ (by simp [sampleFiles]) (by decide)
  exact ⟨root, t, root', t', height, h, hbuild, hlink⟩

/-- The inventory of what has been published has, once each and within the ceilings, the manifest of the root
and, link by link, every manifest and every blob below it, and it is a base for the next build. -/
theorem published_inventory (h : Published p limits readLimits files root t) (hlimit : 2 ≤ limits.maxLinks)
    (hdigest : ∀ bytes, (p.digest bytes).length = 32)
    (hread : Readable p.toPlatform limits.toWriterLimits readLimits t) :
    Bounded p.digest limits.toWriterLimits t.inventory ∧ root.type ≠ .blob ∧
      (∀ type hash, Under p.toPlatform readLimits t.inventory root type hash →
        (∃ blob ∈ t.inventory, p.digest blob = hash) ∧
        (type ≠ .blob →
          ∃ manifest, storedManifest p.toPlatform readLimits t.inventory hash = some manifest)) ∧
      ∃ kept, CarriesTree p.toPlatform t ⟨t.inventory, kept⟩ root.hash := by
  obtain ⟨nodes, hcomplete, hroot, hfiles⟩ := h.candidate hlimit hdigest
  refine ⟨h.bounded, isTree_ne_blob (hcomplete.root_tree hfiles hroot), fun type hash hunder => ?_,
    hcomplete.carries hfiles hroot hdigest hread⟩
  exact (hcomplete.under_stored hfiles hroot hdigest hread hunder).2

/-- The manifest of the root and what its two links name are in the inventory. -/
theorem published_inventory_sample : ∃ root t manifest,
    Published sampleBuildPlatform sampleBuildLimits Protocol.sampleLimits (merged sampleFiles sampleUpdate)
      root t ∧ storedManifest samplePlatform Protocol.sampleLimits t.inventory root.hash = some manifest ∧
      manifest.links.length = 2 ∧
      ∀ link ∈ manifest.links, ∃ blob ∈ t.inventory, samplePlatform.digest blob = link.hash := by
  obtain ⟨root, t, h, hcheck⟩ := sample_updated
  obtain ⟨hread, -, -, hnames⟩ := updateCheck_reads hcheck
  obtain ⟨-, htree, hunder, -⟩ := published_inventory h (le_refl 2) samplePlatform_digest hread
  obtain ⟨manifest, hmanifest⟩ := (hunder _ _ .root).2 htree
  have hlength : manifest.links.length = 2 := by
    have hnames := of_decide_eq_true hnames
    change (storedManifest sampleBuildPlatform.toPlatform _ _ _).map _ = _ at hnames
    rw [hmanifest] at hnames
    exact Option.some.inj hnames
  exact ⟨root, t, manifest, h, hmanifest, hlength, fun link hlink =>
    (hunder _ _ (.link .root htree hmanifest hlink)).1⟩

/-- What a reader has materialized from the root of what has been published is a base for the next build: it
has the tree below the root, and with any manifests that make up the tree in it the builds go on. -/
theorem materialized_base (h : Published p limits readLimits before root s) (hlimit : 2 ≤ limits.maxLinks)
    (hdigest : ∀ bytes, (p.digest bytes).length = 32)
    (hread : Readable p.toPlatform limits.toWriterLimits readLimits s) (hshows : Shows p readLimits before s w)
    {fetched : Reader.HashtreeBuild}
    (haddressed : ∀ blob ∈ fetched.inventory, p.digest (w.content blob.1) = blob.1)
    (hfetched : Reader.materialize w traversal root.hash .initial = .ok fetched session) :
    let base kept : WriterState := ⟨blobsOf w fetched, kept⟩
    (∃ kept, CarriesTree p.toPlatform s (base kept) root.hash ∧
      Readable p.toPlatform limits.toWriterLimits readLimits (base kept)) ∧
    ∀ kept, CarriesTree p.toPlatform s (base kept) root.hash →
      Readable p.toPlatform limits.toWriterLimits readLimits (base kept) →
      ∀ files root' t, Addable before files →
        build p limits files (some ⟨root.hash, blobsOf w fetched⟩) ⟨[], kept⟩ = .ok root' t →
          Published p limits readLimits (merged before files) root' t := by
  intro base
  obtain ⟨nodes, hcomplete, -⟩ := h.candidate hlimit hdigest
  refine ⟨hshows.carries hdigest hcomplete.sane.stocked hread haddressed hfetched, ?_⟩
  intro kept hcarries hreadKept files root' t hadd hbuild
  exact .next h hcarries hreadKept hadd hbuild

/-- The update is built on what has been fetched, and a file of the base is served from the result. -/
theorem materialized_base_sample : ∃ root t fetched session root' t',
    Published sampleBuildPlatform sampleBuildLimits Protocol.sampleLimits sampleFiles root t ∧
      Reader.materialize (candidateWorld t) sampleTraversal root.hash .initial = .ok fetched session ∧
      build sampleBuildPlatform sampleBuildLimits sampleUpdate
          (some ⟨root.hash, blobsOf (candidateWorld t) fetched⟩) ⟨[], t.written⟩ = .ok root' t' ∧
      Published sampleBuildPlatform sampleBuildLimits Protocol.sampleLimits (merged sampleFiles sampleUpdate)
        root' t' ∧ sampleServes root' t' = true := by
  obtain ⟨root, t, -, -, h, hcheck, -⟩ := sample_built
  obtain ⟨hread, hshows, hfetches⟩ := sampleCheck_reads hcheck
  obtain ⟨fetched, hfound, hall⟩ := (Option.any_eq_true ..).mp hfetches
  simp only [Bool.and_eq_true] at hall
  obtain ⟨⟨⟨⟨haddressed, hreads⟩, hblobs⟩, hmanifests⟩, hbuilds⟩ := hall
  obtain ⟨session, hfetched⟩ := returned_eq_some.mp hfound
  obtain ⟨root', t', hbuild, hserves⟩ := built_checked hbuilds
  obtain ⟨-, hbase⟩ := materialized_base h (le_refl 2) samplePlatform_digest hread hshows
    (fun blob hblob => of_decide_eq_true (List.all_eq_true.mp haddressed blob hblob)) hfetched
  refine ⟨root, t, fetched, session, root', t', h, hfetched, hbuild, ?_, hserves⟩
  exact hbase t.written (sample_carries rfl hblobs (manifestsKept_stored hmanifests)) (sample_readable hreads)
    sampleUpdate root' t' sampleUpdate_addable hbuild

end Results

end NixstrCache.Hashtree.Writer
