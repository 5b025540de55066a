import NixstrCache.Hashtree.BuildHistory

/-!
The inventory of a candidate.

Blobs come into the inventory from the files, from the components of routes, from the manifests and from the
base of a build.  All of them pass the same checks, so that a relation that holds whenever a blob is put holds
for a whole build.  At its end the inventory has everything that the root leads to.
-/

namespace NixstrCache.Hashtree.Writer

open Protocol Programs KeyedTable
open Persistence (Bytes)

section Putting

variable {p : BuildPlatform} {limits : BuildLimits} {R : List Bytes → List Bytes → Prop}
variable (h : PutClosed p.digest limits.toWriterLimits R)
include h

theorem PutClosed.collapseApart (kind : LinkListKind) (links : List ManifestLink) :
    Keeps (Blobs R) (collapseApart p limits.toWriterLimits kind links) := by
  intro s
  have hkeeps : Keeps (Blobs R) (collapse p.toPlatform limits.toWriterLimits kind links) :=
    PutClosed.collapseFrom h _ _ _
  have hstep := hkeeps ⟨s.inventory, []⟩
  unfold Blobs final Writer.collapseApart
  cases hrun : collapse p.toPlatform limits.toWriterLimits kind links ⟨s.inventory, []⟩ with
  | ok built t => rwa [final_ok hrun] at hstep
  | error e t => rwa [final_error hrun] at hstep

theorem PutClosed.readChunks (reads : List Bytes) (chunk : Bytes) :
    Keeps (Blobs R) (readChunks p limits.toWriterLimits reads chunk) := by
  induction reads generalizing chunk with
  | nil =>
    unfold Writer.readChunks
    exact .ite (.pure h.still _) ((PutClosed.persist h _).bind h.next fun _ => .pure h.still _)
  | cons piece reads ih =>
    unfold Writer.readChunks
    exact .ite (ih _)
      ((PutClosed.persist h _).bind h.next fun _ => (ih []).bind h.next fun _ => .pure h.still _)

theorem PutClosed.registerCandidate (bytes : Bytes) :
    Keeps (Blobs R) (registerCandidate p limits.toWriterLimits bytes) :=
  PutClosed.persist (q := { p.toPlatform with admission := fun _ => .ok () }) h bytes

theorem PutClosed.addComponents (sequence : ℕ) (previousSize : Option ℕ) (components : List RouteComponent) :
    Keeps (Blobs R) (addComponents p limits.toWriterLimits sequence previousSize components) := by
  induction components generalizing sequence previousSize with
  | nil => exact .pure h.still _
  | cons component components ih =>
    unfold Writer.addComponents
    refine (Keeps.get h.still).bind h.next fun s => .ite (.throw h.still _) (.ite (.throw h.still _) ?_)
    cases p.lookup s component.hash with
    | none => exact .throw h.still _
    | some bytes =>
      exact .ite (.throw h.still _)
        ((h.registerCandidate bytes).bind h.next fun _ => (ih _ _).bind h.next fun _ => .pure h.still _)

theorem PutClosed.reread (hash : List UInt8) (message : String) :
    Keeps (Blobs R) (reread p hash message) :=
  (Keeps.get h.still).bind h.next fun _ => .ite (.throw h.still _) (.pure h.still _)

theorem PutClosed.buildFile (file : LogicalFile) :
    Keeps (Blobs R) (buildFile p limits.toWriterLimits file) := by
  have hchunks : Keeps (Blobs R) (chunkLinks p limits.toWriterLimits file.source) := by
    cases file.source with
    | unavailable => exact .throw h.still _
    | path reads => exact h.readChunks reads []
    | components components => exact h.addComponents 0 none _
  have hdirect : ∀ hash size, Keeps (Blobs R) (directFile p hash size) := fun hash size =>
    (h.reread hash _).bind h.next fun _ => .pure h.still _
  unfold Writer.buildFile
  refine hchunks.bind h.next fun links => .ite (.throw h.still _) ?_
  match links with
  | [] => exact (PutClosed.persist h _).bind h.next fun _ => hdirect _ _
  | [link] => exact hdirect _ _
  | first :: second :: rest =>
    exact (h.collapseApart .file _).bind h.next fun _ => (h.reread _ _).bind h.next fun _ => .pure h.still _

theorem PutClosed.liftError {α : Type} (r : Except WriterError α) : Keeps (Blobs R) (liftError r) := by
  cases r with
  | ok a => exact .pure h.still a
  | error e => exact .throw h.still e

theorem PutClosed.buildFiles (rows : List NodeRow) (nodes : Nodes) :
    Keeps (Blobs R) (buildFiles p limits rows nodes) := by
  induction rows generalizing nodes with
  | nil => exact .pure h.still _
  | cons row rows ih =>
    unfold Writer.buildFiles
    cases row.source with
    | none => exact ih nodes
    | some file => exact (h.buildFile file).bind h.next fun _ => ih _

theorem PutClosed.buildDirectories (rows : List NodeRow) (nodes : Nodes) :
    Keeps (Blobs R) (buildDirectories p limits rows nodes) := by
  induction rows generalizing nodes with
  | nil => exact .pure h.still _
  | cons row rows ih =>
    exact (h.liftError _).bind h.next fun _ => (h.collapseApart .directory _).bind h.next fun _ => ih _

theorem PutClosed.startNodes (base : Option Base) : Keeps (Blobs R) (startNodes p limits base) := by
  cases base with
  | none => exact .pure h.still _
  | some base =>
    have hregister : ∀ blobs : List Bytes, Keeps (Blobs R)
        (blobs.forM fun blob => discard (Writer.registerCandidate p limits.toWriterLimits blob)) := by
      intro blobs
      induction blobs with
      | nil => exact .pure h.still _
      | cons blob blobs ih =>
        exact ((h.registerCandidate blob).bind h.next fun _ => .pure h.still _).bind h.next fun _ => ih
    exact (hregister base.inventory).bind h.next fun _ => h.liftError _

theorem PutClosed.build (files : List LogicalFile) (base : Option Base) :
    Keeps (Blobs R) (build p limits files base) := by
  unfold Writer.build
  refine (h.startNodes base).bind h.next fun _ => (h.liftError _).bind h.next fun _ =>
    (h.buildFiles _ _).bind h.next fun _ => (h.buildDirectories _ _).bind h.next fun nodes => ?_
  cases (nodes.find? "").bind NodeRow.built with
  | some root => exact .pure h.still _
  | none => exact .throw h.still _

theorem PutClosed.after {files : List LogicalFile} {base : Option Base} {nodes : Nodes}
    {s t u : WriterState} {root : BuiltLink} (hstart : Writer.startNodes p limits base s = .ok nodes u)
    (hbuild : Writer.build p limits files base s = .ok root t) : R u.inventory t.inventory := by
  obtain ⟨start, v, hfound, hrest⟩ := bind_ok.mp hbuild
  obtain ⟨rfl, rfl⟩ := EStateM.Result.ok.inj (hfound.symm.trans hstart)
  obtain ⟨inserted, v', hlift, hloops⟩ := bind_ok.mp hrest
  obtain ⟨-, rfl⟩ := liftError_ok hlift
  obtain ⟨filed, u', hfiled, hfinish⟩ := bind_ok.mp hloops
  obtain ⟨finished, w, hfinished, hroot⟩ := bind_ok.mp hfinish
  have hfiles := h.buildFiles (fileRows inserted) inserted v'
  have hdirectories := h.buildDirectories (directoryRows filed) filed u'
  rw [final_ok hfiled] at hfiles
  rw [final_ok hfinished] at hdirectories
  refine h.next _ _ _ hfiles ?_
  cases hfound : (finished.find? "").bind NodeRow.built with
  | none =>
    rw [hfound] at hroot
    cases hroot
  | some found =>
    rw [hfound] at hroot
    obtain ⟨rfl, rfl⟩ := EStateM.Result.ok.inj hroot
    exact hdirectories

end Putting

section Ceilings

variable {p : BuildPlatform} {limits : BuildLimits} {files : List LogicalFile} {t : WriterState}
variable {root : BuiltLink}

/-- No two blobs of an inventory have one digest, and it is within the ceilings. -/
structure Bounded (digest : List UInt8 → List UInt8) (limits : WriterLimits) (blobs : List Bytes) : Prop where
  different : (blobs.map digest).Nodup
  count : blobs.length ≤ limits.maxInventoryBlobs
  bytes : (blobs.map List.length).sum ≤ limits.maxInventoryBytes

theorem putClosed_bounded (digest : List UInt8 → List UInt8) (limits : WriterLimits) :
    PutClosed digest limits fun blobs more =>
      blobs <+: more ∧ (Bounded digest limits blobs → Bounded digest limits more) := by
  refine ⟨fun blobs => ⟨List.prefix_rfl, id⟩, fun _ _ _ h h' => ⟨h.1.trans h'.1, h'.2 ∘ h.2⟩, ?_⟩
  intro blobs bytes hnew hcount hbytes
  refine ⟨List.prefix_append _ _, fun hbounded => ⟨?_, ?_, ?_⟩⟩
  · rw [List.map_append, List.nodup_append]
    refine ⟨hbounded.different, List.nodup_singleton _, ?_⟩
    rintro digested hmem other hother rfl
    obtain ⟨blob, hblob, rfl⟩ := List.mem_map.mp hmem
    exact hnew blob hblob (by simpa using hother)
  · rwa [List.length_append]
  · rwa [List.map_append, List.sum_append, List.map_singleton, List.sum_singleton]

theorem build_bounded (files : List LogicalFile) (base : Option Base) (written : List Manifest) :
    Bounded p.digest limits.toWriterLimits (final (build p limits files base) ⟨[], written⟩).inventory :=
  ((putClosed_bounded p.digest limits.toWriterLimits).build files base ⟨[], written⟩).2
    ⟨List.nodup_nil, Nat.zero_le _, Nat.zero_le _⟩

/-- However a build ends, no two blobs of its inventory have one digest, and it is within the ceilings.  One
that ends well has all blobs of its base, those of the files that it replaces too. -/
theorem build_inventory (files : List LogicalFile) (base : Option Base) (written : List Manifest) :
    let t := final (build p limits files base) ⟨[], written⟩
    Bounded p.digest limits.toWriterLimits t.inventory ∧
      ((∀ blob ∈ (base.map Base.inventory).getD [], ∃ kept ∈ t.inventory, p.digest kept = p.digest blob) ∨
        ∃ e, build p limits files base ⟨[], written⟩ = .error e t) := by
  intro t
  have hclosed := putClosed_bounded p.digest limits.toWriterLimits
  refine ⟨build_bounded files base written, ?_⟩
  cases hbuild : build p limits files base ⟨[], written⟩ with
  | error e u =>
    have hlast : t = u := final_error hbuild
    exact Or.inr ⟨e, by rw [hlast]⟩
  | ok root u =>
    have hlast : t = u := final_ok hbuild
    refine Or.inl fun blob hblob => ?_
    cases base with
    | none => simp at hblob
    | some base =>
      obtain ⟨nodes, v, hstart, -⟩ := bind_ok.mp hbuild
      obtain ⟨_, v', hregister, hlift⟩ := bind_ok.mp hstart
      obtain ⟨-, rfl⟩ := liftError_ok hlift
      obtain ⟨kept, hkept, hsame⟩ := (register_put hregister).stored blob hblob
      exact ⟨kept, hlast ▸ (hclosed.after hstart hbuild).1.subset hkept, hsame⟩

theorem Published.bounded {readLimits : ManifestLimits} (h : Published p limits readLimits files root t) :
    Bounded p.digest limits.toWriterLimits t.inventory := by
  cases h with
  | first _ hbuild => exact final_ok hbuild ▸ build_bounded files none []
  | next _ _ _ _ hbuild => exact final_ok hbuild ▸ build_bounded _ _ _

end Ceilings

section Carrying

variable {p : BuildPlatform} {limits : BuildLimits} {readLimits : ManifestLimits}
variable {files : List LogicalFile} {nodes : Nodes} {t : WriterState} {root built : BuiltLink}
variable {manifest other : Manifest} {wire wire' : Bytes} {link : ManifestLink} {dir : List String}

theorem Stocked.same (hs : Stocked p.toPlatform limits.toWriterLimits t)
    (hdigest : ∀ bytes, (p.digest bytes).length = 32)
    (hread : Readable p.toPlatform limits.toWriterLimits readLimits t) (hmem : manifest ∈ t.written)
    (hwire : encodeManifest p.lib manifest = .ok wire) (hother : other ∈ t.written)
    (hwire' : encodeManifest p.lib other = .ok wire') (hsame : p.digest wire = p.digest wire') :
    manifest = other := by
  have hfound := hs.found hread hmem hwire
  rw [hsame, hs.found hread hother hwire'] at hfound
  obtain rfl := Option.some.inj hfound
  exact Except.ok.inj ((hs.decoded hdigest hread hmem hwire).symm.trans (hs.decoded hdigest hread hother hwire'))

def InFile (p : Platform) (t : WriterState) (manifest : Manifest) : Prop :=
  ∃ level parts, List.Forall₂ (Holds p .file t.written level) manifest.links parts ∧
    ∀ entry ∈ parts.flatten, entry.type = .blob ∧ ∃ blob ∈ t.inventory, p.digest blob = entry.hash

def InDirectory (p : Platform) (files : List LogicalFile) (nodes : Nodes) (t : WriterState)
    (manifest : Manifest) : Prop :=
  ∃ dir, OnWay files dir ∧ ∃ level parts,
    List.Forall₂ (Holds p .directory t.written level) manifest.links parts ∧ Children nodes dir parts.flatten

/-- The link leads to a blob of the inventory, or to a manifest of a kind. -/
def Reaches (p : Platform) (t : WriterState) (kind : Manifest → Prop) (type : LinkType) (hash : List UInt8) :
    Prop :=
  if type = .blob then ∃ blob ∈ t.inventory, p.digest blob = hash
  else ∃ child ∈ t.written, ∃ wire, encodeManifest p.lib child = .ok wire ∧ hash = p.digest wire ∧ kind child

theorem Reaches.mono {q : Platform} {kind kind' : Manifest → Prop} {type : LinkType} {hash : List UInt8}
    (h : Reaches q t kind type hash) (hkind : ∀ manifest, kind manifest → kind' manifest) :
    Reaches q t kind' type hash := by
  unfold Reaches at h ⊢
  split_ifs at h ⊢
  · exact h
  · obtain ⟨child, hchild, wire, hwire, hhash, hin⟩ := h
    exact ⟨child, hchild, wire, hwire, hhash, hkind child hin⟩

theorem Leads.reaches {q : Platform} {bytes : Bytes} {hash : List UInt8} {size : ℕ} {type : LinkType}
    (h : Leads q t bytes hash size type) : Reaches q t (InFile q t) type hash := by
  cases h with
  | direct hstored => exact hstored
  | tree chunks built hflat hentries hroot hstored =>
    obtain ⟨top, hmem, wire, level, parts, hwire, hhash, -, -, hholds, hbelow⟩ := hroot.manifest
    refine ⟨top, hmem, wire, hwire, hhash, level, parts, hholds, fun entry hentry => ?_⟩
    rw [hbelow] at hentry
    obtain ⟨chunk, hchunk, rfl⟩ := List.mem_map.mp hentry
    exact ⟨rfl, hstored chunk hchunk⟩

theorem InFile.reaches {q : Platform} (h : InFile q t manifest) (hlink : link ∈ manifest.links) :
    Reaches q t (InFile q t) link.type link.hash := by
  obtain ⟨level, parts, hholds, hentries⟩ := h
  cases level with
  | zero =>
    rw [← flatten_entries hholds] at hlink
    obtain ⟨hblob, hstored⟩ := hentries link hlink
    rwa [Reaches, if_pos hblob]
  | succ level =>
    obtain ⟨part, hpart, child, hchild, wire, below, hwire, hhash, -, hbelow, rfl, hrepresents⟩ :=
      forall₂_left hholds hlink
    rw [Reaches, if_neg (hrepresents.type ▸ groupType_ne_blob .file level)]
    exact ⟨child, hchild, wire, hwire, hhash, level, below, hbelow, fun entry hentry =>
      hentries entry (List.mem_flatten.mpr ⟨_, hpart, hentry⟩)⟩

/-- The kinds of manifests under the root of a candidate. -/
def Kept (p : Platform) (files : List LogicalFile) (nodes : Nodes) (t : WriterState) (manifest : Manifest) :
    Prop :=
  InFile p t manifest ∨ InDirectory p files nodes t manifest

theorem isTree_ne_blob {type : LinkType} (h : isTree type = true) : type ≠ .blob := by
  rintro rfl
  cases h

theorem Complete.reaches_directory (h : Complete p limits files nodes t) (hway : OnWay files dir)
    (hbuilt : builtAt nodes (joinPath dir) = some built) (htree : isTree built.type = true) :
    Reaches p.toPlatform t (Kept p.toPlatform files nodes t) built.type built.hash := by
  obtain ⟨child, hchild, wire, level, below, hwire, hhash, -, hlevel, hnames, -⟩ := h.manifest hway hbuilt
  rw [Reaches, if_neg (isTree_ne_blob htree)]
  exact ⟨child, hchild, wire, hwire, hhash, Or.inr ⟨dir, hway, level, below, hlevel.holds, hnames⟩⟩

theorem Complete.reaches (h : Complete p limits files nodes t) (hfiles : Routed files)
    (hin : Kept p.toPlatform files nodes t manifest) (hlink : link ∈ manifest.links) :
    Reaches p.toPlatform t (Kept p.toPlatform files nodes t) link.type link.hash := by
  rcases hin with hin | ⟨dir, hway, level, parts, hholds, hchildren⟩
  · exact (hin.reaches hlink).mono fun _ => Or.inl
  cases level with
  | zero =>
    rw [← flatten_entries hholds] at hlink
    obtain ⟨name, built, hname, hbuilt, rfl⟩ := hchildren link hlink
    have hsegments : ∀ part ∈ dir ++ [name], IsSegment part := by
      simpa [or_imp, forall_and] using ⟨hway.segments, hname⟩
    rcases h.leadsTo hfiles hsegments hbuilt with ⟨-, file, -, -, bytes, -, -, hleads⟩ | ⟨htree, hwayBelow⟩
    · exact hleads.reaches.mono fun _ => Or.inl
    · exact h.reaches_directory hwayBelow hbuilt htree
  | succ level =>
    obtain ⟨part, hpart, child, hchild, wire, below, hwire, hhash, -, hbelow, rfl, hrepresents⟩ :=
      forall₂_left hholds hlink
    rw [Reaches, if_neg (hrepresents.type ▸ groupType_ne_blob .directory level)]
    exact ⟨child, hchild, wire, hwire, hhash, Or.inr ⟨dir, hway, level, below, hbelow, fun entry hentry =>
      hchildren entry (List.mem_flatten.mpr ⟨_, hpart, hentry⟩)⟩⟩

/-- What a root leads to through the manifests of an inventory: the root itself and, link by link, all that
is below it. -/
inductive Under (p : Platform) (readLimits : ManifestLimits) (inventory : List Bytes) (root : BuiltLink) :
    LinkType → List UInt8 → Prop
  | root : Under p readLimits inventory root root.type root.hash
  | link {type : LinkType} {hash : List UInt8} {manifest : Manifest} {link : ManifestLink}
      (h : Under p readLimits inventory root type hash) (htree : type ≠ .blob)
      (hmanifest : storedManifest p readLimits inventory hash = some manifest)
      (hlink : link ∈ manifest.links) : Under p readLimits inventory root link.type link.hash

theorem Complete.root_tree (h : Complete p limits files nodes t) (hfiles : Routed files)
    (hroot : builtAt nodes "" = some root) : isTree root.type = true := by
  rcases h.leadsTo hfiles (h.root_onWay hfiles hroot).segments hroot with ⟨-, file, hfile, hempty, -⟩ | ⟨htree, -⟩
  · exact absurd hempty (hfiles.filled file hfile)
  · exact htree

theorem Complete.under_stored (h : Complete p limits files nodes t) (hfiles : Routed files)
    (hroot : builtAt nodes "" = some root) (hdigest : ∀ bytes, (p.digest bytes).length = 32)
    (hread : Readable p.toPlatform limits.toWriterLimits readLimits t) {type : LinkType} {hash : List UInt8}
    (hunder : Under p.toPlatform readLimits t.inventory root type hash) :
    Reaches p.toPlatform t (Kept p.toPlatform files nodes t) type hash ∧
      (∃ blob ∈ t.inventory, p.digest blob = hash) ∧
      (type ≠ .blob → ∃ manifest, storedManifest p.toPlatform readLimits t.inventory hash = some manifest) := by
  have hreaches : Reaches p.toPlatform t (Kept p.toPlatform files nodes t) type hash := by
    induction hunder with
    | root => exact h.reaches_directory (h.root_onWay hfiles hroot) hroot (h.root_tree hfiles hroot)
    | link _ htree hmanifest hlink ih =>
      rw [Reaches, if_neg htree] at ih
      obtain ⟨child, hchild, wire, hwire, rfl, hin⟩ := ih
      rw [h.sane.stocked.stored_manifest hdigest hread hchild hwire] at hmanifest
      obtain rfl := Option.some.inj hmanifest
      exact h.reaches hfiles hin hlink
  refine ⟨hreaches, ?_, fun htree => ?_⟩
  · rw [Reaches] at hreaches
    split_ifs at hreaches with hblob
    · exact hreaches
    · obtain ⟨child, hchild, wire, hwire, rfl, -⟩ := hreaches
      have hfound := h.sane.stocked.found hread hchild hwire
      exact ⟨wire, List.mem_of_find?_eq_some hfound, rfl⟩
  · rw [Reaches, if_neg htree] at hreaches
    obtain ⟨child, hchild, wire, hwire, rfl, -⟩ := hreaches
    exact ⟨child, h.sane.stocked.stored_manifest hdigest hread hchild hwire⟩

open Classical in
theorem Complete.carries (h : Complete p limits files nodes t) (hfiles : Routed files)
    (hroot : builtAt nodes "" = some root) (hdigest : ∀ bytes, (p.digest bytes).length = 32)
    (hread : Readable p.toPlatform limits.toWriterLimits readLimits t) :
    ∃ kept, CarriesTree p.toPlatform t ⟨t.inventory, kept⟩ root.hash := by
  have hkept : ∀ manifest ∈ t.written.filter (Kept p.toPlatform files nodes t), manifest ∈ t.written ∧
      Kept p.toPlatform files nodes t manifest := fun manifest hmem =>
    ⟨(List.mem_filter.mp hmem).1, of_decide_eq_true (List.mem_filter.mp hmem).2⟩
  have htaken : ∀ type hash, type ≠ .blob →
      Reaches p.toPlatform t (Kept p.toPlatform files nodes t) type hash →
      Taken p.toPlatform t ⟨t.inventory, t.written.filter (Kept p.toPlatform files nodes t)⟩ hash := by
    intro type hash htree hreaches manifest hmem wire' hwire' hsame
    rw [Reaches, if_neg htree] at hreaches
    obtain ⟨child, hchild, wire, hwire, rfl, hin⟩ := hreaches
    obtain rfl := h.sane.stocked.same hdigest hread hchild hwire hmem hwire' hsame
    exact List.mem_filter.mpr ⟨hmem, decide_eq_true hin⟩
  refine ⟨t.written.filter (Kept p.toPlatform files nodes t), fun manifest hmem => (hkept manifest hmem).1,
    ?_, fun manifest hmem link hlink htree => ?_, fun manifest hmem wire hwire => ?_,
    fun manifest hmem link hlink hblob => ?_⟩
  · have htree := h.root_tree hfiles hroot
    exact htaken root.type _ (isTree_ne_blob htree)
      (h.reaches_directory (h.root_onWay hfiles hroot) hroot htree)
  · exact htaken link.type _ htree (h.reaches hfiles (hkept manifest hmem).2 hlink)
  · obtain ⟨found, hfound, hstored⟩ := h.sane.stocked.stored manifest (hkept manifest hmem).1
    obtain rfl := Except.ok.inj (hwire.symm.trans hfound)
    exact hstored
  · have hreaches := h.reaches hfiles (hkept manifest hmem).2 hlink
    rwa [Reaches, if_pos hblob] at hreaches

end Carrying

end NixstrCache.Hashtree.Writer
