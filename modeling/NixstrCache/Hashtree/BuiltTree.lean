import NixstrCache.Hashtree.NodeTable

/-!
The tree that a build writes.

When a build comes to its end, every directory is a tree of manifests over the links to the rows below it,
and every file is behind the link in its row.  A reader of the candidate that searches the tree linearly finds
exactly the files and the directories on the way to them.
-/

namespace NixstrCache.Hashtree.Writer

open Protocol Programs KeyedTable KeyedTable.Table
open Persistence (Bytes)

variable {p : BuildPlatform} {limits : BuildLimits} {s t u : WriterState}
variable {files : List LogicalFile} {nodes result : Nodes} {row : NodeRow} {rows : List NodeRow}
variable {parts : List String} {path : String}

section Loops

structure Sane (p : BuildPlatform) (limits : BuildLimits) (files : List LogicalFile) (nodes : Nodes)
    (s : WriterState) : Prop where
  indexed : Indexed files nodes
  hashed : Hashed nodes
  stocked : Stocked p.toPlatform limits.toWriterLimits s
  count : nodes.rows.length ≤ 9007199254740991

theorem Sane.setBuilt {built : BuiltLink} (h : Sane p limits files nodes s)
    (hstocked : Stocked p.toPlatform limits.toWriterLimits t) (hhash : built.hash.length = 32) :
    Sane p limits files (setBuilt nodes path built) t :=
  ⟨h.indexed.setBuilt, h.hashed.setBuilt hhash, hstocked, length_setBuilt.trans_le h.count⟩

theorem Leads.hash {q : Platform} {bytes : Bytes} {hash : List UInt8} {size : ℕ} {type : LinkType}
    (hdigest : ∀ bytes, (q.digest bytes).length = 32) (h : Leads q t bytes hash size type) :
    hash.length = 32 := by
  cases h with
  | direct _ => exact hdigest _
  | tree chunks built _ _ hroot _ =>
    obtain ⟨manifest, -, wire, level, entries, -, hhash, -⟩ := hroot.manifest
    exact hhash ▸ hdigest wire

def FileBuilt (p : BuildPlatform) (t : WriterState) (nodes : Nodes) (file : LogicalFile) : Prop :=
  ∃ built bytes, builtAt nodes file.route = some built ∧ file.Contains p.digest bytes ∧
    bytes.length = file.size ∧ Leads p.toPlatform t bytes built.hash built.size built.type ∧
    built.size = file.size

theorem Leads.size {q : Platform} {bytes : Bytes} {hash : List UInt8} {size : ℕ} {type : LinkType}
    (h : Leads q t bytes hash size type) : size = bytes.length := by
  cases h <;> rfl

theorem FileBuilt.mono {file : LogicalFile} (h : FileBuilt p s nodes file) (hgrows : Grows s t)
    (hsame : builtAt result file.route = builtAt nodes file.route) : FileBuilt p t result file := by
  obtain ⟨built, bytes, hbuilt, hcontains, hlength, hleads, hsize⟩ := h
  exact ⟨built, bytes, hsame.trans hbuilt, hcontains, hlength, hleads.mono hgrows, hsize⟩

structure FileRows (nodes : Nodes) (rows : List NodeRow) : Prop where
  present : ∀ row ∈ rows, nodes.has row.path = true
  routes : ∀ row ∈ rows, ∀ file ∈ row.source, file.route = row.path
  different : rows.Pairwise fun a b => a.path ≠ b.path

theorem has_setBuilt {built : BuiltLink} {other : String} :
    (setBuilt nodes path built).has other = nodes.has other := by
  rw [Bool.eq_iff_iff, has_iff, has_iff]
  constructor
  · rintro ⟨row, hrow, rfl⟩
    obtain ⟨old, hold, rfl⟩ := mem_setBuilt.mp hrow
    refine ⟨old, hold, ?_⟩
    split_ifs <;> rfl
  · rintro ⟨old, hold, rfl⟩
    refine ⟨_, mem_setBuilt.mpr ⟨old, hold, rfl⟩, ?_⟩
    split_ifs <;> rfl

theorem builtAt_of_has {built : BuiltLink} (h : nodes.has path = true) :
    builtAt (setBuilt nodes path built) path = some built := by
  obtain ⟨row, hrow, rfl⟩ := has_iff.mp h
  rw [builtAt_setBuilt, if_pos rfl, find?_key hrow]
  rfl

theorem builtAt_of_ne {built : BuiltLink} {other : String} (h : other ≠ path) :
    builtAt (setBuilt nodes path built) other = builtAt nodes other := by
  rw [builtAt_setBuilt, if_neg h]

theorem buildFiles_ok (hlimit : 2 ≤ limits.maxLinks) (hdigest : ∀ bytes, (p.digest bytes).length = 32)
    (hs : Sane p limits files nodes s) (hrows : FileRows nodes rows)
    (h : buildFiles p limits rows nodes s = .ok result t) :
    Sane p limits files result t ∧ Grows s t ∧
      (∀ row ∈ rows, ∀ file ∈ row.source, FileBuilt p t result file) ∧
      ∀ path, (∀ row ∈ rows, row.path ≠ path) → builtAt result path = builtAt nodes path := by
  induction rows generalizing nodes s with
  | nil =>
    obtain ⟨rfl, rfl⟩ := EStateM.Result.ok.inj h
    exact ⟨hs, .refl _, by simp, fun _ _ => rfl⟩
  | cons row rows ih =>
    obtain ⟨hdifferent, hrest⟩ := List.pairwise_cons.mp hrows.different
    have hthere := hrows.present row (by simp)
    rw [buildFiles] at h
    cases hsource : row.source with
    | none =>
      simp only [hsource] at h
      obtain ⟨hsane, hgrows, hbuilt, hframe⟩ := ih hs ⟨fun r hr => hrows.present r (by simp [hr]),
        fun r hr => hrows.routes r (by simp [hr]), hrest⟩ h
      refine ⟨hsane, hgrows, List.forall_mem_cons.mpr ⟨?_, hbuilt⟩, fun path hpath =>
        hframe path fun r hr => hpath r (by simp [hr])⟩
      intro file hfile
      rw [hsource] at hfile
      cases hfile
    | some file =>
      simp only [hsource] at h
      obtain ⟨built, v, hbuild, h⟩ := bind_ok.mp h
      obtain ⟨hstocked, hgrows, bytes, hcontains, hlength, hleads⟩ :=
        buildFile_leads hlimit hdigest hs.stocked hbuild
      have hpresent : ∀ r ∈ rows, (setBuilt nodes row.path (builtLink built)).has r.path = true := by
        intro r hr
        rw [has_setBuilt]
        exact hrows.present r (by simp [hr])
      obtain ⟨hsane, hlater, hall, hframe⟩ := ih (hs.setBuilt hstocked (hleads.hash hdigest))
        ⟨hpresent, fun r hr => hrows.routes r (by simp [hr]), hrest⟩ h
      refine ⟨hsane, hgrows.trans hlater, List.forall_mem_cons.mpr ⟨?_, hall⟩, fun path hpath => ?_⟩
      · intro other hother
        rw [hsource] at hother
        obtain rfl := Option.some.inj hother
        have hroute := hrows.routes row (by simp) file hsource
        refine ⟨builtLink built, bytes, ?_, hcontains, hlength, hleads.mono hlater, hleads.size.trans hlength⟩
        rw [hroute, hframe _ fun r hr => (hdifferent r hr).symm, builtAt_of_has hthere]
      · obtain ⟨hhere, hlaterPath⟩ := List.forall_mem_cons.mp hpath
        rw [hframe path hlaterPath, builtAt_of_ne hhere.symm]

/-- A directory is a tree of manifests over the links to the rows below it. -/
def DirectoryBuilt (p : BuildPlatform) (limits : BuildLimits) (t : WriterState) (nodes : Nodes)
    (parts : List String) : Prop :=
  ∃ entries built, builtAt nodes (joinPath parts) = some (builtLink built) ∧ Entries .directory entries ∧
    Root p.toPlatform .directory entries built t.written ∧
    (built.type = .directory ↔ entries.length ≤ limits.maxLinks) ∧
    ∀ name, IsSegment name →
      entryNamed entries name = (builtAt nodes (joinPath (parts ++ [name]))).map (nameLink name)

theorem DirectoryBuilt.mono (h : DirectoryBuilt p limits s nodes parts) (hgrows : Grows s t)
    (hhere : builtAt result (joinPath parts) = builtAt nodes (joinPath parts))
    (hbelow : ∀ name, IsSegment name →
      builtAt result (joinPath (parts ++ [name])) = builtAt nodes (joinPath (parts ++ [name]))) :
    DirectoryBuilt p limits t result parts := by
  obtain ⟨entries, built, hbuilt, hentries, hroot, htype, hnamed⟩ := h
  refine ⟨entries, built, hhere.trans hbuilt, hentries, hroot.mono hgrows.written, htype, ?_⟩
  intro name hname
  rw [hnamed name hname, hbelow name hname]

structure DirectoryOrder (files : List LogicalFile) (nodes : Nodes) (rows : List NodeRow) : Prop where
  present : ∀ row ∈ rows, nodes.has row.path = true
  ways : ∀ row ∈ rows, ∃ parts, OnWay files parts ∧ row.path = joinPath parts ∧ row.depth = parts.length
  deeper : rows.Pairwise fun a b => a.path ≠ b.path ∧ b.depth ≤ a.depth

theorem Root.hash {q : Platform} {entries : List ManifestLink} {built : Built} {written : List Manifest}
    {kind : LinkListKind} (hdigest : ∀ bytes, (q.digest bytes).length = 32)
    (h : Root q kind entries built written) : built.hash.length = 32 := by
  obtain ⟨manifest, -, wire, level, parts, -, hhash, -⟩ := h.manifest
  exact hhash ▸ hdigest wire

theorem liftError_ok {α : Type} {r : Except WriterError α} {a : α} (h : liftError r s = .ok a t) :
    r = .ok a ∧ t = s := by
  cases r with
  | ok found =>
    obtain ⟨rfl, rfl⟩ := EStateM.Result.ok.inj h
    exact ⟨rfl, rfl⟩
  | error e => cases h

theorem joinPath_ne {others : List String} {name : String} (hparts : ∀ part ∈ parts, IsSegment part)
    (hname : IsSegment name) (hothers : ∀ part ∈ others, IsSegment part)
    (hlength : others.length ≤ parts.length) : joinPath (parts ++ [name]) ≠ joinPath others := by
  intro heq
  have hsegments : ∀ part ∈ parts ++ [name], IsSegment part := by
    intro part hpart
    rcases List.mem_append.mp hpart with hpart | hpart
    · exact hparts part hpart
    · exact List.mem_singleton.mp hpart ▸ hname
  have hsame := congrArg List.length (joinPath_inj hsegments hothers heq)
  rw [List.length_append, List.length_singleton] at hsame
  omega

theorem buildDirectory_ok {links : List ManifestLink} {built : Built} (hfiles : Routed files)
    (hlimit : 2 ≤ limits.maxLinks) (hdigest : ∀ bytes, (p.digest bytes).length = 32)
    (hs : Sane p limits files nodes s) (hway : OnWay files parts)
    (hthere : nodes.has (joinPath parts) = true)
    (hlinks : (childRows nodes (joinPath parts)).mapM childLink = .ok links)
    (hbuild : collapseApart p limits.toWriterLimits .directory links s = .ok built t) :
    Sane p limits files (setBuilt nodes (joinPath parts) (builtLink built)) t ∧ Grows s t ∧
      DirectoryBuilt p limits t (setBuilt nodes (joinPath parts) (builtLink built)) parts := by
  have hentries := childLinks_entries hfiles hs.indexed hs.hashed hway hs.count hlinks
    (collapseApart_size hbuild)
  obtain ⟨hstocked, hgrows, hroot⟩ := collapseApart_ok hlimit hs.stocked hentries hbuild
  refine ⟨hs.setBuilt hstocked (hroot.hash hdigest), hgrows, links, built, builtAt_of_has hthere, hentries,
    hroot, collapseApart_type hbuild, fun name hname => ?_⟩
  rw [builtAt_of_ne (joinPath_ne hway.segments hname hway.segments le_rfl)]
  exact entryNamed_children hfiles hs.indexed hway hlinks hname

theorem buildDirectories_ok (hfiles : Routed files) (hlimit : 2 ≤ limits.maxLinks)
    (hdigest : ∀ bytes, (p.digest bytes).length = 32) (hs : Sane p limits files nodes s)
    (hrows : DirectoryOrder files nodes rows) (h : buildDirectories p limits rows nodes s = .ok result t) :
    Sane p limits files result t ∧ Grows s t ∧
      (∀ row ∈ rows, ∀ parts, OnWay files parts → row.path = joinPath parts →
        DirectoryBuilt p limits t result parts) ∧
      ∀ path, (∀ row ∈ rows, row.path ≠ path) → builtAt result path = builtAt nodes path := by
  induction rows generalizing nodes s with
  | nil =>
    obtain ⟨rfl, rfl⟩ := EStateM.Result.ok.inj h
    exact ⟨hs, .refl _, by simp, fun _ _ => rfl⟩
  | cons row rows ih =>
    obtain ⟨hdeeper, hrest⟩ := List.pairwise_cons.mp hrows.deeper
    obtain ⟨parts, hway, hpath, hdepth⟩ := hrows.ways row (by simp)
    have hthere : nodes.has (joinPath parts) = true := hpath ▸ hrows.present row (by simp)
    obtain ⟨links, v, hlift, hnext⟩ := bind_ok.mp h
    obtain ⟨hlinks, rfl⟩ := liftError_ok hlift
    obtain ⟨built, w, hbuild, hloop⟩ := bind_ok.mp hnext
    rw [hpath] at hlinks hloop
    obtain ⟨hsane, hgrows, hdirectory⟩ :=
      buildDirectory_ok hfiles hlimit hdigest hs hway hthere hlinks hbuild
    have hpresent : ∀ r ∈ rows, (setBuilt nodes (joinPath parts) (builtLink built)).has r.path = true := by
      intro r hr
      rw [has_setBuilt]
      exact hrows.present r (by simp [hr])
    obtain ⟨hend, hlater, hall, hframe⟩ := ih hsane
      ⟨hpresent, fun r hr => hrows.ways r (by simp [hr]), hrest⟩ hloop
    have hdone : DirectoryBuilt p limits t result parts := by
      refine hdirectory.mono hlater (hframe _ fun r hr => ?_) fun name hname => hframe _ fun r hr => ?_
      · exact fun heq => (hdeeper r hr).1 (hpath.trans heq.symm)
      · obtain ⟨others, hother, hotherPath, hotherDepth⟩ := hrows.ways r (by simp [hr])
        have hle := (hdeeper r hr).2
        rw [hotherPath]
        exact (joinPath_ne hway.segments hname hother.segments (by omega)).symm
    refine ⟨hend, hgrows.trans hlater, List.forall_mem_cons.mpr ⟨?_, hall⟩, fun path hne => ?_⟩
    · intro others hother heq
      rwa [← joinPath_inj hway.segments hother.segments (hpath.symm.trans heq)]
    · obtain ⟨hhere, hlaterPath⟩ := List.forall_mem_cons.mp hne
      rw [hframe path hlaterPath, builtAt_of_ne (hpath ▸ hhere.symm)]

end Loops

section Builds

structure Complete (p : BuildPlatform) (limits : BuildLimits) (files : List LogicalFile) (nodes : Nodes)
    (t : WriterState) : Prop where
  sane : Sane p limits files nodes t
  filed : ∀ file ∈ files, FileBuilt p t nodes file
  directories : ∀ parts, OnWay files parts → DirectoryBuilt p limits t nodes parts

def Indexable (files : List LogicalFile) : Prop :=
  (files.map fun file => (segmentsOf file.route).length + 1).sum ≤ 9007199254740991

instance decidableIndexable (files : List LogicalFile) : Decidable (Indexable files) :=
  inferInstanceAs (Decidable (_ ≤ 9007199254740991))

/-- Files that a build adds to those before it. -/
structure Addable (before files : List LogicalFile) : Prop where
  canonical : ∀ file ∈ files, Canonical file
  apart : files.Pairwise Apart
  beside : ∀ old ∈ before, ∀ file ∈ files, Beside old file
  count : Indexable (merged before files)

/-- The rows that a build starts from: the files before it are behind their links, and everything else is to
be built. -/
structure Begun (p : BuildPlatform) (limits : BuildLimits) (before : List LogicalFile) (nodes : Nodes)
    (s : WriterState) : Prop where
  indexed : Indexed before nodes
  routed : Routed before
  waiting : Waiting [] nodes
  filed : ∀ file ∈ before, FileBuilt p s nodes file
  stocked : Stocked p.toPlatform limits.toWriterLimits s

theorem fileRows_ready {todo : List LogicalFile} (h : Waiting todo nodes) :
    FileRows nodes (fileRows nodes) :=
  ⟨fun row hrow => has_iff.mpr ⟨row, (mem_fileRows.mp hrow).1, rfl⟩,
    fun row hrow file hfile => (h.only row (mem_fileRows.mp hrow).1 file hfile).2, fileRows_different nodes⟩

theorem directoryRows_ready (hfiles : Routed files) (h : Indexed files nodes) :
    DirectoryOrder files nodes (directoryRows nodes) := by
  refine ⟨fun row hrow => has_iff.mpr ⟨row, (mem_directoryRows.mp hrow).1, rfl⟩, fun row hrow => ?_,
    (directoryRows_different nodes).and (directoryRows_deeper nodes)⟩
  obtain ⟨hmem, hdirectory, -⟩ := mem_directoryRows.mp hrow
  obtain ⟨parts, hat⟩ := h.at hfiles hmem
  rcases hat.kind with ⟨hisFile, -⟩ | ⟨-, hway⟩
  · exact absurd hisFile hdirectory
  · exact ⟨parts, hway, hat.path, hat.depth⟩

theorem onWay_ne (hfiles : Routed files) {file : LogicalFile} (hfile : file ∈ files)
    (hway : OnWay files parts) : joinPath parts ≠ file.route := by
  intro heq
  have hsame := joinPath_inj hway.segments (fun _ => isSegment_of_mem)
    (heq.trans (hfiles.canonical file hfile))
  obtain ⟨other, hother, hbegins, hproper⟩ := hway
  rw [hsame] at hbegins hproper
  exact hproper (hfiles.eq_of_prefix hfile hother hbegins)

theorem Addable.routed {before : List LogicalFile} (h : Addable before files) (hbefore : Routed before)
    (hchecked : ∀ file ∈ files, segmentsOf file.route ≠ [] ∧
      ∀ part ∈ segmentsOf file.route, unsafeName part = false) : Routed (merged before files) := by
  refine ⟨fun file hfile => ?_, ?_, fun file hfile => ?_, fun file hfile => ?_⟩
  · rcases mem_merged.mp hfile with ⟨hold, -⟩ | hfile
    · exact hbefore.canonical file hold
    · exact h.canonical file hfile
  · refine List.pairwise_append.mpr ⟨hbefore.apart.filter _, h.apart, fun old hold file hfile => ?_⟩
    obtain ⟨hold, hroutes⟩ := List.mem_filter.mp hold
    exact (h.beside old hold file hfile).resolve_left (by simpa using of_decide_eq_true hroutes file hfile)
  · rcases mem_merged.mp hfile with ⟨hold, -⟩ | hfile
    · exact hbefore.filled file hold
    · exact (hchecked file hfile).1
  · rcases mem_merged.mp hfile with ⟨hold, -⟩ | hfile
    · exact hbefore.safe file hold
    · exact (hchecked file hfile).2

theorem directory_unbuilt {todo : List LogicalFile} {filed : Nodes} (hfiles : Routed files)
    (hindexed : Indexed files nodes) (hwaiting : Waiting todo nodes)
    (hframe : ∀ path, (∀ row ∈ fileRows nodes, row.path ≠ path) → builtAt filed path = builtAt nodes path)
    (hway : OnWay files parts) : builtAt filed (joinPath parts) = none := by
  rw [hframe]
  · obtain ⟨row, hrow, hbare⟩ := hindexed.directory parts hway
    have hpath : row.path = joinPath parts := congrArg NodeRow.path hbare
    rw [builtAt, ← hpath, find?_key hrow, Option.bind_some]
    exact hwaiting.unbuilt row hrow (congrArg NodeRow.isFile hbare)
  · intro other hother heq
    obtain ⟨hmem, hisFile, -⟩ := mem_fileRows.mp hother
    obtain ⟨others, hat⟩ := hindexed.at hfiles hmem
    rcases hat.kind with ⟨-, file, hfile, hothers⟩ | ⟨hdirectory, -⟩
    · refine onWay_ne hfiles hfile hway (heq.symm.trans ?_)
      rw [hat.path, hothers]
      exact (hfiles.canonical file hfile).symm
    · rw [hdirectory] at hisFile
      cases hisFile

/-- When the loops come to their end, all files and all directories have been built, and a file from before
that none of the files replaces has kept its link. -/
theorem Begun.complete {before : List LogicalFile} {inserted filed : Nodes}
    (h : Begun p limits before nodes s) (hadd : Addable before files) (hlimit : 2 ≤ limits.maxLinks)
    (hdigest : ∀ bytes, (p.digest bytes).length = 32)
    (hinsert : insertFiles limits 0 none files nodes = .ok inserted)
    (hfiled : buildFiles p limits (fileRows inserted) inserted s = .ok filed u)
    (hfinished : buildDirectories p limits (directoryRows filed) filed u = .ok result t) :
    Complete p limits (merged before files) result t ∧ Routed (merged before files) ∧ Grows s t ∧
      ∀ old ∈ before, (∀ file ∈ files, old.route ≠ file.route) →
        builtAt result old.route = builtAt nodes old.route := by
  obtain ⟨hindexed, hchecked⟩ := insertFiles_indexed h.indexed h.routed.canonical hadd.canonical hadd.apart
    hadd.beside hinsert
  rw [foldl_putFile hadd.apart] at hindexed
  have hwaiting := insertFiles_waiting h.waiting (by simp) hadd.apart hinsert
  rw [List.nil_append] at hwaiting
  have hfiles := hadd.routed h.routed hchecked
  have hsane : Sane p limits (merged before files) inserted s :=
    ⟨hindexed, hwaiting.hashed, h.stocked, (hindexed.length_le hfiles).trans hadd.count⟩
  obtain ⟨hsaneFiled, hgrowsFiled, hfilesBuilt, hframeFiled⟩ :=
    buildFiles_ok hlimit hdigest hsane (fileRows_ready hwaiting) hfiled
  obtain ⟨hsaneFinal, hgrows, hdirectories, hframe⟩ := buildDirectories_ok hfiles hlimit hdigest hsaneFiled
    (directoryRows_ready hfiles hsaneFiled.indexed) hfinished
  have hlast : ∀ file ∈ merged before files, builtAt result file.route = builtAt filed file.route := by
    intro file hfile
    refine hframe _ fun other hother => ?_
    obtain ⟨others, hway, hpath, -⟩ := (directoryRows_ready hfiles hsaneFiled.indexed).ways other hother
    exact hpath ▸ onWay_ne hfiles hfile hway
  have hkept : ∀ old ∈ before, (∀ file ∈ files, old.route ≠ file.route) →
      builtAt result old.route = builtAt nodes old.route := by
    intro old hold hroutes
    rw [hlast old (mem_merged.mpr (Or.inl ⟨hold, hroutes⟩)), hframeFiled, insertFiles_frame hinsert hroutes]
    intro row hrow heq
    obtain ⟨hmem, -, hsource⟩ := mem_fileRows.mp hrow
    obtain ⟨file, hfile⟩ := Option.isSome_iff_exists.mp hsource
    obtain ⟨hnew, hroute⟩ := hwaiting.only row hmem file hfile
    exact hroutes file hnew (heq.symm.trans hroute.symm)
  refine ⟨⟨hsaneFinal, fun file hfile => ?_, fun parts hway => ?_⟩, hfiles, hgrowsFiled.trans hgrows, hkept⟩
  · rcases mem_merged.mp hfile with ⟨hold, hroutes⟩ | hnew
    · exact (h.filed file hold).mono (hgrowsFiled.trans hgrows) (hkept file hold hroutes)
    · obtain ⟨row, hrow, -, hisFile, hsource⟩ := hwaiting.file file hnew
      have hbuilt := hfilesBuilt row (mem_fileRows.mpr ⟨hrow, hisFile, by rw [hsource]; rfl⟩) file hsource
      exact hbuilt.mono hgrows (hlast file hfile)
  · obtain ⟨row, hrow, hbare⟩ := hsaneFiled.indexed.directory parts hway
    have hpath : row.path = joinPath parts := congrArg NodeRow.path hbare
    have hunbuilt := directory_unbuilt hfiles hindexed hwaiting hframeFiled hway
    rw [builtAt, ← hpath, find?_key hrow, Option.bind_some] at hunbuilt
    have hdirectory : ¬row.isFile = true := by
      rw [show row.isFile = false from congrArg NodeRow.isFile hbare]
      exact Bool.false_ne_true
    exact hdirectories row (mem_directoryRows.mpr ⟨hrow, hdirectory, by rw [hunbuilt]; rfl⟩) parts hway hpath

theorem build_complete {before : List LogicalFile} {base : Option Base} {root : BuiltLink}
    (hadd : Addable before files) (hlimit : 2 ≤ limits.maxLinks)
    (hdigest : ∀ bytes, (p.digest bytes).length = 32) (h : build p limits files base s = .ok root t)
    (hstart : startNodes p limits base s = .ok nodes u) (hbegun : Begun p limits before nodes u) :
    ∃ result, Complete p limits (merged before files) result t ∧ builtAt result "" = some root ∧
      Routed (merged before files) ∧ Grows u t ∧
      ∀ old ∈ before, (∀ file ∈ files, old.route ≠ file.route) →
        builtAt result old.route = builtAt nodes old.route := by
  obtain ⟨start, v, hfound, hbuild⟩ := bind_ok.mp h
  obtain ⟨rfl, rfl⟩ := EStateM.Result.ok.inj (hfound.symm.trans hstart)
  obtain ⟨inserted, v, hlift, hloops⟩ := bind_ok.mp hbuild
  obtain ⟨hinsert, rfl⟩ := liftError_ok hlift
  obtain ⟨filed, v, hfiled, hrest⟩ := bind_ok.mp hloops
  obtain ⟨finished, w, hfinished, hroot⟩ := bind_ok.mp hrest
  obtain ⟨hcomplete, hfiles, hgrows, hkept⟩ :=
    hbegun.complete hadd hlimit hdigest hinsert hfiled hfinished
  have hrootAt : builtAt finished "" = some root ∧ t = w := by
    rw [builtAt]
    cases hfound : (finished.find? "").bind NodeRow.built with
    | none =>
      rw [hfound] at hroot
      cases hroot
    | some found =>
      rw [hfound] at hroot
      obtain ⟨rfl, rfl⟩ := EStateM.Result.ok.inj hroot
      exact ⟨rfl, rfl⟩
  obtain ⟨hrootAt, rfl⟩ := hrootAt
  exact ⟨finished, hcomplete, hrootAt, hfiles, hgrows, hkept⟩

theorem begun_empty (s : WriterState) (h : Stocked p.toPlatform limits.toWriterLimits s) :
    Begun p limits [] Table.empty s :=
  ⟨indexed_empty, ⟨by simp, .nil, by simp, by simp⟩, waiting_empty, by simp, h⟩

end Builds

end NixstrCache.Hashtree.Writer
