import NixstrCache.Hashtree.BuiltReading

/-!
The base of a build.

The blobs of an earlier build are registered, and its manifests are read again.  Every path below its root
gets a row: a file with the link that it has, and a directory without one, for it is to be built again.
-/

namespace NixstrCache.Hashtree.Writer

open Protocol Programs KeyedTable KeyedTable.Table
open Persistence (Bytes)

section Registering

variable {p : BuildPlatform} {limits : WriterLimits} {s t : WriterState} {u : PUnit}
variable {blobs : List Bytes} {bytes : Bytes}

structure Carries (p : Platform) (s t : WriterState) : Prop where
  inventory : ∀ blob ∈ s.inventory, ∃ other ∈ t.inventory, p.digest other = p.digest blob
  written : s.written = t.written

theorem Leads.carried {q : Platform} {hash : List UInt8} {size : ℕ} {type : LinkType}
    (h : Leads q s bytes hash size type) (hcarries : Carries q s t) : Leads q t bytes hash size type := by
  cases h with
  | direct stored =>
    obtain ⟨blob, hblob, hdigest⟩ := stored
    obtain ⟨other, hother, hsame⟩ := hcarries.inventory blob hblob
    exact .direct ⟨other, hother, hsame.trans hdigest⟩
  | tree chunks built hflatten hentries hroot hstored =>
    refine .tree chunks built hflatten hentries (hcarries.written ▸ hroot) fun chunk hchunk => ?_
    obtain ⟨blob, hblob, hdigest⟩ := hstored chunk hchunk
    obtain ⟨other, hother, hsame⟩ := hcarries.inventory blob hblob
    exact ⟨other, hother, hsame.trans hdigest⟩

theorem Stocked.carried {q : Platform} (h : Stocked q limits s) (hcarries : Carries q s t) :
    Stocked q limits t := by
  obtain ⟨hstored, hplaced⟩ := h
  rw [hcarries.written] at hstored hplaced
  refine ⟨fun manifest hmem => ?_, hplaced⟩
  obtain ⟨wire, hwire, blob, hblob, hdigest⟩ := hstored manifest hmem
  obtain ⟨other, hother, hsame⟩ := hcarries.inventory blob hblob
  exact ⟨wire, hwire, other, hother, hsame.trans hdigest⟩

theorem register_put (h : (blobs.forM fun blob => discard (registerCandidate p limits blob)) s = .ok u t) :
    Put p.toPlatform blobs s t := by
  induction blobs generalizing s with
  | nil =>
    obtain ⟨-, rfl⟩ := EStateM.Result.ok.inj h
    exact ⟨List.Subset.refl _, rfl, by simp⟩
  | cons blob blobs ih =>
    obtain ⟨_, v, hfirst, hrest⟩ := bind_ok.mp h
    obtain ⟨hash, w, hregister, hpure⟩ := bind_ok.mp hfirst
    obtain ⟨-, rfl⟩ := EStateM.Result.ok.inj hpure
    obtain ⟨-, hinventory, hwritten, hstored⟩ := persist_put hregister
    exact Put.cons ⟨hinventory, hwritten, hstored⟩ (ih hrest)

end Registering

section Adding

variable {row : List String → NodeRow} {P Q : List String → Prop} {nodes mid result : Nodes}

structure Adds (row : List String → NodeRow) (P : List String → Prop) (nodes result : Nodes) : Prop where
  kept : nodes.rows ⊆ result.rows
  added : ∀ parts, P parts → row parts ∈ result.rows
  only : ∀ r ∈ result.rows, r ∈ nodes.rows ∨ ∃ parts, P parts ∧ r = row parts

theorem Adds.congr (h : Adds row P nodes result) (hiff : ∀ parts, Q parts ↔ P parts) :
    Adds row Q nodes result := by
  obtain rfl : Q = P := funext fun parts => propext (hiff parts)
  exact h

theorem Adds.trans (h : Adds row P nodes mid) (h' : Adds row Q mid result) :
    Adds row (fun parts => P parts ∨ Q parts) nodes result := by
  refine ⟨List.Subset.trans h.kept h'.kept, fun parts hparts => ?_, fun r hr => ?_⟩
  · rcases hparts with hP | hQ
    · exact h'.kept (h.added parts hP)
    · exact h'.added parts hQ
  · rcases h'.only r hr with hmid | ⟨parts, hQ, rfl⟩
    · rcases h.only r hmid with hold | ⟨parts, hP, rfl⟩
      · exact Or.inl hold
      · exact Or.inr ⟨parts, Or.inl hP, rfl⟩
    · exact Or.inr ⟨parts, Or.inr hQ, rfl⟩

theorem adds_insert {r : NodeRow} {parts : List String} (hr : r = row parts)
    (h : nodes.insert? r = some result) : Adds row (fun other => other = parts) nodes result := by
  have hrows := (insert?_eq_some.mp h).2
  refine ⟨by rw [hrows]; exact List.subset_append_left _ _, ?_, fun other hother => ?_⟩
  · rintro _ rfl
    rw [hrows, ← hr]
    simp
  · rw [hrows] at hother
    rcases List.mem_append.mp hother with hold | hnew
    · exact Or.inl hold
    · exact Or.inr ⟨parts, rfl, (List.mem_singleton.mp hnew).trans hr⟩

end Adding

section Importing

variable {p : BuildPlatform} {limits : BuildLimits} {readLimits : ManifestLimits}
variable {files : List LogicalFile} {nodes old result : Nodes} {s : WriterState} {root built : BuiltLink}
variable {base : Base} {parts dir : List String} {name : String} {entries : List ManifestLink}

def importedRow (old : Nodes) (parts : List String) : NodeRow :=
  let built := (builtAt old (joinPath parts)).filter fun built => isTree built.type = false
  ⟨joinPath parts, joinPath parts.dropLast, parts.getLast?.getD "", parts.length, built.isSome, none, built⟩

/-- The path starts below the directory with one of the entries, and goes on to a file. -/
def BelowEntries (files : List LogicalFile) (dir : List String) (entries : List ManifestLink)
    (parts : List String) : Prop :=
  ∃ entry ∈ entries, ∃ name, entry.name = some name ∧ dir ++ [name] <+: parts ∧
    ∃ file ∈ files, parts <+: segmentsOf file.route

theorem joinPath_concat (hdir : ∀ part ∈ dir, IsSegment part) :
    joinPath (dir ++ [name]) = if joinPath dir = "" then name else joinPath dir ++ "/" ++ name := by
  rcases List.eq_nil_or_concat dir with rfl | ⟨front, last, rfl⟩
  · simp [joinPath]
  · rw [List.concat_eq_append] at *
    have hfilled : joinPath (front ++ [last]) ≠ "" := by
      intro hempty
      have hparts := segmentsOf_joinPath hdir
      rw [hempty] at hparts
      simp [segmentsOf] at hparts
    rw [if_neg hfilled]
    apply String.toList_inj.mp
    simp only [joinPath, String.toList_append, String.toList_ofList, List.map_append, List.map_cons,
      List.map_nil, Texts.intercalate_concat, List.flatMap_append, List.flatMap_singleton]
    simp

theorem loadManifest_written (hdigest : ∀ bytes, (p.digest bytes).length = 32)
    (hs : Stocked p.toPlatform limits.toWriterLimits s)
    (hread : Readable p.toPlatform limits.toWriterLimits readLimits s) (hbase : base.inventory = s.inventory)
    {manifest found : Manifest} {wire : Bytes} (hmem : manifest ∈ s.written)
    (hwire : encodeManifest p.lib manifest = .ok wire)
    (h : loadManifest p limits base (p.digest wire) = .ok found) : found = manifest := by
  rw [loadManifest, hbase, hs.found hread hmem hwire] at h
  simp only at h
  cases hdecoded : decodeManifest p.lib wire
      ⟨limits.maxInventoryBytes, limits.maxInventoryBytes, limits.maxLinks⟩ with
  | error e =>
    rw [hdecoded] at h
    cases h
  | ok decoded =>
    rw [hdecoded] at h
    obtain rfl := Except.ok.inj h
    exact decodeManifest_agree p.lib hdecoded (hs.decoded hdigest hread hmem hwire)

/-- The entries of a directory are the links to what has been built below it. -/
def Children (old : Nodes) (dir : List String) (entries : List ManifestLink) : Prop :=
  ∀ entry ∈ entries, ∃ name child, IsSegment name ∧ builtAt old (joinPath (dir ++ [name])) = some child ∧
    entry = nameLink name child

theorem belowEntries_append {others : List ManifestLink} :
    BelowEntries files dir (entries ++ others) parts ↔
      BelowEntries files dir entries parts ∨ BelowEntries files dir others parts := by
  simp only [BelowEntries, List.mem_append, or_and_right, exists_or]

theorem foldlM_adds {step : Nodes → ManifestLink → Except WriterError Nodes} {row : List String → NodeRow}
    {links : List ManifestLink} {parts : List (List ManifestLink)}
    (h : List.Forall₂ (fun link part => ∀ nodes result, step nodes link = .ok result →
      Adds row (BelowEntries files dir part) nodes result) links parts)
    (hfold : links.foldlM step nodes = .ok result) :
    Adds row (BelowEntries files dir parts.flatten) nodes result := by
  induction h generalizing nodes with
  | nil =>
    cases hfold
    refine ⟨List.Subset.refl _, ?_, fun r hr => Or.inl hr⟩
    rintro parts ⟨entry, hentry, -⟩
    cases hentry
  | cons hlink _ ih =>
    rw [List.foldlM_cons] at hfold
    obtain ⟨mid, hstep, hrest⟩ := bind_eq_ok.mp hfold
    refine ((hlink nodes mid hstep).trans (ih hrest)).congr fun parts => ?_
    rw [List.flatten_cons]
    exact belowEntries_append

def BelowDirectory (files : List LogicalFile) (dir parts : List String) : Prop :=
  dir <+: parts ∧ parts ≠ dir ∧ ∃ file ∈ files, parts <+: segmentsOf file.route

theorem Complete.manifest (h : Complete p limits files old s) (hway : OnWay files dir)
    (hbuilt : builtAt old (joinPath dir) = some built) :
    ∃ manifest ∈ s.written, ∃ wire level parts, encodeManifest p.lib manifest = .ok wire ∧
      built.hash = p.digest wire ∧ manifest.type = manifestKind .directory level ∧
      Level p.toPlatform .directory parts.flatten s.written level manifest.links parts ∧
      Children old dir parts.flatten ∧ ∀ name, IsSegment name → entryNamed parts.flatten name =
        (builtAt old (joinPath (dir ++ [name]))).map (nameLink name) := by
  obtain ⟨entries, found, hfound, hentries, hroot, -, hnamed⟩ := h.directories dir hway
  obtain rfl := Option.some.inj (hbuilt.symm.trans hfound)
  obtain ⟨manifest, hmem, wire, level, parts, hwire, hhash, htype, -, hholds, rfl⟩ := hroot.manifest
  refine ⟨manifest, hmem, wire, level, parts, hwire, hhash, htype, ⟨hentries, hholds, List.infix_rfl⟩, ?_,
    hnamed⟩
  intro entry hentry
  obtain ⟨name, hname, hsafe⟩ := hentries.named rfl entry hentry
  have hsegment := IsSegment.of_safe hsafe
  obtain ⟨child, hchild, heq⟩ :=
    Option.map_eq_some_iff.mp ((hnamed name hsegment).symm.trans (hentries.entryNamed hentry hname))
  exact ⟨name, child, hsegment, hchild, heq.symm⟩

theorem Complete.below (h : Complete p limits files old s) (hfiles : Routed files) (hway : OnWay files dir)
    (hnamed : ∀ name, IsSegment name → entryNamed entries name =
      (builtAt old (joinPath (dir ++ [name]))).map (nameLink name)) :
    BelowDirectory files dir parts ↔ BelowEntries files dir entries parts := by
  constructor
  · rintro ⟨⟨rest, rfl⟩, hlonger, file, hfile, hbegins⟩
    cases rest with
    | nil => exact absurd (List.append_nil dir) hlonger
    | cons name rest =>
      have hshort : dir ++ [name] <+: dir ++ name :: rest := ⟨rest, by simp⟩
      have hsegments : ∀ part ∈ dir ++ [name], IsSegment part := fun part hpart =>
        isSegment_of_mem ((hshort.trans hbegins).subset hpart)
      have hsome := (h.builtAt_isSome hfiles hsegments).mpr ⟨file, hfile, hshort.trans hbegins⟩
      obtain ⟨child, hchild⟩ := Option.isSome_iff_exists.mp hsome
      have hfound := hnamed name (hsegments name (by simp))
      rw [hchild] at hfound
      exact ⟨nameLink name child, (entryNamed_eq_some hfound).1, name, rfl, hshort, file, hfile, hbegins⟩
  · rintro ⟨-, -, name, -, hbegins, hfile⟩
    refine ⟨(List.prefix_append dir [name]).trans hbegins, ?_, hfile⟩
    rintro rfl
    have hlength := hbegins.length_le
    simp at hlength

theorem Complete.below_entry (h : Complete p limits files old s) (hfiles : Routed files)
    (hsegments : ∀ part ∈ dir ++ [name], IsSegment part)
    (hchild : builtAt old (joinPath (dir ++ [name])) = some built) :
    BelowEntries files dir [nameLink name built] parts ↔
      parts = dir ++ [name] ∨ isTree built.type = true ∧ BelowDirectory files (dir ++ [name]) parts := by
  have hsome := (h.builtAt_isSome hfiles hsegments).mp (by rw [hchild]; rfl)
  have hleads := h.leadsTo hfiles hsegments hchild
  constructor
  · rintro ⟨entry, hentry, other, hname, hbegins, hfile⟩
    obtain rfl := List.mem_singleton.mp hentry
    obtain rfl : name = other := Option.some.inj hname
    by_cases hsame : parts = dir ++ [name]
    · exact Or.inl hsame
    · rcases hleads with ⟨-, file, hfile', hroute, -⟩ | ⟨htree, -⟩
      · -- No path goes on where a file ends.
        obtain ⟨other, hother, hroutes⟩ := hfile
        have heq := hfiles.eq_of_prefix hfile' hother (hroute ▸ hbegins.trans hroutes)
        rw [← heq, hroute] at hroutes
        exact absurd (hbegins.eq_of_length_le hroutes.length_le).symm hsame
      · exact Or.inr ⟨htree, hbegins, hsame, hfile⟩
  · rintro (rfl | ⟨-, hbegins, -, hfile⟩)
    · exact ⟨_, List.mem_singleton_self _, name, rfl, List.prefix_rfl, hsome⟩
    · exact ⟨_, List.mem_singleton_self _, name, rfl, hbegins, hfile⟩

def Visits (files : List LogicalFile) (old : Nodes)
    (visit : List UInt8 → LinkType → String → ℕ → Nodes → Except WriterError Nodes) : Prop :=
  ∀ dir built nodes result, OnWay files dir → builtAt old (joinPath dir) = some built →
    visit built.hash built.type (joinPath dir) (dir.length + 1) nodes = .ok result →
    Adds (importedRow old) (BelowDirectory files dir) nodes result

theorem Complete.importEntry (h : Complete p limits files old s) (hfiles : Routed files)
    {visit : List UInt8 → LinkType → String → ℕ → Nodes → Except WriterError Nodes}
    (hvisit : Visits files old visit) (hway : OnWay files dir) (hname : IsSegment name)
    (hchild : builtAt old (joinPath (dir ++ [name])) = some built)
    (himport : importLink visit .directory (joinPath dir) (dir.length + 1) (nameLink name built) nodes =
      .ok result) : Adds (importedRow old) (BelowEntries files dir [nameLink name built]) nodes result := by
  have hsegments : ∀ part ∈ dir ++ [name], IsSegment part := by
    simpa [or_imp, forall_and] using ⟨hway.segments, hname⟩
  have hleads := h.leadsTo hfiles hsegments hchild
  rw [importLink, if_neg (by decide)] at himport
  simp only [nameLink, Option.getD_some, hname.1, if_false, ← joinPath_concat hway.segments] at himport
  split at himport
  · cases himport
  · next mid hinsert =>
    have hfirst : Adds (importedRow old) (fun other => other = dir ++ [name]) nodes mid := by
      refine adds_insert ?_ hinsert
      by_cases htree : isTree built.type = true <;> simp [importedRow, hchild, htree, Option.filter]
    by_cases htree : isTree built.type = true
    · simp only [htree, if_true] at himport
      have hwayBelow : OnWay files (dir ++ [name]) := by
        rcases hleads with ⟨hleaf, -⟩ | ⟨-, hwayBelow⟩
        · exact absurd (hleaf.symm.trans htree) Bool.false_ne_true
        · exact hwayBelow
      have hrest := hvisit (dir ++ [name]) built mid result hwayBelow hchild
        (by simpa using himport)
      refine (hfirst.trans hrest).congr fun parts => ?_
      rw [h.below_entry hfiles hsegments hchild, and_iff_right htree]
    · simp only [htree, Bool.false_eq_true, if_false] at himport
      obtain rfl := Except.ok.inj himport
      refine hfirst.congr fun parts => ?_
      rw [h.below_entry hfiles hsegments hchild]
      simp [htree]

section Reading

variable (h : Complete p limits files old s) (hfiles : Routed files)
variable (hdigest : ∀ bytes, (p.digest bytes).length = 32)
variable (hread : Readable p.toPlatform limits.toWriterLimits readLimits s)
variable (hbase : base.inventory = s.inventory)
include h hfiles hdigest hread hbase

/-- The import of a manifest adds what lies below its entries.  The manifests of a directory all have the
same path; the induction is on the bound of the recursion, for all of them and for all directories. -/
theorem Complete.importDirectory_adds {fuel level : ℕ} {manifest : Manifest} {wire : Bytes}
    {type : LinkType} {parts : List (List ManifestLink)} (hway : OnWay files dir)
    (hmem : manifest ∈ s.written) (hwire : encodeManifest p.lib manifest = .ok wire)
    (htype : manifest.type = manifestKind .directory level)
    (hlevel : Level p.toPlatform .directory entries s.written level manifest.links parts)
    (hchildren : Children old dir parts.flatten)
    (himport : importDirectory p limits base fuel (p.digest wire) type (joinPath dir) (dir.length + 1) nodes =
      .ok result) : Adds (importedRow old) (BelowEntries files dir parts.flatten) nodes result := by
  induction fuel generalizing dir entries level manifest wire type parts nodes result with
  | zero => cases himport
  | succ fuel ih =>
    rw [importDirectory] at himport
    cases hload : loadManifest p limits base (p.digest wire) with
    | error e =>
      rw [hload] at himport
      cases himport
    | ok found =>
      obtain rfl := loadManifest_written hdigest h.sane.stocked hread hbase hmem hwire hload
      simp only [hload] at himport
      split_ifs at himport with hmatches
      have hvisit : Visits files old (importDirectory p limits base fuel) := by
        intro dir built nodes result hway hbuilt hvisited
        obtain ⟨manifest, hmem, wire, level, parts, hwire, hhash, htype, hlevel, hchildren, hnamed⟩ :=
          h.manifest hway hbuilt
        rw [hhash] at hvisited
        exact (ih hway hmem hwire htype hlevel hchildren hvisited).congr fun parts =>
          h.below hfiles hway hnamed
      refine foldlM_adds ?_ himport
      refine (forall₂_mem hlevel.holds).imp fun link part hlink nodes result hstep => ?_
      obtain ⟨⟨-, hpart⟩, hholds⟩ := hlink
      cases level with
      | zero =>
        obtain rfl : part = [link] := hholds
        obtain ⟨name, child, hname, hchild, rfl⟩ := hchildren link (List.mem_flatten.mpr ⟨_, hpart, by simp⟩)
        rw [show found.type = .directory from htype] at hstep
        exact h.importEntry hfiles hvisit hway hname hchild hstep
      | succ level =>
        obtain ⟨child, hchild, childWire, below, hchildWire, hhash, hchildType, hbelow, rfl, hrepresents⟩ :=
          hholds
        have hwhole := (List.infix_of_mem_flatten hpart).trans hlevel.whole
        rw [importLink, if_pos (show found.type = .fanout from htype), hhash] at hstep
        split_ifs at hstep with htree
        refine ih hway hchild hchildWire hchildType ⟨hlevel.lawful, hbelow, hwhole⟩ ?_ hstep
        exact fun entry hentry => hchildren entry (List.mem_flatten.mpr ⟨_, hpart, hentry⟩)

theorem Complete.importBase_adds (hroot : builtAt old "" = some root) (hhash : base.rootHash = root.hash)
    (himport : importBase p limits base = .ok result) :
    Adds (importedRow old) (BelowDirectory files []) (Table.empty.insertOrReplace (directoryRow [])) result := by
  have hway := h.root_onWay hfiles hroot
  obtain ⟨manifest, hmem, wire, level, parts, hwire, hroot', htype, hlevel, hchildren, hnamed⟩ :=
    h.manifest hway hroot
  rw [importBase, hhash, hroot'] at himport
  exact (h.importDirectory_adds hfiles hdigest hread hbase hway hmem hwire htype hlevel hchildren
    himport).congr fun parts => h.below hfiles hway hnamed

end Reading

section Starting

variable {start : Nodes} {row : NodeRow} {u : WriterState}

theorem Adds.row_at (hadds : Adds (importedRow old) (BelowDirectory files [])
      (Table.empty.insertOrReplace (directoryRow [])) start)
    (hfile : ∃ file ∈ files, parts <+: segmentsOf file.route) :
    ∃ row ∈ start.rows, row = if parts = [] then directoryRow [] else importedRow old parts := by
  by_cases hnil : parts = []
  · rw [if_pos hnil]
    exact ⟨_, hadds.kept (mem_insertOrReplace.mpr (Or.inr rfl)), rfl⟩
  · rw [if_neg hnil]
    exact ⟨_, hadds.added parts ⟨List.nil_prefix, hnil, hfile⟩, rfl⟩

theorem Adds.only_row (hadds : Adds (importedRow old) (BelowDirectory files [])
      (Table.empty.insertOrReplace (directoryRow [])) start) (hrow : row ∈ start.rows) :
    row = directoryRow [] ∨ ∃ parts, parts ≠ [] ∧ (∃ file ∈ files, parts <+: segmentsOf file.route) ∧
      row = importedRow old parts := by
  rcases hadds.only row hrow with hfirst | ⟨parts, ⟨-, hfilled, hfile⟩, rfl⟩
  · refine Or.inl ?_
    simpa using mem_insertOrReplace.mp hfirst
  · exact Or.inr ⟨parts, hfilled, hfile, rfl⟩

theorem bare_imported_file (hfiles : Routed files) {file : LogicalFile} (hfile : file ∈ files)
    (hbuilt : builtAt old file.route = some built) (hleaf : isTree built.type = false) :
    (importedRow old (segmentsOf file.route)).bare = (fileRow file).bare := by
  have hcanonical : file.route = joinPath (segmentsOf file.route) := hfiles.canonical file hfile
  rw [hcanonical] at hbuilt
  simp only [NodeRow.bare, importedRow, fileRow, hbuilt, Option.filter_some, hleaf, decide_true, if_true,
    Option.isSome_some]
  rw [← hcanonical]

theorem imported_directory (hbuilt : builtAt old (joinPath parts) = some built)
    (htree : isTree built.type = true) : importedRow old parts = directoryRow parts := by
  simp [importedRow, directoryRow, hbuilt, htree]

theorem Complete.begun (h : Complete p limits files old s) (hfiles : Routed files)
    (hadds : Adds (importedRow old) (BelowDirectory files [])
      (Table.empty.insertOrReplace (directoryRow [])) start)
    (hway : OnWay files []) (hcarries : Carries p.toPlatform s u) :
    Begun p limits files start u ∧ ∀ file ∈ files, builtAt start file.route = builtAt old file.route := by
  have hrows : ∀ file ∈ files, importedRow old (segmentsOf file.route) ∈ start.rows := by
    intro file hfile
    obtain ⟨row, hrow, heq⟩ := hadds.row_at ⟨file, hfile, List.prefix_rfl⟩
    rwa [heq, if_neg (hfiles.filled file hfile)] at hrow
  have hleaf : ∀ file ∈ files, ∃ built, builtAt old file.route = some built ∧ isTree built.type = false := by
    intro file hfile
    obtain ⟨built, bytes, hbuilt, -, -, hleads, -⟩ := h.filed file hfile
    refine ⟨built, hbuilt, ?_⟩
    generalize built.hash = hash, built.size = size, built.type = type at hleads
    cases hleads <;> rfl
  have htree : ∀ parts, OnWay files parts → ∃ built, builtAt old (joinPath parts) = some built ∧
      isTree built.type = true := by
    intro parts hway
    obtain ⟨-, built, hbuilt, -⟩ := h.directories parts hway
    rcases h.leadsTo hfiles hway.segments hbuilt with ⟨-, file, hfile, hroute, -⟩ | ⟨htree, -⟩
    · exact absurd (hroute ▸ (hfiles.canonical file hfile).symm) (onWay_ne hfiles hfile hway)
    · exact ⟨_, hbuilt, htree⟩
  have hlinks : ∀ file ∈ files, builtAt start file.route = builtAt old file.route := by
    intro file hfile
    obtain ⟨built, hbuilt, hleafBuilt⟩ := hleaf file hfile
    have hpath : (importedRow old (segmentsOf file.route)).path = file.route :=
      (hfiles.canonical file hfile).symm
    rw [builtAt, ← hpath, find?_key (hrows file hfile), Option.bind_some, hpath, hbuilt, importedRow,
      ← hfiles.canonical file hfile, hbuilt, Option.filter_some, hleafBuilt]
    rfl
  refine ⟨⟨⟨fun file hfile => ?_, fun parts hparts => ?_, fun row hrow => ?_⟩, hfiles,
    ⟨by simp, fun row hrow => ?_, fun row hrow => ?_, fun row hrow => ?_⟩, fun file hfile => ?_,
    h.sane.stocked.carried hcarries⟩, hlinks⟩
  · obtain ⟨built, hbuilt, hleafBuilt⟩ := hleaf file hfile
    exact ⟨_, hrows file hfile, bare_imported_file hfiles hfile hbuilt hleafBuilt⟩
  · obtain ⟨built, hbuilt, htreeBuilt⟩ := htree parts hparts
    obtain ⟨file, hfile, hbegins, -⟩ := hparts
    obtain ⟨row, hrow, heq⟩ := hadds.row_at ⟨file, hfile, hbegins⟩
    refine ⟨row, hrow, ?_⟩
    rw [heq, imported_directory hbuilt htreeBuilt]
    split_ifs with hnil
    · rw [hnil, directoryRow_bare]
    · exact directoryRow_bare parts
  · rcases hadds.only_row hrow with rfl | ⟨parts, -, ⟨file, hfile, hbegins⟩, rfl⟩
    · exact Or.inr ⟨[], hway, rfl⟩
    · by_cases hproper : parts = segmentsOf file.route
      · obtain ⟨built, hbuilt, hleafBuilt⟩ := hleaf file hfile
        exact Or.inl ⟨file, hfile, hproper ▸ bare_imported_file hfiles hfile hbuilt hleafBuilt⟩
      · have hparts : OnWay files parts := ⟨file, hfile, hbegins, hproper⟩
        obtain ⟨built, hbuilt, htreeBuilt⟩ := htree parts hparts
        exact Or.inr ⟨parts, hparts, by rw [imported_directory hbuilt htreeBuilt, directoryRow_bare]⟩
  · intro file hfile
    rcases hadds.only_row hrow with rfl | ⟨parts, -, -, rfl⟩
    · cases hfile
    · cases hfile
  · rcases hadds.only_row hrow with rfl | ⟨parts, -, -, rfl⟩
    · exact fun _ => rfl
    · intro hdirectory
      exact Option.not_isSome_iff_eq_none.mp (by simpa [importedRow] using hdirectory)
  · intro built hbuilt
    rcases hadds.only_row hrow with rfl | ⟨parts, -, -, rfl⟩
    · cases hbuilt
    · obtain ⟨found, hfound, hfoundBuilt⟩ :=
        Option.bind_eq_some_iff.mp (Option.mem_filter_iff.mp hbuilt).1
      exact h.sane.hashed found (find?_eq_some.mp hfound).1 built hfoundBuilt
  · obtain ⟨built, bytes, hbuilt, hcontains, hlength, hleads, hsize⟩ := h.filed file hfile
    exact ⟨built, bytes, (hlinks file hfile).trans hbuilt, hcontains, hlength, hleads.carried hcarries, hsize⟩

theorem Complete.startNodes (h : Complete p limits files old s) (hfiles : Routed files)
    (hroot : builtAt old "" = some root) (hdigest : ∀ bytes, (p.digest bytes).length = 32)
    (hread : Readable p.toPlatform limits.toWriterLimits readLimits s)
    (hstart : startNodes p limits (some ⟨root.hash, s.inventory⟩) ⟨[], s.written⟩ = .ok start u) :
    (Begun p limits files start u ∧ ∀ file ∈ files, builtAt start file.route = builtAt old file.route) ∧
      u.written = s.written := by
  obtain ⟨_, v, hregister, hlift⟩ := bind_ok.mp hstart
  obtain ⟨himport, rfl⟩ := liftError_ok hlift
  have hput := register_put hregister
  have hadds := h.importBase_adds hfiles hdigest hread rfl hroot rfl himport
  exact ⟨h.begun hfiles hadds (h.root_onWay hfiles hroot) ⟨hput.stored, hput.written.symm⟩, hput.written⟩

end Starting

end Importing

end NixstrCache.Hashtree.Writer
