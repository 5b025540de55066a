import NixstrCache.Hashtree.TreeBuild
import NixstrCache.Lib.Texts

/-!
The rows of a build.

The routes of the files are in canonical form, and none of them goes on where another one ends.  Then every
row stands for a path: it is the row of a file, or of a directory on the way to one.
-/

namespace NixstrCache.Hashtree.Writer

open Protocol Programs KeyedTable KeyedTable.Table

section Paths

variable {parts others : List String} {route : String}

/-- What `split("/")` leaves of a path: no part is empty. -/
def IsSegment (s : String) : Prop :=
  s ≠ "" ∧ '/' ∉ s.toList

theorem segmentsOf_joinPath (h : ∀ part ∈ parts, IsSegment part) : segmentsOf (joinPath parts) = parts := by
  have hkeep : parts.filter (· ≠ "") = parts :=
    List.filter_eq_self.mpr fun part hpart => by simpa using (h part hpart).1
  have hback : (parts.map String.toList).map String.ofList = parts := by
    rw [List.map_map]
    refine (List.map_congr_left fun part _ => ?_).trans (List.map_id parts)
    exact String.ofList_toList
  cases parts with
  | nil => rfl
  | cons first rest =>
    rw [segmentsOf, joinPath, String.toList_ofList, List.splitOn_intercalate, hback, hkeep]
    · intro chars hchars
      obtain ⟨part, hpart, rfl⟩ := List.mem_map.mp hchars
      exact (h part hpart).2
    · simp

theorem isSegment_of_mem {path : String} {part : String} (h : part ∈ segmentsOf path) : IsSegment part := by
  obtain ⟨hpart, hfilled⟩ := List.mem_filter.mp h
  obtain ⟨chars, hchars, rfl⟩ := List.mem_map.mp hpart
  refine ⟨by simpa using hfilled, ?_⟩
  rw [String.toList_ofList]
  exact (Texts.mem_splitOn hchars).1

theorem joinPath_inj (h : ∀ part ∈ parts, IsSegment part) (hothers : ∀ part ∈ others, IsSegment part)
    (heq : joinPath parts = joinPath others) : parts = others := by
  rw [← segmentsOf_joinPath h, heq, segmentsOf_joinPath hothers]

theorem IsSegment.of_safe {name : String} (h : unsafeName name = false) : IsSegment name := by
  simp only [unsafeName, decide_eq_false_iff_not, not_or] at h
  exact ⟨h.1, h.2.2.2.1⟩

theorem checkRoute_ok {limits : BuildLimits} {previousRoute : Option String} {u : Unit}
    (h : checkRoute limits previousRoute route = .ok u) :
    segmentsOf route ≠ [] ∧ ∀ part ∈ segmentsOf route, unsafeName part = false := by
  rw [checkRoute] at h
  by_cases hunsafe : segmentsOf route = [] ∨ (segmentsOf route).any
      (fun x => x = "." ∨ x = ".." ∨ '\x00' ∈ x.toList) = true
  · rw [if_pos hunsafe] at h
    cases h
  obtain ⟨hfilled, hparts⟩ := not_or.mp hunsafe
  refine ⟨hfilled, fun part hpart => ?_⟩
  obtain ⟨hne, hslash⟩ := isSegment_of_mem hpart
  rw [List.any_eq_true, not_exists] at hparts
  have hplain := hparts part
  simp only [hpart, true_and, decide_eq_true_eq, not_or] at hplain
  simp only [unsafeName, decide_eq_false_iff_not, not_or]
  exact ⟨hne, hplain.1, hplain.2.1, hslash, hplain.2.2⟩

end Paths

section Rows

variable {files done : List LogicalFile} {file : LogicalFile} {nodes : Nodes} {row : NodeRow}

def Canonical (file : LogicalFile) : Prop :=
  file.route = joinPath (segmentsOf file.route)

/-- Neither route goes on where the other one ends. -/
def Apart (a b : LogicalFile) : Prop :=
  ¬segmentsOf a.route <+: segmentsOf b.route ∧ ¬segmentsOf b.route <+: segmentsOf a.route

instance decidableCanonical (file : LogicalFile) : Decidable (Canonical file) :=
  inferInstanceAs (Decidable (file.route = joinPath (segmentsOf file.route)))

instance decidableApart (a b : LogicalFile) : Decidable (Apart a b) :=
  inferInstanceAs (Decidable (¬_ ∧ ¬_))

def OnWay (files : List LogicalFile) (parts : List String) : Prop :=
  ∃ file ∈ files, parts <+: segmentsOf file.route ∧ parts ≠ segmentsOf file.route

def NodeRow.bare (row : NodeRow) : NodeRow :=
  { row with source := none, built := none }

/-- The rows are those of the files and of the directories on the way to them. -/
structure Indexed (files : List LogicalFile) (nodes : Nodes) : Prop where
  file : ∀ file ∈ files, ∃ row ∈ nodes.rows, row.bare = (fileRow file).bare
  directory : ∀ parts, OnWay files parts → ∃ row ∈ nodes.rows, row.bare = directoryRow parts
  only : ∀ row ∈ nodes.rows, (∃ file ∈ files, row.bare = (fileRow file).bare) ∨
    ∃ parts, OnWay files parts ∧ row.bare = directoryRow parts

def Beside (a b : LogicalFile) : Prop :=
  a.route = b.route ∨ Apart a b

instance decidableBeside (a b : LogicalFile) : Decidable (Beside a b) :=
  inferInstanceAs (Decidable (_ ∨ _))

def putFile (files : List LogicalFile) (file : LogicalFile) : List LogicalFile :=
  files.filter (fun old => old.route ≠ file.route) ++ [file]

/-- The files, and those before them whose routes none of them has. -/
def merged (before files : List LogicalFile) : List LogicalFile :=
  before.filter (fun old => ∀ file ∈ files, old.route ≠ file.route) ++ files

theorem directoryRow_bare (parts : List String) : (directoryRow parts).bare = directoryRow parts :=
  rfl

theorem bare_path (row : NodeRow) : row.bare.path = row.path :=
  rfl

theorem mem_putFile {other : LogicalFile} :
    other ∈ putFile done file ↔ other ∈ done ∧ other.route ≠ file.route ∨ other = file := by
  simp [putFile]

theorem mem_merged {before : List LogicalFile} {other : LogicalFile} : other ∈ merged before files ↔
    other ∈ before ∧ (∀ file ∈ files, other.route ≠ file.route) ∨ other ∈ files := by
  simp [merged]

theorem merged_nil_left (files : List LogicalFile) : merged [] files = files :=
  rfl

theorem Apart.route_ne {other : LogicalFile} (h : Apart other file) : other.route ≠ file.route := by
  intro hroute
  refine h.1 ?_
  rw [hroute]

theorem foldl_putFile {before : List LogicalFile} (hapart : files.Pairwise Apart) :
    files.foldl putFile before = merged before files := by
  induction files generalizing before with
  | nil => simp [merged]
  | cons file files ih =>
    obtain ⟨hfirst, hrest⟩ := List.pairwise_cons.mp hapart
    have hkept : ∀ other ∈ files, file.route ≠ other.route := fun other hother =>
      (hfirst other hother).route_ne
    rw [List.foldl_cons, ih hrest, merged, merged, putFile, List.filter_append, List.filter_filter]
    have hfile : [file].filter (fun old => ∀ other ∈ files, old.route ≠ other.route) = [file] :=
      List.filter_eq_self.mpr (by simpa using hkept)
    rw [hfile, List.append_assoc, List.singleton_append]
    congr 2
    funext old
    simp [Bool.and_comm]

theorem OnWay.segments {parts : List String} (h : OnWay files parts) : ∀ part ∈ parts, IsSegment part := by
  obtain ⟨file, -, hbegins, -⟩ := h
  exact fun part hpart => isSegment_of_mem (hbegins.subset hpart)

theorem onWay_putFile {file : LogicalFile} {parts : List String} : OnWay (putFile done file) parts ↔
    OnWay done parts ∨ parts <+: segmentsOf file.route ∧ parts ≠ segmentsOf file.route := by
  constructor
  · rintro ⟨other, hother, hway⟩
    rcases mem_putFile.mp hother with ⟨hold, -⟩ | rfl
    · exact Or.inl ⟨other, hold, hway⟩
    · exact Or.inr hway
  · rintro (⟨other, hother, hway⟩ | hway)
    · by_cases hroute : other.route = file.route
      · exact ⟨file, mem_putFile.mpr (Or.inr rfl), hroute ▸ hway⟩
      · exact ⟨other, mem_putFile.mpr (Or.inl ⟨hother, hroute⟩), hway⟩
    · exact ⟨file, mem_putFile.mpr (Or.inr rfl), hway⟩

theorem mem_insertFile (h : row ∈ (insertFile file nodes).rows) :
    row = fileRow file ∨ (row ∈ nodes.rows ∧ row.path ≠ file.route) ∨
      ∃ parts, parts <+: segmentsOf file.route ∧ parts ≠ segmentsOf file.route ∧ row = directoryRow parts := by
  rcases mem_of_mem_insertAllOrIgnore h with hrow | hrow
  · rcases mem_insertOrReplace.mp hrow with hold | rfl
    · exact Or.inr (Or.inl hold)
    · exact Or.inl rfl
  · obtain ⟨depth, hdepth, rfl⟩ := List.mem_map.mp hrow
    refine Or.inr (Or.inr ⟨_, List.take_prefix _ _, ?_, rfl⟩)
    intro hall
    have hlength := congrArg List.length hall
    rw [List.length_take] at hlength
    have := List.mem_range.mp hdepth
    omega

theorem mem_parts {parts : List String} (hbegins : parts <+: segmentsOf file.route)
    (hproper : parts ≠ segmentsOf file.route) :
    directoryRow parts ∈ (List.range (segmentsOf file.route).length).map fun depth =>
      directoryRow ((segmentsOf file.route).take depth) := by
  refine List.mem_map.mpr ⟨parts.length, List.mem_range.mpr ?_, ?_⟩
  · refine lt_of_le_of_ne hbegins.length_le fun hlength => hproper ?_
    exact hbegins.eq_of_length hlength
  · rw [← List.prefix_iff_eq_take.mp hbegins]

theorem insertFile_kept (h : row ∈ nodes.rows) (hpath : row.path ≠ file.route) :
    row ∈ (insertFile file nodes).rows :=
  subset_insertAllOrIgnore (mem_insertOrReplace.mpr (Or.inl ⟨h, hpath⟩))

theorem insertFile_new : fileRow file ∈ (insertFile file nodes).rows :=
  subset_insertAllOrIgnore (mem_insertOrReplace.mpr (Or.inr rfl))

theorem Indexed.insert (h : Indexed done nodes) (hroutes : ∀ other ∈ done, Canonical other)
    (hcanonical : Canonical file) (hbeside : ∀ other ∈ done, Beside other file) :
    Indexed (putFile done file) (insertFile file nodes) := by
  have hsegments : ∀ part ∈ segmentsOf file.route, IsSegment part := fun _ => isSegment_of_mem
  have hway : ∀ parts, OnWay done parts → joinPath parts ≠ file.route := by
    intro parts hway hpath
    obtain rfl := joinPath_inj hway.segments hsegments (hpath.trans hcanonical)
    obtain ⟨other, hother, hbegins, hproper⟩ := hway
    rcases hbeside other hother with hroute | hapart
    · exact hproper (by rw [hroute])
    · exact hapart.2 hbegins
  have honly : ∀ row ∈ (insertFile file nodes).rows,
      (∃ other ∈ putFile done file, row.bare = (fileRow other).bare) ∨
        ∃ parts, OnWay (putFile done file) parts ∧ row.bare = directoryRow parts := by
    intro row hrow
    rcases mem_insertFile hrow with rfl | ⟨hrow, hpath⟩ | ⟨parts, hbegins, hproper, rfl⟩
    · exact Or.inl ⟨file, mem_putFile.mpr (Or.inr rfl), rfl⟩
    · rcases h.only row hrow with ⟨other, hother, hbare⟩ | ⟨parts, hway, hbare⟩
      · have hroute : row.path = other.route := by
          rw [← bare_path, hbare]
          rfl
        exact Or.inl ⟨other, mem_putFile.mpr (Or.inl ⟨hother, hroute ▸ hpath⟩), hbare⟩
      · exact Or.inr ⟨parts, onWay_putFile.mpr (Or.inl hway), hbare⟩
    · exact Or.inr ⟨parts, onWay_putFile.mpr (Or.inr ⟨hbegins, hproper⟩), rfl⟩
  refine ⟨?_, ?_, honly⟩
  · intro other hother
    rcases mem_putFile.mp hother with ⟨hother, hroute⟩ | rfl
    · obtain ⟨row, hrow, hbare⟩ := h.file other hother
      refine ⟨row, insertFile_kept hrow ?_, hbare⟩
      rw [← bare_path, hbare]
      exact hroute
    · exact ⟨_, insertFile_new, rfl⟩
  · intro parts hparts
    rcases onWay_putFile.mp hparts with hold | ⟨hbegins, hproper⟩
    · obtain ⟨row, hrow, hbare⟩ := h.directory parts hold
      refine ⟨row, insertFile_kept hrow ?_, hbare⟩
      rw [← bare_path, hbare]
      exact hway parts hold
    · have hhas : (insertFile file nodes).has (joinPath parts) = true :=
        has_insertAllOrIgnore.mpr (Or.inr ⟨_, mem_parts hbegins hproper, rfl⟩)
      obtain ⟨row, hrow, hpath⟩ := has_iff.mp hhas
      have hways : ∀ part ∈ parts, IsSegment part := fun part hpart => hsegments part (hbegins.subset hpart)
      refine ⟨row, hrow, ?_⟩
      rcases honly row hrow with ⟨other, hother, hbare⟩ | ⟨others, hother, hbare⟩
      · -- The row of a file would end where the route goes on.
        exfalso
        have hroute : row.path = other.route := by
          rw [← bare_path, hbare]
          rfl
        rcases mem_putFile.mp hother with ⟨hother, hdifferent⟩ | rfl
        · have heq := joinPath_inj hways (fun _ => isSegment_of_mem)
            (hpath.symm.trans (hroute.trans (hroutes other hother)))
          rcases hbeside other hother with hsame | hapart
          · exact hdifferent hsame
          · exact hapart.1 (heq ▸ hbegins)
        · exact hproper (joinPath_inj hways hsegments (hpath.symm.trans (hroute.trans hcanonical)))
      · have hothers : row.path = joinPath others := by
          rw [← bare_path, hbare]
          rfl
        rw [hbare, joinPath_inj hways hother.segments (hpath.symm.trans hothers)]

theorem indexed_empty : Indexed [] Table.empty := by
  refine ⟨by simp, ?_, by simp⟩
  rintro parts ⟨file, hfile, -⟩
  cases hfile

theorem insertFiles_cons {limits : BuildLimits} {entries : ℕ} {previousRoute : Option String}
    {result : Nodes} (h : insertFiles limits entries previousRoute (file :: files) nodes = .ok result) :
    (segmentsOf file.route ≠ [] ∧ ∀ part ∈ segmentsOf file.route, unsafeName part = false) ∧
      insertFiles limits (entries + 1) (some file.route) files (insertFile file nodes) = .ok result := by
  rw [insertFiles] at h
  by_cases hentries : limits.maxEntries.getD limits.maxInventoryBlobs < entries + 1
  · rw [if_pos hentries] at h
    cases h
  rw [if_neg hentries] at h
  obtain ⟨_, hchecked, h⟩ := bind_eq_ok.mp h
  by_cases hrepeats : repeatsComponent file = true
  · rw [if_pos hrepeats] at h
    cases h
  rw [if_neg hrepeats] at h
  exact ⟨checkRoute_ok hchecked, h⟩

theorem insertFiles_indexed {limits : BuildLimits} {entries : ℕ} {previousRoute : Option String}
    {result : Nodes} (h : Indexed done nodes) (hroutes : ∀ other ∈ done, Canonical other)
    (hcanonical : ∀ file ∈ files, Canonical file) (hapart : files.Pairwise Apart)
    (hbeside : ∀ old ∈ done, ∀ file ∈ files, Beside old file)
    (hinsert : insertFiles limits entries previousRoute files nodes = .ok result) :
    Indexed (files.foldl putFile done) result ∧
      ∀ file ∈ files, segmentsOf file.route ≠ [] ∧ ∀ part ∈ segmentsOf file.route, unsafeName part = false := by
  induction files generalizing done nodes entries previousRoute with
  | nil =>
    cases hinsert
    exact ⟨h, by simp⟩
  | cons file files ih =>
    obtain ⟨hchecked, hinsert⟩ := insertFiles_cons hinsert
    obtain ⟨hfirst, hrest⟩ := List.pairwise_cons.mp hapart
    obtain ⟨hhere, hothers⟩ := List.forall_mem_cons.mp hcanonical
    have hstep := h.insert hroutes hhere fun other hother => hbeside other hother file (by simp)
    have hcanonicalDone : ∀ other ∈ putFile done file, Canonical other := by
      intro other hother
      rcases mem_putFile.mp hother with ⟨hold, -⟩ | rfl
      · exact hroutes other hold
      · exact hhere
    have hbesideDone : ∀ old ∈ putFile done file, ∀ next ∈ files, Beside old next := by
      intro old hold next hnext
      rcases mem_putFile.mp hold with ⟨hold, -⟩ | rfl
      · exact hbeside old hold next (by simp [hnext])
      · exact Or.inr (hfirst next hnext)
    obtain ⟨hindexed, hnames⟩ := ih hstep hcanonicalDone hothers hrest hbesideDone hinsert
    exact ⟨hindexed, List.forall_mem_cons.mpr ⟨hchecked, hnames⟩⟩

end Rows

section Columns

variable {files : List LogicalFile} {file : LogicalFile} {nodes : Nodes} {row : NodeRow}
variable {parts : List String} {path other : String} {built : BuiltLink}

/-- The routes are canonical and apart from each other, and their parts are names. -/
structure Routed (files : List LogicalFile) : Prop where
  canonical : ∀ file ∈ files, Canonical file
  apart : files.Pairwise Apart
  filled : ∀ file ∈ files, segmentsOf file.route ≠ []
  safe : ∀ file ∈ files, ∀ part ∈ segmentsOf file.route, unsafeName part = false

def builtAt (nodes : Nodes) (path : String) : Option BuiltLink :=
  (nodes.find? path).bind NodeRow.built

def Hashed (nodes : Nodes) : Prop :=
  ∀ row ∈ nodes.rows, ∀ built ∈ row.built, built.hash.length = 32

theorem mem_setBuilt : row ∈ (setBuilt nodes path built).rows ↔
    ∃ old ∈ nodes.rows, row = if old.path = path then { old with built := some built } else old := by
  rw [setBuilt, mem_update]
  exact ⟨fun ⟨old, hold, heq⟩ => ⟨old, hold, heq.symm⟩, fun ⟨old, hold, heq⟩ => ⟨old, hold, heq.symm⟩⟩

theorem bare_setBuilt (row : NodeRow) (path : String) (built : BuiltLink) :
    (if row.path = path then { row with built := some built } else row).bare = row.bare := by
  split_ifs <;> rfl

theorem builtAt_setBuilt : builtAt (setBuilt nodes path built) other =
    if other = path then (nodes.find? path).map fun _ => built else builtAt nodes other := by
  have hfind : (setBuilt nodes path built).find? other =
      (nodes.find? other).map fun row => if row.path = path then { row with built := some built } else row :=
    find?_update _ _ _ _
  rw [builtAt, hfind]
  cases hold : nodes.find? other with
  | none =>
    split_ifs with hpath
    · rw [← hpath, hold]
      rfl
    · rw [builtAt, hold]
      rfl
  | some old =>
    obtain ⟨-, hkey⟩ := find?_eq_some.mp hold
    rw [Option.map_some, Option.bind_some, hkey]
    split_ifs with hpath
    · rw [← hpath, hold]
      rfl
    · rw [builtAt, hold]
      rfl

theorem Indexed.setBuilt (h : Indexed files nodes) : Indexed files (setBuilt nodes path built) := by
  have hkeeps : ∀ bare, (∃ row ∈ nodes.rows, row.bare = bare) →
      ∃ row ∈ (Writer.setBuilt nodes path built).rows, row.bare = bare := by
    rintro bare ⟨row, hrow, hbare⟩
    exact ⟨_, mem_setBuilt.mpr ⟨row, hrow, rfl⟩, (bare_setBuilt row path built).trans hbare⟩
  refine ⟨fun file hfile => hkeeps _ (h.file file hfile), fun parts hway => hkeeps _ (h.directory parts hway),
    fun row hrow => ?_⟩
  obtain ⟨old, hold, rfl⟩ := mem_setBuilt.mp hrow
  rw [bare_setBuilt]
  exact h.only old hold

theorem Hashed.setBuilt (h : Hashed nodes) (hhash : built.hash.length = 32) :
    Hashed (setBuilt nodes path built) := by
  intro row hrow found hfound
  obtain ⟨old, hold, rfl⟩ := mem_setBuilt.mp hrow
  split_ifs at hfound with hpath
  · obtain rfl := Option.some.inj hfound
    exact hhash
  · exact h old hold found hfound

theorem length_setBuilt : (setBuilt nodes path built).rows.length = nodes.rows.length := by
  rw [Writer.setBuilt, update_rows, List.length_map]

structure At (files : List LogicalFile) (row : NodeRow) (parts : List String) : Prop where
  safe : ∀ part ∈ parts, unsafeName part = false
  path : row.path = joinPath parts
  parent : row.parent = joinPath parts.dropLast
  name : row.name = parts.getLast?.getD ""
  depth : row.depth = parts.length
  kind : (row.isFile = true ∧ ∃ file ∈ files, parts = segmentsOf file.route) ∨
    row.isFile = false ∧ OnWay files parts

theorem At.segments (h : At files row parts) : ∀ part ∈ parts, IsSegment part :=
  fun part hpart => .of_safe (h.safe part hpart)

theorem At.of_file (hfiles : Routed files) (hfile : file ∈ files) (hbare : row.bare = (fileRow file).bare) :
    At files row (segmentsOf file.route) := by
  cases row
  simp only [NodeRow.bare, fileRow, NodeRow.mk.injEq] at hbare
  obtain ⟨rfl, rfl, rfl, rfl, rfl, -, -⟩ := hbare
  exact ⟨hfiles.safe file hfile, hfiles.canonical file hfile, rfl, rfl, rfl,
    Or.inl ⟨rfl, file, hfile, rfl⟩⟩

theorem At.of_directory (hfiles : Routed files) (hway : OnWay files parts)
    (hbare : row.bare = directoryRow parts) : At files row parts := by
  cases row
  simp only [NodeRow.bare, directoryRow, NodeRow.mk.injEq] at hbare
  obtain ⟨rfl, rfl, rfl, rfl, rfl, -, -⟩ := hbare
  refine ⟨?_, rfl, rfl, rfl, rfl, Or.inr ⟨rfl, hway⟩⟩
  obtain ⟨file, hfile, hbegins, -⟩ := hway
  exact fun part hpart => hfiles.safe file hfile part (hbegins.subset hpart)

theorem Indexed.at (hfiles : Routed files) (h : Indexed files nodes) (hrow : row ∈ nodes.rows) :
    ∃ parts, At files row parts := by
  rcases h.only row hrow with ⟨file, hfile, hbare⟩ | ⟨parts, hway, hbare⟩
  · exact ⟨_, .of_file hfiles hfile hbare⟩
  · exact ⟨_, .of_directory hfiles hway hbare⟩

end Columns

section Children

variable {files : List LogicalFile} {nodes : Nodes} {row : NodeRow} {parts : List String}
variable {links entries : List ManifestLink} {link : ManifestLink} {rows : List NodeRow}

theorem mem_childRows {path : String} :
    row ∈ childRows nodes path ↔ row ∈ nodes.rows ∧ row.parent = path ∧ row.path ≠ path := by
  rw [childRows, List.mem_insertionSort, List.mem_filter, decide_eq_true_iff]

theorem OnWay.safe (hfiles : Routed files) (hway : OnWay files parts) :
    ∀ part ∈ parts, unsafeName part = false := by
  obtain ⟨file, hfile, hbegins, -⟩ := hway
  exact fun part hpart => hfiles.safe file hfile part (hbegins.subset hpart)

theorem child_at (hfiles : Routed files) (h : Indexed files nodes) (hway : OnWay files parts)
    (hrow : row ∈ childRows nodes (joinPath parts)) :
    At files row (parts ++ [row.name]) ∧ unsafeName row.name = false := by
  obtain ⟨hmem, hparent, hpath⟩ := mem_childRows.mp hrow
  obtain ⟨others, hat⟩ := h.at hfiles hmem
  have hfront : ∀ part ∈ others.dropLast, IsSegment part := fun part hpart =>
    hat.segments part (List.dropLast_subset _ hpart)
  obtain rfl := joinPath_inj hfront hway.segments (hat.parent.symm.trans hparent)
  rcases List.eq_nil_or_concat others with rfl | ⟨front, last, rfl⟩
  · exact absurd hat.path hpath
  · rw [List.concat_eq_append] at *
    have hname : row.name = last := by simpa using hat.name
    rw [List.dropLast_concat, hname]
    exact ⟨hat, hat.safe last (by simp)⟩

theorem mem_child (hway : ∀ part ∈ parts, IsSegment part) {name : String}
    (hat : At files row (parts ++ [name])) (hmem : row ∈ nodes.rows) :
    row ∈ childRows nodes (joinPath parts) ∧ row.name = name := by
  refine ⟨mem_childRows.mpr ⟨hmem, ?_, ?_⟩, by simpa using hat.name⟩
  · simpa using hat.parent
  · intro hpath
    have heq := joinPath_inj hat.segments hway (hat.path.symm.trans hpath)
    have hlength := congrArg List.length heq
    simp at hlength

theorem childLink_eq_ok : childLink row = .ok link ↔
    ∃ built, row.built = some built ∧ link = nameLink row.name built := by
  rw [childLink]
  cases row.built with
  | none => simp
  | some built => simp [eq_comm]

theorem mapM_childLink (h : rows.mapM childLink = .ok links) :
    List.Forall₂ (fun row link => childLink row = .ok link) rows links := by
  induction rows generalizing links with
  | nil =>
    cases h
    exact .nil
  | cons row rows ih =>
    rw [List.mapM_cons] at h
    obtain ⟨link, hlink, h⟩ := bind_eq_ok.mp h
    obtain ⟨rest, hrest, h⟩ := bind_eq_ok.mp h
    cases h
    exact .cons hlink (ih hrest)

theorem forall₂_left {α β : Type} {R : α → β → Prop} {front : List α} {back : List β} {x : α}
    (h : List.Forall₂ R front back) (hx : x ∈ front) : ∃ y ∈ back, R x y := by
  induction h with
  | nil => cases hx
  | cons hfirst _ ih =>
    rcases List.mem_cons.mp hx with rfl | hx
    · exact ⟨_, List.mem_cons_self, hfirst⟩
    · obtain ⟨y, hy, hR⟩ := ih hx
      exact ⟨y, List.mem_cons_of_mem _ hy, hR⟩

theorem forall₂_right {α β : Type} {R : α → β → Prop} {front : List α} {back : List β} {y : β}
    (h : List.Forall₂ R front back) (hy : y ∈ back) : ∃ x ∈ front, R x y :=
  forall₂_left h.flip hy

theorem entryNamed_children (hfiles : Routed files) (h : Indexed files nodes) (hway : OnWay files parts)
    (hlinks : (childRows nodes (joinPath parts)).mapM childLink = .ok links) {name : String}
    (hname : IsSegment name) :
    entryNamed links name = (builtAt nodes (joinPath (parts ++ [name]))).map (nameLink name) := by
  have hpairs := mapM_childLink hlinks
  have hsegments : ∀ part ∈ parts ++ [name], IsSegment part := by
    intro part hpart
    rcases List.mem_append.mp hpart with hpart | hpart
    · exact hway.segments part hpart
    · exact List.mem_singleton.mp hpart ▸ hname
  -- A link of this name is the one to the row at the longer path.
  have hfrom : ∀ link ∈ links, link.name = some name → ∃ row ∈ nodes.rows,
      row.path = joinPath (parts ++ [name]) ∧ childLink row = .ok link ∧ row.name = name := by
    intro link hlink hnamed
    obtain ⟨row, hrow, hchild⟩ := forall₂_right hpairs hlink
    obtain ⟨built, hbuilt, rfl⟩ := childLink_eq_ok.mp hchild
    have hsame : row.name = name := Option.some.inj hnamed
    have hat := (child_at hfiles h hway hrow).1
    rw [hsame] at hat
    exact ⟨row, (mem_childRows.mp hrow).1, hat.path, hchild, hsame⟩
  cases hfind : nodes.find? (joinPath (parts ++ [name])) with
  | none =>
    rw [builtAt, hfind]
    refine List.find?_eq_none.mpr fun link hlink hnamed => ?_
    obtain ⟨row, hrow, hpath, -⟩ := hfrom link hlink (by simpa using hnamed)
    exact find?_eq_none.mp hfind row hrow hpath
  | some row =>
    obtain ⟨hrow, hpath⟩ := find?_eq_some.mp hfind
    obtain ⟨others, hat⟩ := h.at hfiles hrow
    obtain rfl := joinPath_inj hat.segments hsegments (hat.path.symm.trans hpath)
    obtain ⟨hchild, hsame⟩ := mem_child hway.segments hat hrow
    obtain ⟨link, hlink, hok⟩ := forall₂_left hpairs hchild
    obtain ⟨built, hbuilt, rfl⟩ := childLink_eq_ok.mp hok
    have hsome : (entryNamed links name).isSome = true :=
      List.find?_isSome.mpr ⟨_, hlink, by simp [nameLink, hsame]⟩
    obtain ⟨found, hfound⟩ := Option.isSome_iff_exists.mp hsome
    obtain ⟨hmem, hnamed⟩ := entryNamed_eq_some hfound
    have hnamed : found.name = some name := by simpa using List.find?_some hfound
    obtain ⟨row', hrow', hpath', hok', hsame'⟩ := hfrom found hmem hnamed
    obtain rfl := eq_of_key hrow' hrow (hpath'.trans hpath.symm)
    obtain ⟨built', hbuilt', rfl⟩ := childLink_eq_ok.mp hok'
    rw [hfound, builtAt, hfind, Option.bind_some, hbuilt', Option.map_some, hsame]

theorem utf8_injective {a b : String} (h : utf8 a = utf8 b) : a = b := by
  have hbytes : a.toList.utf8Encode = b.toList.utf8Encode := congrArg List.toByteArray h
  rw [← String.toByteArray_ofList, ← String.toByteArray_ofList, String.ofList_toList,
    String.ofList_toList] at hbytes
  exact String.toByteArray_inj.mp hbytes

theorem byteLess_of_le {a b : String} (h : utf8 a ≤ utf8 b) (hne : a ≠ b) : byteLess a b := by
  by_contra hless
  exact hne (utf8_injective (List.le_antisymm h (List.not_lt.mp hless)))

theorem names_childLinks (h : List.Forall₂ (fun row link => childLink row = .ok link) rows links) :
    links.map nameOf = rows.map NodeRow.name := by
  induction h with
  | nil => rfl
  | cons hfirst _ ih =>
    obtain ⟨built, -, rfl⟩ := childLink_eq_ok.mp hfirst
    rw [List.map_cons, List.map_cons, ih]
    rfl

theorem childRows_names (hfiles : Routed files) (h : Indexed files nodes) (hway : OnWay files parts) :
    (childRows nodes (joinPath parts)).Pairwise fun a b => a.name ≠ b.name := by
  have hnodup : (childRows nodes (joinPath parts)).Nodup :=
    (List.perm_insertionSort _ _).nodup_iff.mpr ((nodup_rows nodes).filter _)
  refine (List.pairwise_of_forall_mem_list fun a ha b hb => ?_ :
    (childRows nodes (joinPath parts)).Pairwise fun a b => a.name = b.name → a = b).imp₂ ?_ hnodup
  · intro hname
    obtain ⟨hata, -⟩ := child_at hfiles h hway ha
    obtain ⟨hatb, -⟩ := child_at hfiles h hway hb
    rw [hname] at hata
    exact eq_of_key (mem_childRows.mp ha).1 (mem_childRows.mp hb).1 (hata.path.trans hatb.path.symm)
  · exact fun a b hsame hne hname => hne (hsame hname)

theorem childLinks_entries (hfiles : Routed files) (h : Indexed files nodes) (hhashed : Hashed nodes)
    (hway : OnWay files parts) (hcount : nodes.rows.length ≤ 9007199254740991)
    (hlinks : (childRows nodes (joinPath parts)).mapM childLink = .ok links)
    (hsize : (links.map ManifestLink.size).sum ≤ 9007199254740991) : Entries .directory links := by
  have hpairs := mapM_childLink hlinks
  have hfrom : ∀ link ∈ links, ∃ row ∈ childRows nodes (joinPath parts), ∃ built,
      row.built = some built ∧ link = nameLink row.name built := by
    intro link hlink
    obtain ⟨row, hrow, hok⟩ := forall₂_right hpairs hlink
    obtain ⟨built, hbuilt, heq⟩ := childLink_eq_ok.mp hok
    exact ⟨row, hrow, built, hbuilt, heq⟩
  refine ⟨?_, ?_, hsize, ?_, nofun, fun _ => ?_, fun _ => ?_⟩
  · intro link hlink
    obtain ⟨row, hrow, built, hbuilt, rfl⟩ := hfrom link hlink
    exact hhashed row (mem_childRows.mp hrow).1 built hbuilt
  · intro link hlink
    obtain ⟨row, -, built, -, rfl⟩ := hfrom link hlink
    exact ⟨rfl, rfl⟩
  · rw [← hpairs.length_eq, childRows, List.length_insertionSort]
    exact (List.length_filter_le _ _).trans hcount
  · intro link hlink
    obtain ⟨row, hrow, built, -, rfl⟩ := hfrom link hlink
    exact ⟨row.name, rfl, (child_at hfiles h hway hrow).2⟩
  · have hsorted : (childRows nodes (joinPath parts)).Pairwise fun a b => utf8 a.name ≤ utf8 b.name :=
      List.pairwise_insertionSort (fun a b : NodeRow => utf8 a.name ≤ utf8 b.name) _
    have hstrict : (childRows nodes (joinPath parts)).Pairwise fun a b => byteLess a.name b.name :=
      hsorted.imp₂ (fun a b => byteLess_of_le) (childRows_names hfiles h hway)
    have hnames : (links.map nameOf).Pairwise byteLess := by
      rw [names_childLinks hpairs]
      exact List.pairwise_map.mpr hstrict
    exact List.pairwise_map.mp hnames

end Children

section Inserting

variable {files done todo : List LogicalFile} {file : LogicalFile} {nodes result : Nodes} {row : NodeRow}
variable {rows : List NodeRow} {path : String}

theorem Indexed.length_le (hfiles : Routed files) (h : Indexed files nodes) :
    nodes.rows.length ≤ (files.map fun file => (segmentsOf file.route).length + 1).sum := by
  have hsub : nodes.rows.map NodeRow.path ⊆
      files.flatMap fun file => (segmentsOf file.route).inits.map joinPath := by
    intro path hpath
    obtain ⟨row, hrow, rfl⟩ := List.mem_map.mp hpath
    obtain ⟨parts, hat⟩ := h.at hfiles hrow
    have hbegins : ∃ file ∈ files, parts <+: segmentsOf file.route := by
      rcases hat.kind with ⟨-, file, hfile, rfl⟩ | ⟨-, file, hfile, hbegins, -⟩
      · exact ⟨file, hfile, List.prefix_rfl⟩
      · exact ⟨file, hfile, hbegins⟩
    obtain ⟨file, hfile, hbegins⟩ := hbegins
    refine List.mem_flatMap.mpr ⟨file, hfile, ?_⟩
    rw [hat.path]
    exact List.mem_map_of_mem ((List.mem_inits _ _).mpr hbegins)
  have hlength := (List.subperm_of_subset nodes.unique hsub).length_le
  simpa [List.length_flatMap] using hlength

/-- The files with these sources are still to be built, and so are all directories. -/
structure Waiting (todo : List LogicalFile) (nodes : Nodes) : Prop where
  file : ∀ file ∈ todo, ∃ row ∈ nodes.rows, row.path = file.route ∧ row.isFile = true ∧
    row.source = some file
  only : ∀ row ∈ nodes.rows, ∀ file ∈ row.source, file ∈ todo ∧ file.route = row.path
  unbuilt : ∀ row ∈ nodes.rows, row.isFile = false → row.built = none
  hashed : Hashed nodes

theorem waiting_empty : Waiting [] Table.empty :=
  ⟨by simp, by simp, by simp, fun _ hrow => by cases hrow⟩

theorem Waiting.insert (h : Waiting todo nodes) (hroutes : ∀ other ∈ todo, other.route ≠ file.route) :
    Waiting (todo ++ [file]) (insertFile file nodes) := by
  refine ⟨fun other hother => ?_, fun row hrow other hother => ?_, fun row hrow hdirectory => ?_,
    fun row hrow built hbuilt => ?_⟩
  · rcases List.mem_append.mp hother with hother | hother
    · obtain ⟨row, hrow, hpath, hrest⟩ := h.file other hother
      exact ⟨row, insertFile_kept hrow (hpath ▸ hroutes other hother), hpath, hrest⟩
    · obtain rfl := List.mem_singleton.mp hother
      exact ⟨_, insertFile_new, rfl, rfl, rfl⟩
  · rcases mem_insertFile hrow with rfl | ⟨hold, -⟩ | ⟨parts, -, -, rfl⟩
    · obtain rfl := Option.some.inj hother
      exact ⟨by simp, rfl⟩
    · obtain ⟨hmem, hpath⟩ := h.only row hold other hother
      exact ⟨by simp [hmem], hpath⟩
    · cases hother
  · rcases mem_insertFile hrow with rfl | ⟨hold, -⟩ | ⟨parts, -, -, rfl⟩
    · rfl
    · exact h.unbuilt row hold hdirectory
    · rfl
  · rcases mem_insertFile hrow with rfl | ⟨hold, -⟩ | ⟨parts, -, -, rfl⟩
    · cases hbuilt
    · exact h.hashed row hold built hbuilt
    · cases hbuilt

theorem insertFiles_waiting {limits : BuildLimits} {entries : ℕ} {previousRoute : Option String}
    (h : Waiting todo nodes) (hroutes : ∀ other ∈ todo, ∀ file ∈ files, other.route ≠ file.route)
    (hapart : files.Pairwise Apart)
    (hinsert : insertFiles limits entries previousRoute files nodes = .ok result) :
    Waiting (todo ++ files) result := by
  induction files generalizing todo nodes entries previousRoute with
  | nil =>
    cases hinsert
    simpa using h
  | cons file files ih =>
    obtain ⟨hfirst, hrest⟩ := List.pairwise_cons.mp hapart
    have hstep := h.insert fun other hother => hroutes other hother file (by simp)
    rw [List.append_cons]
    refine ih hstep (fun other hother next hnext => ?_) hrest (insertFiles_cons hinsert).2
    rcases List.mem_append.mp hother with hother | hother
    · exact hroutes other hother next (by simp [hnext])
    · obtain rfl := List.mem_singleton.mp hother
      exact (hfirst next hnext).route_ne

theorem builtAt_insertAllOrIgnore (h : ∀ row ∈ rows, row.built = none) :
    builtAt (nodes.insertAllOrIgnore rows) path = builtAt nodes path := by
  induction rows generalizing nodes with
  | nil => rfl
  | cons row rows ih =>
    obtain ⟨hrow, hrest⟩ := List.forall_mem_cons.mp h
    have hstep : builtAt (nodes.insertOrIgnore row) path = builtAt nodes path := by
      rw [builtAt, builtAt, find?_insertOrIgnore]
      cases hfind : nodes.find? path with
      | some found => simp
      | none =>
        by_cases hpath : row.path = path
        · simp [hpath, hrow]
        · simp [hpath]
    exact (ih hrest).trans hstep

theorem insertFiles_frame {limits : BuildLimits} {entries : ℕ} {previousRoute : Option String}
    (hinsert : insertFiles limits entries previousRoute files nodes = .ok result)
    (hpath : ∀ file ∈ files, path ≠ file.route) : builtAt result path = builtAt nodes path := by
  induction files generalizing nodes entries previousRoute with
  | nil =>
    cases hinsert
    rfl
  | cons file files ih =>
    obtain ⟨hhere, hrest⟩ := List.forall_mem_cons.mp hpath
    rw [ih (insertFiles_cons hinsert).2 hrest, insertFile, builtAt_insertAllOrIgnore]
    · rw [builtAt, builtAt, find?_insertOrReplace, if_neg]
      exact hhere.symm
    · intro row hrow
      obtain ⟨depth, -, rfl⟩ := List.mem_map.mp hrow
      rfl

end Inserting

section Orders

variable {files : List LogicalFile} {nodes : Nodes} {row : NodeRow} {file : LogicalFile}

theorem mem_fileRows :
    row ∈ fileRows nodes ↔ row ∈ nodes.rows ∧ row.isFile = true ∧ row.source.isSome = true := by
  rw [fileRows, List.mem_insertionSort, List.mem_filter, decide_eq_true_iff]

theorem mem_directoryRows :
    row ∈ directoryRows nodes ↔ row ∈ nodes.rows ∧ ¬row.isFile = true ∧ row.built.isNone = true := by
  rw [directoryRows, List.mem_insertionSort, List.mem_filter, decide_eq_true_iff]

theorem rows_different (nodes : Nodes) : nodes.rows.Pairwise fun a b => a.path ≠ b.path :=
  List.pairwise_map.mp nodes.unique

theorem fileRows_different (nodes : Nodes) : (fileRows nodes).Pairwise fun a b => a.path ≠ b.path :=
  ((List.perm_insertionSort _ _).pairwise_iff Ne.symm).mpr ((rows_different nodes).filter _)

theorem directoryRows_different (nodes : Nodes) :
    (directoryRows nodes).Pairwise fun a b => a.path ≠ b.path :=
  ((List.perm_insertionSort _ _).pairwise_iff Ne.symm).mpr ((rows_different nodes).filter _)

abbrev Deeper (a b : NodeRow) : Prop :=
  b.depth < a.depth ∨ a.depth = b.depth ∧ utf8 a.path ≤ utf8 b.path

theorem directoryRows_deeper (nodes : Nodes) :
    (directoryRows nodes).Pairwise fun a b => b.depth ≤ a.depth := by
  have htotal : Std.Total Deeper := by
    refine ⟨fun a b => ?_⟩
    rcases lt_trichotomy a.depth b.depth with hlt | heq | hlt
    · exact Or.inr (Or.inl hlt)
    · rcases List.le_total (utf8 a.path) (utf8 b.path) with hle | hle
      · exact Or.inl (Or.inr ⟨heq, hle⟩)
      · exact Or.inr (Or.inr ⟨heq.symm, hle⟩)
    · exact Or.inl (Or.inl hlt)
  have htrans : IsTrans NodeRow Deeper := by
    refine ⟨?_⟩
    rintro a b c (hab | ⟨hab, hpath⟩) (hbc | ⟨hbc, hnext⟩)
    · exact Or.inl (hbc.trans hab)
    · exact Or.inl (hbc ▸ hab)
    · exact Or.inl (hab ▸ hbc)
    · exact Or.inr ⟨hab.trans hbc, List.le_trans hpath hnext⟩
  have hsorted : (directoryRows nodes).Pairwise Deeper := List.pairwise_insertionSort Deeper _
  refine hsorted.imp fun hdeeper => ?_
  rcases hdeeper with hlt | ⟨heq, -⟩
  · exact hlt.le
  · exact heq.ge

theorem Routed.eq_of_prefix (hfiles : Routed files) {other : LogicalFile} (hfile : file ∈ files)
    (hother : other ∈ files) (hbegins : segmentsOf file.route <+: segmentsOf other.route) :
    segmentsOf file.route = segmentsOf other.route := by
  by_cases hsame : file = other
  · rw [hsame]
  · have hsymmetric : Std.Symm Apart := ⟨fun _ _ h => ⟨h.2, h.1⟩⟩
    exact absurd hbegins (hfiles.apart.forall hfile hother hsame).1

end Orders

end NixstrCache.Hashtree.Writer
