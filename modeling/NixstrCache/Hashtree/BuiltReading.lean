import NixstrCache.Hashtree.BuiltTree
import NixstrCache.Hashtree.FileStream

/-!
Reading what a build has written.

The tree under the root of a build is sound, so the resolver's search finds exactly the files and the
directories on the way to them.  A response for a path of the candidate has the bytes of the file with this
route, whatever the sources do.
-/

namespace NixstrCache.Hashtree.Writer

open Protocol Programs KeyedTable KeyedTable.Table
open Persistence (Bytes)

section Levels

variable {p : Platform} {store : Store} {t : WriterState} {kind : LinkListKind} {level height n : ℕ}
variable {links entries : List ManifestLink} {parts : List (List ManifestLink)} {hash : List UInt8}
variable {lib : MessagePack} {type : LinkType}

/-- The store has every manifest that has been written. -/
def Offers (p : Platform) (t : WriterState) (store : Store) : Prop :=
  ∀ manifest ∈ t.written, ∀ wire, encodeManifest p.lib manifest = .ok wire →
    ∃ node, store (p.digest wire) = some node ∧ node.validated.manifest = manifest ∧
      Accepted p.lib node.validated

theorem sound_succ (h : Sound lib store height hash type) : Sound lib store (height + 1) hash type := by
  induction height generalizing hash type with
  | zero => exact h.elim
  | succ height ih =>
    obtain ⟨node, hnode, haccepted, htype, hlinks, hbounds⟩ := h
    refine ⟨node, hnode, haccepted, htype, fun link hlink htree => ih (hlinks link hlink htree), ?_⟩
    intro hfanout link hlink
    obtain ⟨bounds, hof, hbounding⟩ := hbounds hfanout link hlink
    have hbelow := hlinks link hlink ((haccepted.fanout hfanout).1 link hlink)
    exact ⟨bounds, hof, (hbelow.entries_eq (Nat.le_succ height)).symm ▸ hbounding⟩

theorem sound_mono (h : Sound lib store height hash type) (hn : height ≤ n) :
    Sound lib store n hash type := by
  induction hn with
  | refl => exact h
  | step _ ih => exact sound_succ ih

theorem namesOf_named (h : ∀ link ∈ entries, ∃ name, link.name = some name) :
    namesOf entries = entries.map nameOf := by
  rw [namesOf, ← List.filterMap_eq_map]
  refine List.filterMap_congr fun link hlink => ?_
  obtain ⟨name, hname⟩ := h link hlink
  simp [nameOf, hname]

theorem Entries.names (h : Entries .directory entries) : namesOf entries = entries.map nameOf :=
  namesOf_named fun link hlink => (h.named rfl link hlink).imp fun _ hname => hname.1

theorem Represents.bounding {link : ManifestLink} {part : List ManifestLink}
    (h : Represents .directory level link part) (hpart : Entries .directory part) :
    ∃ bounds, boundsOf link = some bounds ∧ Bounding bounds (namesOf part) := by
  obtain ⟨first, hfirst, last, hlast, hmetadata⟩ := h.bounds rfl
  rw [hpart.names]
  refine ⟨⟨nameOf first, nameOf last⟩, by simp [boundsOf, hmetadata, List.lookup_cons],
    List.mem_map_of_mem (List.mem_of_head? hfirst), List.mem_map_of_mem (List.mem_of_getLast? hlast), ?_, ?_⟩
  · intro name hname
    obtain ⟨entry, hentry, rfl⟩ := List.mem_map.mp hname
    rcases hpart.least hfirst hentry with rfl | hless
    · exact List.le_refl _
    · exact List.le_of_lt hless
  · intro name hname
    obtain ⟨entry, hentry, rfl⟩ := List.mem_map.mp hname
    rcases hpart.greatest hlast hentry with rfl | hless
    · exact List.le_refl _
    · exact List.le_of_lt hless

theorem flatMap_parts {f : ManifestLink → List ManifestLink}
    (h : List.Forall₂ (fun link part => f link = part) links parts) : links.flatMap f = parts.flatten := by
  induction h with
  | nil => rfl
  | cons hlink _ ih => rw [List.flatMap_cons, List.flatten_cons, hlink, ih]

theorem typeMatches_group (level : ℕ) :
    typeMatches (groupType .directory level) (manifestKind .directory level) = true := by
  cases level <;> rfl

/-- A tree of directory manifests is sound when the trees below its entries are, and the reader sees the
entries of the work list. -/
theorem offers_level (h : Offers p t store) {wire : List UInt8} {manifest : Manifest}
    (hmem : manifest ∈ t.written) (hwire : encodeManifest p.lib manifest = .ok wire)
    (htype : manifest.type = manifestKind .directory level)
    (hlevel : Level p .directory entries t.written level manifest.links parts)
    (hbelow : ∀ entry ∈ parts.flatten, isTree entry.type = true →
      Sound p.lib store height entry.hash entry.type) :
    Sound p.lib store (height + level + 1) (p.digest wire) (groupType .directory level) ∧
      Hashtree.entries store (height + level + 1) (p.digest wire) = parts.flatten := by
  induction level generalizing manifest wire parts with
  | zero =>
    obtain ⟨node, hnode, rfl, haccepted⟩ := h manifest hmem wire hwire
    have hflat := flatten_entries hlevel.holds
    have hdirectory : node.validated.manifest.type ≠ .fanout := by
      rw [htype]
      decide
    refine ⟨⟨node, hnode, haccepted, by rw [htype]; rfl, fun link hlink htree => ?_,
      fun hfanout => absurd hfanout hdirectory⟩, ?_⟩
    · exact hbelow link (hflat.symm ▸ hlink) htree
    · rw [Hashtree.entries]
      simp only [hnode, if_neg hdirectory, hflat]
  | succ level ih =>
    obtain ⟨node, hnode, rfl, haccepted⟩ := h manifest hmem wire hwire
    have hfanout : node.validated.manifest.type = .fanout := by
      rw [htype]
      rfl
    -- Every link leads to a tree over its part.
    have hchildren : List.Forall₂ (fun link part =>
        Sound p.lib store (height + level + 1) link.hash link.type ∧
          Hashtree.entries store (height + level + 1) link.hash = part ∧
          Represents .directory level link part ∧ Entries .directory part)
        node.validated.manifest.links parts := by
      refine (forall₂_mem hlevel.holds).imp fun link part => ?_
      rintro ⟨⟨-, hpart⟩, child, hchild, childWire, below, hchildWire, hhash, hchildType, hbelowHolds, rfl,
        hrepresents⟩
      have hwhole := (List.infix_of_mem_flatten hpart).trans hlevel.whole
      obtain ⟨hsound, hentries⟩ := ih hchild hchildWire hchildType ⟨hlevel.lawful, hbelowHolds, hwhole⟩
        fun entry hentry => hbelow entry (List.mem_flatten.mpr ⟨_, hpart, hentry⟩)
      rw [hhash, hrepresents.type]
      exact ⟨hsound, hentries, hrepresents, hlevel.lawful.of_infix hwhole⟩
    refine ⟨⟨node, hnode, haccepted, by rw [htype]; exact typeMatches_group _, fun link hlink _ => ?_,
      fun _ link hlink => ?_⟩, ?_⟩
    · obtain ⟨part, -, hsound, -⟩ := exists_part hchildren hlink
      exact hsound
    · obtain ⟨part, -, -, hentries, hrepresents, hpart⟩ := exists_part hchildren hlink
      rw [show height + (level + 1) = height + level + 1 from rfl, hentries]
      exact hrepresents.bounding hpart
    · rw [Hashtree.entries]
      simp only [hnode, if_pos hfanout]
      exact flatMap_parts (hchildren.imp fun _ _ hchild => hchild.2.1)

end Levels

section Directories

variable {p : BuildPlatform} {limits : BuildLimits} {files : List LogicalFile} {nodes : Nodes}
variable {t : WriterState} {store : Store} {height n : ℕ} {parts front : List String} {name : String}
variable {built : BuiltLink}

/-- From this height on a reader finds in the directory what the rows below it say, and every entry under
its name. -/
def Opens (p : BuildPlatform) (store : Store) (nodes : Nodes) (height : ℕ) (parts : List String) : Prop :=
  ∃ built, builtAt nodes (joinPath parts) = some built ∧ Sound p.lib store height built.hash built.type ∧
    (∀ name, IsSegment name → entryNamed (Hashtree.entries store height built.hash) name =
      (builtAt nodes (joinPath (parts ++ [name]))).map (nameLink name)) ∧
    ∀ link ∈ Hashtree.entries store height built.hash, ∃ name, IsSegment name ∧
      entryNamed (Hashtree.entries store height built.hash) name = some link

/-- What has been built is a file with these segments, or a directory on the way to a file. -/
def LeadsTo (p : BuildPlatform) (files : List LogicalFile) (t : WriterState) (parts : List String)
    (built : BuiltLink) : Prop :=
  (isTree built.type = false ∧ ∃ file ∈ files, segmentsOf file.route = parts ∧ ∃ bytes,
    file.Contains p.digest bytes ∧ bytes.length = file.size ∧
      Leads p.toPlatform t bytes built.hash built.size built.type) ∨
  isTree built.type = true ∧ OnWay files parts

/-- What a link says of its target. -/
def target (link : ManifestLink) : BuiltLink :=
  ⟨link.hash, link.size, link.type⟩

theorem Opens.mono (h : Opens p store nodes height parts) (hn : height ≤ n) : Opens p store nodes n parts := by
  obtain ⟨built, hbuilt, hsound, hnamed⟩ := h
  refine ⟨built, hbuilt, sound_mono hsound hn, ?_⟩
  rw [hsound.entries_eq hn]
  exact hnamed

theorem Complete.leadsTo (h : Complete p limits files nodes t) (hfiles : Routed files)
    (hparts : ∀ part ∈ parts, IsSegment part) (hbuilt : builtAt nodes (joinPath parts) = some built) :
    LeadsTo p files t parts built := by
  obtain ⟨row, hfound, hrow⟩ := Option.bind_eq_some_iff.mp hbuilt
  obtain ⟨hmem, hpath⟩ := find?_eq_some.mp hfound
  obtain ⟨others, hat⟩ := h.sane.indexed.at hfiles hmem
  obtain rfl := joinPath_inj hat.segments hparts (hat.path.symm.trans hpath)
  rcases hat.kind with ⟨-, file, hfile, hroute⟩ | ⟨-, hway⟩
  · obtain ⟨found, bytes, hat', hcontains, hlength, hleads, -⟩ := h.filed file hfile
    rw [hfiles.canonical file hfile, ← hroute, hbuilt] at hat'
    obtain rfl := Option.some.inj hat'
    refine Or.inl ⟨?_, file, hfile, hroute.symm, bytes, hcontains, hlength, hleads⟩
    generalize built.hash = hash, built.size = size, built.type = type at hleads
    cases hleads with
    | direct => rfl
    | tree => rfl
  · obtain ⟨entries, found, hat', -, hroot, -, -⟩ := h.directories _ hway
    obtain rfl := Option.some.inj (hbuilt.symm.trans hat')
    obtain ⟨-, -, -, level, -, -, -, -, htype, -, -⟩ := hroot.manifest
    refine Or.inr ⟨?_, hway⟩
    rw [builtLink, htype]
    cases level <;> rfl

theorem Complete.builtAt_isSome (h : Complete p limits files nodes t) (hfiles : Routed files)
    (hparts : ∀ part ∈ parts, IsSegment part) :
    (builtAt nodes (joinPath parts)).isSome = true ↔ ∃ file ∈ files, parts <+: segmentsOf file.route := by
  constructor
  · intro hsome
    obtain ⟨built, hbuilt⟩ := Option.isSome_iff_exists.mp hsome
    rcases h.leadsTo hfiles hparts hbuilt with ⟨-, file, hfile, rfl, -⟩ | ⟨-, file, hfile, hbegins, -⟩
    · exact ⟨file, hfile, List.prefix_rfl⟩
    · exact ⟨file, hfile, hbegins⟩
  · rintro ⟨file, hfile, hbegins⟩
    by_cases hproper : parts = segmentsOf file.route
    · obtain ⟨built, -, hbuilt, -⟩ := h.filed file hfile
      rw [hproper, ← hfiles.canonical file hfile, hbuilt]
      rfl
    · obtain ⟨-, built, hbuilt, -⟩ := h.directories parts ⟨file, hfile, hbegins, hproper⟩
      rw [hbuilt]
      rfl

theorem Entries.entryNamed {entries : List ManifestLink} (h : Entries .directory entries)
    {link : ManifestLink} (hlink : link ∈ entries) (hname : link.name = some name) :
    entryNamed entries name = some link := by
  obtain ⟨before, after, rfl⟩ := List.append_of_mem hlink
  refine List.find?_eq_some_iff_append.mpr ⟨by simpa using hname, before, after, rfl, fun other hother => ?_⟩
  have hless := (List.pairwise_append.mp (h.sorted rfl)).2.2 other hother link (by simp)
  rw [Bool.not_eq_true', decide_eq_false_iff_not]
  intro hsame
  rw [nameOf, nameOf, hsame, hname] at hless
  exact List.lt_irrefl _ hless

theorem exists_common {α : Type} {P : ℕ → α → Prop} {l : List α}
    (hmono : ∀ n m x, n ≤ m → P n x → P m x) (h : ∀ x ∈ l, ∃ n, P n x) : ∃ n, ∀ x ∈ l, P n x := by
  induction l with
  | nil => exact ⟨0, by simp⟩
  | cons x l ih =>
    obtain ⟨hx, hrest⟩ := List.forall_mem_cons.mp h
    obtain ⟨n, hn⟩ := hx
    obtain ⟨m, hm⟩ := ih hrest
    exact ⟨max n m, List.forall_mem_cons.mpr ⟨hmono _ _ _ (le_max_left n m) hn,
      fun y hy => hmono _ _ _ (le_max_right n m) (hm y hy)⟩⟩

theorem Complete.opens (h : Complete p limits files nodes t) (hfiles : Routed files)
    (hoffers : Offers p.toPlatform t store) {depth : ℕ}
    (hdepth : ∀ file ∈ files, (segmentsOf file.route).length ≤ depth) (steps : ℕ) :
    ∃ height, ∀ parts, OnWay files parts → depth ≤ parts.length + steps →
      Opens p store nodes height parts := by
  induction steps with
  | zero =>
    refine ⟨0, fun parts hway hlength => ?_⟩
    obtain ⟨file, hfile, hbegins, hproper⟩ := hway
    have hshort : parts.length < (segmentsOf file.route).length :=
      lt_of_le_of_ne hbegins.length_le fun heq => hproper (hbegins.eq_of_length heq)
    have := hdepth file hfile
    omega
  | succ steps ih =>
    obtain ⟨height, hbelow⟩ := ih
    have hone : ∀ parts, OnWay files parts → depth ≤ parts.length + (steps + 1) →
        ∃ height, Opens p store nodes height parts := by
      intro parts hway hlength
      obtain ⟨entries, built, hbuilt, hentries, hroot, -, hnamed⟩ := h.directories parts hway
      obtain ⟨manifest, hmem, wire, level, below, hwire, hhash, htype, hgroup, hholds, hflat⟩ := hroot.manifest
      have hsound : ∀ entry ∈ below.flatten, isTree entry.type = true →
          Sound p.lib store height entry.hash entry.type := by
        rw [hflat]
        intro entry hentry htree
        obtain ⟨name, hname, hsafe⟩ := hentries.named rfl entry hentry
        have hsegment := IsSegment.of_safe hsafe
        have hfound := (hnamed name hsegment).symm.trans (hentries.entryNamed hentry hname)
        obtain ⟨child, hchild, rfl⟩ := Option.map_eq_some_iff.mp hfound
        have hsegments : ∀ part ∈ parts ++ [name], IsSegment part := by
          simpa [or_imp, forall_and] using ⟨hway.segments, hsegment⟩
        rcases h.leadsTo hfiles hsegments hchild with ⟨hfalse, -⟩ | ⟨-, hwayBelow⟩
        · exact absurd (hfalse.symm.trans htree) Bool.false_ne_true
        · obtain ⟨found, hfound, hsound, -⟩ := hbelow _ hwayBelow (by
            rw [List.length_append, List.length_singleton]
            omega)
          obtain rfl := Option.some.inj (hchild.symm.trans hfound)
          exact hsound
      obtain ⟨htree, hlist⟩ := offers_level hoffers hmem hwire htype
        ⟨hentries, hholds, hflat.symm ▸ List.infix_rfl⟩ hsound
      refine ⟨height + level + 1, builtLink built, hbuilt, ?_, ?_⟩
      · rw [builtLink, hhash, hgroup]
        exact htree
      · rw [builtLink, hhash, hlist, hflat]
        refine ⟨hnamed, fun link hlink => ?_⟩
        obtain ⟨name, hname, hsafe⟩ := hentries.named rfl link hlink
        exact ⟨name, .of_safe hsafe, hentries.entryNamed hlink hname⟩
    have hmono : ∀ n m parts, n ≤ m →
        (OnWay files parts → depth ≤ parts.length + (steps + 1) → Opens p store nodes n parts) →
        OnWay files parts → depth ≤ parts.length + (steps + 1) → Opens p store nodes m parts :=
      fun n m parts hle hopens hway hlength => (hopens hway hlength).mono hle
    have hsome : ∀ parts ∈ files.flatMap fun file => (segmentsOf file.route).inits, ∃ n,
        OnWay files parts → depth ≤ parts.length + (steps + 1) → Opens p store nodes n parts := by
      intro parts _
      by_cases hboth : OnWay files parts ∧ depth ≤ parts.length + (steps + 1)
      · obtain ⟨height, hopens⟩ := hone parts hboth.1 hboth.2
        exact ⟨height, fun _ _ => hopens⟩
      · exact ⟨0, fun hway hlength => absurd ⟨hway, hlength⟩ hboth⟩
    obtain ⟨common, hcommon⟩ := exists_common hmono hsome
    refine ⟨common, fun parts hway => ?_⟩
    obtain ⟨file, hfile, hbegins, -⟩ := id hway
    exact hcommon parts (List.mem_flatMap.mpr ⟨file, hfile, (List.mem_inits _ _).mpr hbegins⟩) hway

theorem Complete.all_open (h : Complete p limits files nodes t) (hfiles : Routed files)
    (hoffers : Offers p.toPlatform t store) :
    ∃ height, ∀ parts, OnWay files parts → Opens p store nodes height parts := by
  have hmono : ∀ n m (file : LogicalFile), n ≤ m → (segmentsOf file.route).length ≤ n →
      (segmentsOf file.route).length ≤ m := fun n m file hle hlength => hlength.trans hle
  have hsome : ∀ file ∈ files, ∃ n, (segmentsOf file.route).length ≤ n :=
    fun file _ => ⟨(segmentsOf file.route).length, Nat.le_refl _⟩
  obtain ⟨depth, hdepth⟩ := exists_common hmono hsome
  obtain ⟨height, hopens⟩ := h.opens hfiles hoffers hdepth depth
  exact ⟨height, fun parts hway => hopens parts hway (Nat.le_add_left _ _)⟩

theorem Complete.search_eq (h : Complete p limits files nodes t) (hfiles : Routed files)
    (hopens : ∀ parts, OnWay files parts → Opens p store nodes n parts) (hway : OnWay files parts)
    (hbuilt : builtAt nodes (joinPath parts) = some built)
    (hsegments : ∀ part ∈ front ++ [name], IsSegment part) :
    search store n built.hash (front ++ [name]) =
      (builtAt nodes (joinPath (parts ++ (front ++ [name])))).map (nameLink name) := by
  induction front generalizing parts built with
  | nil =>
    obtain ⟨found, hfound, -, hnamed, -⟩ := hopens parts hway
    obtain rfl := Option.some.inj (hbuilt.symm.trans hfound)
    rw [List.nil_append, search, hnamed name (hsegments name (by simp))]
    cases builtAt nodes (joinPath (parts ++ [name])) with
    | none => rfl
    | some child => rfl
  | cons segment front ih =>
    obtain ⟨found, hfound, -, hnamed, -⟩ := hopens parts hway
    obtain rfl := Option.some.inj (hbuilt.symm.trans hfound)
    have hsegment := hsegments segment (by simp)
    have hhere : ∀ part ∈ parts ++ [segment], IsSegment part := by
      simpa [or_imp, forall_and] using ⟨hway.segments, hsegment⟩
    have hlonger : ∀ part ∈ parts ++ segment :: (front ++ [name]), IsSegment part := by
      intro part hpart
      rcases List.mem_append.mp hpart with hpart | hpart
      · exact hway.segments part hpart
      · exact hsegments part hpart
    rw [List.cons_append, search, hnamed segment hsegment]
    cases hchild : builtAt nodes (joinPath (parts ++ [segment])) with
    | none =>
      cases hlast : builtAt nodes (joinPath (parts ++ segment :: (front ++ [name]))) with
      | none => rfl
      | some last =>
        obtain ⟨file, hfile, hbegins⟩ := (h.builtAt_isSome hfiles hlonger).mp (by rw [hlast]; rfl)
        have hshort : parts ++ [segment] <+: segmentsOf file.route :=
          List.IsPrefix.trans ⟨front ++ [name], by simp⟩ hbegins
        have hsome := (h.builtAt_isSome hfiles hhere).mpr ⟨file, hfile, hshort⟩
        rw [hchild] at hsome
        cases hsome
    | some child =>
      simp only [Option.map_some, List.append_eq_nil_iff, List.cons_ne_nil, and_false, if_false]
      rcases h.leadsTo hfiles hhere hchild with ⟨hleaf, file, hfile, hroute, -⟩ | ⟨htree, hwayBelow⟩
      · rw [nameLink, hleaf, if_neg Bool.false_ne_true]
        cases hlast : builtAt nodes (joinPath (parts ++ segment :: (front ++ [name]))) with
        | none => rfl
        | some last =>
          -- A route would go on where the route of this file ends.
          obtain ⟨other, hother, hbegins⟩ := (h.builtAt_isSome hfiles hlonger).mp (by rw [hlast]; rfl)
          have hshort : segmentsOf file.route <+: segmentsOf other.route :=
            hroute ▸ List.IsPrefix.trans ⟨front ++ [name], by simp⟩ hbegins
          have hsame := hfiles.eq_of_prefix hfile hother hshort
          rw [← hsame, hroute] at hbegins
          have hlength := hbegins.length_le
          simp at hlength
      · rw [nameLink, htree, if_pos rfl]
        have hnext := ih hwayBelow hchild fun part hpart => hsegments part (by
          rw [List.cons_append]
          exact List.mem_cons_of_mem _ hpart)
        rw [List.append_assoc, List.singleton_append] at hnext
        exact hnext

end Directories

section Searching

variable {p : BuildPlatform} {limits : BuildLimits} {files : List LogicalFile} {nodes : Nodes}
variable {t : WriterState} {store : Store} {root : BuiltLink} {parts : List String}

theorem Complete.root_onWay (h : Complete p limits files nodes t) (hfiles : Routed files)
    (hroot : builtAt nodes "" = some root) : OnWay files [] := by
  have hsegments : ∀ part ∈ [], IsSegment part := by simp
  rcases h.leadsTo hfiles hsegments hroot with ⟨-, file, hfile, hempty, -⟩ | ⟨-, hway⟩
  · exact absurd hempty (hfiles.filled file hfile)
  · exact hway

theorem Complete.found (h : Complete p limits files nodes t) (hfiles : Routed files)
    (hroot : builtAt nodes "" = some root) (hoffers : Offers p.toPlatform t store) :
    ∃ height, ∀ n, height ≤ n → Sound p.lib store n root.hash root.type ∧ ∀ path, segmentsOf path ≠ [] →
      ((search store n root.hash (segmentsOf path)).isSome = true ↔
        ∃ file ∈ files, segmentsOf path <+: segmentsOf file.route) ∧
      ∀ link, search store n root.hash (segmentsOf path) = some link →
        LeadsTo p files t (segmentsOf path) (target link) := by
  obtain ⟨height, hopens⟩ := h.all_open hfiles hoffers
  have hway := h.root_onWay hfiles hroot
  refine ⟨height, fun n hn => ⟨?_, fun path hpath => ?_⟩⟩
  · obtain ⟨found, hfound, hsound, -⟩ := hopens [] hway
    obtain rfl := Option.some.inj (hroot.symm.trans hfound)
    exact sound_mono hsound hn
  · have hsegments : ∀ part ∈ segmentsOf path, IsSegment part := fun _ => isSegment_of_mem
    have hsome := h.builtAt_isSome hfiles hsegments
    have hleads : ∀ built, builtAt nodes (joinPath (segmentsOf path)) = some built →
        LeadsTo p files t (segmentsOf path) built := fun _ => h.leadsTo hfiles hsegments
    rcases List.eq_nil_or_concat (segmentsOf path) with hnil | ⟨front, name, hconcat⟩
    · exact absurd hnil hpath
    rw [List.concat_eq_append] at hconcat
    rw [hconcat] at hsegments hsome hleads ⊢
    have hsearch := h.search_eq hfiles (fun parts hway => (hopens parts hway).mono hn) hway hroot hsegments
    rw [List.nil_append] at hsearch
    rw [hsearch]
    refine ⟨by rw [Option.isSome_map, hsome], fun link hlink => ?_⟩
    obtain ⟨built, hbuilt, rfl⟩ := Option.map_eq_some_iff.mp hlink
    exact hleads built hbuilt

def rootNames (files : List LogicalFile) : List String :=
  (files.filterMap fun file => (segmentsOf file.route).head?).dedup

theorem mem_rootNames {name : String} :
    name ∈ rootNames files ↔ ∃ file ∈ files, [name] <+: segmentsOf file.route := by
  rw [rootNames, List.mem_dedup, List.mem_filterMap]
  refine exists_congr fun file => and_congr_right fun _ => ?_
  cases segmentsOf file.route with
  | nil => simp
  | cons first rest => simp [List.cons_prefix_cons, eq_comm]

theorem Complete.root_type (h : Complete p limits files nodes t) (hfiles : Routed files)
    (hroot : builtAt nodes "" = some root) :
    root.type = .directory ↔ (rootNames files).length ≤ limits.maxLinks := by
  have hway := h.root_onWay hfiles hroot
  obtain ⟨entries, built, hbuilt, hentries, -, htype, hnamed⟩ := h.directories [] hway
  obtain rfl := Option.some.inj (hroot.symm.trans hbuilt)
  have hnodup : (entries.map nameOf).Nodup :=
    List.Pairwise.map _ (fun a b hless hsame => by
      rw [byteLess, hsame] at hless
      exact List.lt_irrefl _ hless) (hentries.sorted rfl)
  have hmem : ∀ name, name ∈ entries.map nameOf ↔ name ∈ rootNames files := by
    intro name
    rw [mem_rootNames]
    constructor
    · intro hname
      obtain ⟨entry, hentry, rfl⟩ := List.mem_map.mp hname
      obtain ⟨name, hname, hsafe⟩ := hentries.named rfl entry hentry
      have hsegment := IsSegment.of_safe hsafe
      have hfound := (hnamed name hsegment).symm.trans (hentries.entryNamed hentry hname)
      obtain ⟨child, hchild, -⟩ := Option.map_eq_some_iff.mp hfound
      rw [List.nil_append] at hchild
      rw [nameOf, hname]
      have hsegments : ∀ part ∈ [name], IsSegment part := by simpa using hsegment
      exact (h.builtAt_isSome hfiles hsegments).mp (by rw [hchild]; rfl)
    · rintro ⟨file, hfile, hbegins⟩
      have hsegment : IsSegment name := isSegment_of_mem (hbegins.subset (by simp))
      have hsegments : ∀ part ∈ [name], IsSegment part := by simpa using hsegment
      have hsome := (h.builtAt_isSome hfiles hsegments).mpr ⟨file, hfile, hbegins⟩
      obtain ⟨child, hchild⟩ := Option.isSome_iff_exists.mp hsome
      have hfound := hnamed name hsegment
      rw [List.nil_append, hchild, Option.map_some] at hfound
      exact List.mem_map.mpr ⟨_, (entryNamed_eq_some hfound).1, rfl⟩
  have hperm : (entries.map nameOf).Perm (rootNames files) :=
    (List.perm_ext_iff_of_nodup hnodup (List.nodup_dedup _)).mpr hmem
  have hlength : entries.length = (rootNames files).length := by
    rw [← hperm.length_eq, List.length_map]
  rw [← hlength]
  exact htype

end Searching

end NixstrCache.Hashtree.Writer
