import NixstrCache.Hashtree.BaseImport

/-!
What lies under the root of a candidate.

A later build needs no more of a candidate than the manifests that the root leads to and the blobs that they
name.  An inventory with these carries the tree: over it, everything that has been built is still there.
-/

namespace NixstrCache.Hashtree.Writer

open Protocol
open Persistence (Bytes)

section Manifests

variable {p : Platform} {limits : WriterLimits} {s u : WriterState} {root hash : List UInt8}
variable {manifest : Manifest} {kind : LinkListKind} {level : ℕ} {entries : List ManifestLink}
variable {parts : List (List ManifestLink)} {link : ManifestLink}

def Taken (p : Platform) (s u : WriterState) (hash : List UInt8) : Prop :=
  ∀ manifest ∈ s.written, ∀ wire, encodeManifest p.lib manifest = .ok wire → hash = p.digest wire →
    manifest ∈ u.written

/-- A state has the tree under the root: the manifests that the root leads to, and the blobs that they
name. -/
structure CarriesTree (p : Platform) (s u : WriterState) (root : List UInt8) : Prop where
  kept : u.written ⊆ s.written
  root : Taken p s u root
  below : ∀ manifest ∈ u.written, ∀ link ∈ manifest.links, link.type ≠ .blob → Taken p s u link.hash
  stored : ∀ manifest ∈ u.written, ∀ wire, encodeManifest p.lib manifest = .ok wire →
    ∃ blob ∈ u.inventory, p.digest blob = p.digest wire
  blobs : ∀ manifest ∈ u.written, ∀ link ∈ manifest.links, link.type = .blob →
    ∃ blob ∈ u.inventory, p.digest blob = link.hash

theorem groupType_ne_blob (kind : LinkListKind) (level : ℕ) : groupType kind level ≠ .blob := by
  cases kind with
  | file => exact LinkType.noConfusion
  | directory =>
    rw [groupType]
    split_ifs <;> exact LinkType.noConfusion

theorem CarriesTree.holds (h : CarriesTree p s u root) (hmem : manifest ∈ u.written)
    (hholds : List.Forall₂ (Holds p kind s.written level) manifest.links parts) :
    List.Forall₂ (Holds p kind u.written level) manifest.links parts := by
  induction level generalizing manifest parts with
  | zero => exact hholds
  | succ level ih =>
    refine (forall₂_mem hholds).imp fun link part => ?_
    rintro ⟨⟨hlink, -⟩, child, hchild, wire, below, hwire, hhash, htype, hbelow, hpart, hrepresents⟩
    have htree : link.type ≠ .blob := hrepresents.type ▸ groupType_ne_blob kind level
    have htaken := h.below manifest hmem link hlink htree child hchild wire hwire hhash
    exact ⟨child, htaken, wire, below, hwire, hhash, htype, ih htaken hbelow, hpart, hrepresents⟩

theorem CarriesTree.entry (h : CarriesTree p s u root) (hmem : manifest ∈ u.written)
    (hholds : List.Forall₂ (Holds p kind s.written level) manifest.links parts)
    (hlink : link ∈ parts.flatten) : ∃ above ∈ u.written, link ∈ above.links := by
  induction level generalizing manifest parts with
  | zero =>
    rw [flatten_entries hholds] at hlink
    exact ⟨manifest, hmem, hlink⟩
  | succ level ih =>
    obtain ⟨part, hpart, hin⟩ := List.mem_flatten.mp hlink
    obtain ⟨group, -, ⟨hgroup, -⟩, child, hchild, wire, below, hwire, hhash, -, hbelow, rfl, hrepresents⟩ :=
      forall₂_right (forall₂_mem hholds) hpart
    have htree : group.type ≠ .blob := hrepresents.type ▸ groupType_ne_blob kind level
    exact ih (h.below manifest hmem group hgroup htree child hchild wire hwire hhash) hbelow hin

theorem Root.taken {built : Built} (hroot : Root p kind entries built s.written)
    (h : CarriesTree p s u root) (htaken : Taken p s u built.hash) : Root p kind entries built u.written := by
  obtain ⟨⟨manifest, hmem, wire, level, parts, hwire, hhash, htype, hgroup, hholds, hflat⟩, hsize, hcount,
    hbounds⟩ := hroot
  have hthere := htaken manifest hmem wire hwire hhash
  exact ⟨⟨manifest, hthere, wire, level, parts, hwire, hhash, htype, hgroup, h.holds hthere hholds, hflat⟩,
    hsize, hcount, hbounds⟩

theorem Stocked.taken (h : Stocked p limits s) (hcarries : CarriesTree p s u root) : Stocked p limits u := by
  refine ⟨fun manifest hmem => ?_, fun manifest hmem => ?_⟩
  · obtain ⟨wire, hwire, -⟩ := h.stored manifest (hcarries.kept hmem)
    exact ⟨wire, hwire, hcarries.stored manifest hmem wire hwire⟩
  · obtain ⟨kind, entries, hentries, level, parts, htype, hcount, hholds, hwhole⟩ :=
      h.placed manifest (hcarries.kept hmem)
    exact ⟨kind, entries, hentries, level, parts, htype, hcount, hcarries.holds hmem hholds, hwhole⟩

theorem Leads.taken {bytes : Bytes} (h : Leads p s bytes link.hash link.size link.type)
    (hcarries : CarriesTree p s u root) (hmem : manifest ∈ u.written) (hlink : link ∈ manifest.links) :
    Leads p u bytes link.hash link.size link.type := by
  have hblob := hcarries.blobs manifest hmem link hlink
  have htree := hcarries.below manifest hmem link hlink
  generalize link.hash = hash, link.size = size, link.type = type at h hblob htree
  cases h with
  | direct => exact .direct (hblob rfl)
  | tree chunks built hflat hentries hroot =>
    have htaken := htree (by decide)
    refine .tree chunks built hflat hentries (hroot.taken hcarries htaken) fun chunk hchunk => ?_
    obtain ⟨top, htop, wire, level, parts, hwire, hhash, -, -, hholds, hbelow⟩ := hroot.manifest
    have hentry : linkOf p.digest chunk ∈ parts.flatten := by
      rw [hbelow]
      exact List.mem_map_of_mem hchunk
    obtain ⟨above, habove, hin⟩ := hcarries.entry (htaken top htop wire hwire hhash) hholds hentry
    exact hcarries.blobs above habove _ hin rfl

end Manifests

section Trees

variable {p : BuildPlatform} {limits : BuildLimits} {files : List LogicalFile} {nodes : Nodes}
variable {s u : WriterState} {root built : BuiltLink} {dir parts : List String} {name : String}

theorem Complete.taken_entry (h : Complete p limits files nodes s)
    (hcarries : CarriesTree p.toPlatform s u root.hash) (hway : OnWay files dir) {above : BuiltLink}
    (habove : builtAt nodes (joinPath dir) = some above) (htaken : Taken p.toPlatform s u above.hash)
    (hname : IsSegment name) (hbuilt : builtAt nodes (joinPath (dir ++ [name])) = some built) :
    ∃ manifest ∈ u.written, nameLink name built ∈ manifest.links := by
  obtain ⟨manifest, hmem, wire, level, parts, hwire, hhash, -, hlevel, -, hnamed⟩ := h.manifest hway habove
  have hfound := hnamed name hname
  rw [hbuilt] at hfound
  exact hcarries.entry (htaken manifest hmem wire hwire hhash) hlevel.holds (entryNamed_eq_some hfound).1

theorem Complete.taken (h : Complete p limits files nodes s) (hfiles : Routed files)
    (hroot : builtAt nodes "" = some root) (hcarries : CarriesTree p.toPlatform s u root.hash)
    (hway : OnWay files parts) (hbuilt : builtAt nodes (joinPath parts) = some built) :
    Taken p.toPlatform s u built.hash := by
  induction parts using List.reverseRecOn generalizing built with
  | nil =>
    obtain rfl := Option.some.inj (hroot.symm.trans hbuilt)
    exact hcarries.root
  | append_singleton dir name ih =>
    have hsegments := hway.segments
    have hwayAbove : OnWay files dir := by
      obtain ⟨file, hfile, hbegins, -⟩ := id hway
      refine ⟨file, hfile, (List.prefix_append dir [name]).trans hbegins, ?_⟩
      rintro rfl
      have hlength := hbegins.length_le
      simp at hlength
    obtain ⟨above, habove⟩ : ∃ above, builtAt nodes (joinPath dir) = some above := by
      obtain ⟨-, above, habove, -⟩ := h.directories dir hwayAbove
      exact ⟨_, habove⟩
    obtain ⟨manifest, hmem, hlink⟩ :=
      h.taken_entry hcarries hwayAbove habove (ih hwayAbove habove) (hsegments name (by simp)) hbuilt
    refine hcarries.below manifest hmem _ hlink ?_
    intro hblob
    rcases h.leadsTo hfiles hsegments hbuilt with ⟨-, file, hfile, hroute, -⟩ | ⟨htree, -⟩
    · exact onWay_ne hfiles hfile hway (hroute ▸ (hfiles.canonical file hfile).symm)
    · rw [show built.type = .blob from hblob] at htree
      cases htree

theorem Complete.taken_file (h : Complete p limits files nodes s) (hfiles : Routed files)
    (hroot : builtAt nodes "" = some root) (hcarries : CarriesTree p.toPlatform s u root.hash)
    {file : LogicalFile} (hfile : file ∈ files) (hbuilt : builtAt nodes file.route = some built) :
    ∃ name, ∃ manifest ∈ u.written, nameLink name built ∈ manifest.links := by
  have hroute : file.route = joinPath (segmentsOf file.route) := hfiles.canonical file hfile
  rcases List.eq_nil_or_concat (segmentsOf file.route) with hnil | ⟨dir, name, hconcat⟩
  · exact absurd hnil (hfiles.filled file hfile)
  rw [List.concat_eq_append] at hconcat
  have hway : OnWay files dir := by
    refine ⟨file, hfile, hconcat ▸ List.prefix_append dir [name], ?_⟩
    intro hsame
    have hlength := congrArg List.length (hsame.trans hconcat)
    simp at hlength
  obtain ⟨above, habove⟩ : ∃ above, builtAt nodes (joinPath dir) = some above := by
    obtain ⟨-, above, habove, -⟩ := h.directories dir hway
    exact ⟨_, habove⟩
  have hname : IsSegment name := isSegment_of_mem (hconcat ▸ (by simp : name ∈ dir ++ [name]))
  rw [hroute, hconcat] at hbuilt
  exact ⟨name, h.taken_entry hcarries hway habove (h.taken hfiles hroot hcarries hway habove) hname hbuilt⟩

theorem Complete.carried (h : Complete p limits files nodes s) (hfiles : Routed files)
    (hroot : builtAt nodes "" = some root) (hcarries : CarriesTree p.toPlatform s u root.hash) :
    Complete p limits files nodes u := by
  refine ⟨⟨h.sane.indexed, h.sane.hashed, h.sane.stocked.taken hcarries, h.sane.count⟩, fun file hfile => ?_,
    fun parts hway => ?_⟩
  · obtain ⟨built, bytes, hbuilt, hcontains, hlength, hleads, hsize⟩ := h.filed file hfile
    obtain ⟨name, manifest, hmem, hlink⟩ := h.taken_file hfiles hroot hcarries hfile hbuilt
    have hbehind : Leads p.toPlatform s bytes (nameLink name built).hash (nameLink name built).size
      (nameLink name built).type := hleads
    exact ⟨built, bytes, hbuilt, hcontains, hlength, hbehind.taken hcarries hmem hlink, hsize⟩
  · obtain ⟨entries, built, hbuilt, hentries, hrootBuilt, htype, hnamed⟩ := h.directories parts hway
    exact ⟨entries, built, hbuilt, hentries,
      hrootBuilt.taken hcarries (h.taken hfiles hroot hcarries hway hbuilt), htype, hnamed⟩

end Trees

end NixstrCache.Hashtree.Writer
