import NixstrCache.Hashtree.CarriedTree

/-!
Builds one after the other.

A build starts from the candidate of the one before it, of which it needs no more than the tree under the
root.  It merges its files into the tree: a file takes the place of the one with its route, and every other
file keeps the link that it has.
-/

namespace NixstrCache.Hashtree.Writer

open Protocol Programs

variable {p : BuildPlatform} {limits : BuildLimits} {readLimits : ManifestLimits}
variable {before files : List LogicalFile} {root root' : BuiltLink} {s t u : WriterState} {store : Store}

/-- What a sequence of builds has published: the files, the link to the root, and the state of the last
build.  A build begins with the tree of the candidate before it, in the inventory of its base. -/
inductive Published (p : BuildPlatform) (limits : BuildLimits) (readLimits : ManifestLimits) :
    List LogicalFile → BuiltLink → WriterState → Prop
  | first {files : List LogicalFile} {root : BuiltLink} {t : WriterState} (hadd : Addable [] files)
    (hbuild : build p limits files none ⟨[], []⟩ = .ok root t) : Published p limits readLimits files root t
  | next {before files : List LogicalFile} {root root' : BuiltLink} {s t u : WriterState}
    (h : Published p limits readLimits before root s) (hcarries : CarriesTree p.toPlatform s u root.hash)
    (hread : Readable p.toPlatform limits.toWriterLimits readLimits u) (hadd : Addable before files)
    (hbuild : build p limits files (some ⟨root.hash, u.inventory⟩) ⟨[], u.written⟩ = .ok root' t) :
    Published p limits readLimits (merged before files) root' t

/-- A candidate for files: the link to the root of a tree over them. -/
def Candidate (p : BuildPlatform) (limits : BuildLimits) (files : List LogicalFile) (nodes : Nodes)
    (root : BuiltLink) (t : WriterState) : Prop :=
  Complete p limits files nodes t ∧ builtAt nodes "" = some root ∧ Routed files

theorem build_first (hlimit : 2 ≤ limits.maxLinks) (hdigest : ∀ bytes, (p.digest bytes).length = 32)
    (hadd : Addable [] files) (hbuild : build p limits files none ⟨[], []⟩ = .ok root t) :
    ∃ nodes, Candidate p limits files nodes root t := by
  have hstart : startNodes p limits none ⟨[], []⟩ = .ok KeyedTable.Table.empty ⟨[], []⟩ := rfl
  obtain ⟨nodes, hcomplete, hroot, hfiles, -⟩ :=
    build_complete hadd hlimit hdigest hbuild hstart (begun_empty _ ⟨by simp, by simp⟩)
  rw [merged_nil_left] at hcomplete hfiles
  exact ⟨nodes, hcomplete, hroot, hfiles⟩

theorem build_next {nodes : Nodes} (hlimit : 2 ≤ limits.maxLinks)
    (hdigest : ∀ bytes, (p.digest bytes).length = 32) (h : Candidate p limits before nodes root s)
    (hcarries : CarriesTree p.toPlatform s u root.hash)
    (hread : Readable p.toPlatform limits.toWriterLimits readLimits u) (hadd : Addable before files)
    (hbuild : build p limits files (some ⟨root.hash, u.inventory⟩) ⟨[], u.written⟩ = .ok root' t) :
    ∃ result, Candidate p limits (merged before files) result root' t ∧ u.written ⊆ t.written ∧
      ∀ old ∈ before, (∀ file ∈ files, old.route ≠ file.route) →
        builtAt result old.route = builtAt nodes old.route := by
  obtain ⟨hcomplete, hroot, hbefore⟩ := h
  obtain ⟨start, v, hstart, -⟩ := bind_ok.mp hbuild
  obtain ⟨⟨hbegun, hlinks⟩, hwritten⟩ :=
    (hcomplete.carried hbefore hroot hcarries).startNodes hbefore hroot hdigest hread hstart
  obtain ⟨result, hresult, hrootAt, hfiles, hgrows, hkept⟩ :=
    build_complete hadd hlimit hdigest hbuild hstart hbegun
  refine ⟨result, ⟨hresult, hrootAt, hfiles⟩, hwritten ▸ hgrows.written, fun old hold hroutes => ?_⟩
  exact (hkept old hold hroutes).trans (hlinks old hold)

theorem Published.candidate (h : Published p limits readLimits files root t) (hlimit : 2 ≤ limits.maxLinks)
    (hdigest : ∀ bytes, (p.digest bytes).length = 32) : ∃ nodes, Candidate p limits files nodes root t := by
  induction h with
  | first hadd hbuild => exact build_first hlimit hdigest hadd hbuild
  | next _ hcarries hread hadd hbuild ih =>
    obtain ⟨nodes, hcandidate⟩ := ih
    obtain ⟨result, hresult, -⟩ := build_next hlimit hdigest hcandidate hcarries hread hadd hbuild
    exact ⟨result, hresult⟩

theorem Offers.mono {q : Platform} (h : Offers q t store) (hwritten : s.written ⊆ t.written) :
    Offers q s store :=
  fun manifest hmem => h manifest (hwritten hmem)

end NixstrCache.Hashtree.Writer
