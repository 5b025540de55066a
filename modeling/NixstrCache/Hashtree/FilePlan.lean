import NixstrCache.Hashtree.Reader

/-!
The plan of a file.

A file is a manifest with links to blobs and to further file manifests.  The plan goes through them in
order, visits a shared manifest as often as it is linked, and collects the blobs with the sizes that the
links declare.  A nested manifest must have the size that its link says.
-/

namespace NixstrCache.Hashtree.Reader

open Protocol Programs

structure Chunk where
  hash : Hash
  size : ℕ
deriving DecidableEq, Repr

structure FilePlan where
  size : ℕ
  chunks : List Chunk
deriving DecidableEq, Repr

variable (w : World) (limits : TraversalLimits)

section Model

def takeUp (hash : Hash) (depth : ℕ) : Program Unit :=
  modify fun s => { s with visits := (hash, depth) :: s.visits }

/-- What a link of a file adds to the plan. -/
def planLink (visit : Hash → Program FilePlan) (link : ManifestLink) : Program FilePlan :=
  match link.type with
  | .blob => pure ⟨link.size, [⟨link.hash, link.size⟩]⟩
  | .file => do
    let child ← visit link.hash
    refuse (link.size ≠ child.size)
      (.failed "nested file manifest size differs from authenticated link")
    pure child
  | _ => throw (.failed "invalid file-manifest child type")

def planLinks (visit : Hash → Program FilePlan) : List ManifestLink → FilePlan → Program FilePlan
  | [], plan => pure plan
  | link :: links, plan => do
    let child ← planLink visit link
    refuse (maxSafeInteger < plan.size + child.size)
      (.budgetExceeded "file output size is not a safe integer")
    ensureOutputAvailable w limits (plan.size + child.size)
    planLinks visit links ⟨plan.size + child.size, plan.chunks ++ child.chunks⟩

/-- `visit` of `#filePlan`. -/
def planFile : ℕ → ℕ → Hash → Program FilePlan
  | 0, _, _ => throw .spinning
  | fuel + 1, depth, hash => do
    throwIfAborted w
    checkDepth w limits depth
    let manifest ← manifestOf w limits hash
    takeUp hash depth
    refuse (manifest.type ≠ .file) (.failed "file link did not resolve to a file manifest")
    debitLinks w limits manifest.links.length
    planLinks w limits (planFile fuel (depth + 1)) manifest.links ⟨0, []⟩

def filePlan (hash : Hash) (expectedSize : ℕ) : Program FilePlan := do
  let plan ← planFile w limits (limits.maxDepth + 1) 1 hash
  refuse (expectedSize ≠ plan.size)
    (.failed "file manifest size differs from authenticated directory link")
  pure plan

end Model

section Trees

/-- The blobs of a file in the order of the links, as far as this height. -/
def leaves : ℕ → Hash → List Chunk
  | 0, _ => []
  | height + 1, hash =>
    match w.manifest hash with
    | none => []
    | some decoded => decoded.manifest.links.flatMap fun link =>
      match link.type with
      | .blob => [⟨link.hash, link.size⟩]
      | .file => leaves height link.hash
      | _ => []

/-- The links to nested manifests, each with the blobs below it. -/
def nestedFiles : ℕ → Hash → List (ManifestLink × List Chunk)
  | 0, _ => []
  | height + 1, hash =>
    match w.manifest hash with
    | none => []
    | some decoded => decoded.manifest.links.flatMap fun link =>
      match link.type with
      | .file => (link, leaves w height link.hash) :: nestedFiles height link.hash
      | _ => []

def totalSize (chunks : List Chunk) : ℕ :=
  (chunks.map Chunk.size).sum

/-- The plan has the blobs of the file, and every size in it is the sum of those below. -/
structure Planned (w : World) (height : ℕ) (hash : Hash) (plan : FilePlan) : Prop where
  chunks : plan.chunks = leaves w height hash
  size : plan.size = totalSize plan.chunks
  nested : ∀ nested ∈ nestedFiles w height hash, nested.1.size = totalSize nested.2

end Trees

section Plans

variable {w limits} {s t : Session}

theorem totalSize_append (first second : List Chunk) :
    totalSize (first ++ second) = totalSize first + totalSize second := by
  simp [totalSize]

def leavesOf (w : World) (height : ℕ) (link : ManifestLink) : List Chunk :=
  match link.type with
  | .blob => [⟨link.hash, link.size⟩]
  | .file => leaves w height link.hash
  | _ => []

def nestedOf (w : World) (height : ℕ) (link : ManifestLink) : List (ManifestLink × List Chunk) :=
  match link.type with
  | .file => (link, leaves w height link.hash) :: nestedFiles w height link.hash
  | _ => []

theorem planLink_ok {visit : Hash → Program FilePlan} {height : ℕ} {link : ManifestLink}
    {child : FilePlan} (hvisit : ∀ hash s plan t, visit hash s = .ok plan t → Planned w height hash plan)
    (h : planLink visit link s = .ok child t) : child.chunks = leavesOf w height link ∧
      child.size = totalSize child.chunks ∧
        ∀ nested ∈ nestedOf w height link, nested.1.size = totalSize nested.2 := by
  rw [planLink] at h
  rw [leavesOf, nestedOf]
  cases htype : link.type with
  | blob =>
    rw [htype] at h
    obtain ⟨rfl, rfl⟩ := EStateM.Result.ok.inj h
    exact ⟨rfl, by simp [totalSize], by simp⟩
  | file =>
    rw [htype] at h
    obtain ⟨plan, u, hplan, h⟩ := bind_ok.mp h
    obtain ⟨_, u', hsize, h⟩ := bind_ok.mp h
    obtain ⟨rfl, rfl⟩ := EStateM.Result.ok.inj h
    have hplanned := hvisit _ _ _ _ hplan
    refine ⟨hplanned.chunks, hplanned.size, ?_⟩
    intro nested hnested
    rcases List.mem_cons.mp hnested with rfl | hnested
    · have heq : link.size = plan.size := by simpa using (refuse_ok hsize).1
      rw [heq, hplanned.size, hplanned.chunks]
    · exact hplanned.nested nested hnested
  | directory =>
    rw [htype] at h
    exact nomatch h
  | fanout =>
    rw [htype] at h
    exact nomatch h

theorem planLinks_ok {visit : Hash → Program FilePlan} {height : ℕ} {links : List ManifestLink}
    {plan result : FilePlan}
    (hvisit : ∀ hash s plan t, visit hash s = .ok plan t → Planned w height hash plan)
    (hsize : plan.size = totalSize plan.chunks)
    (h : planLinks w limits visit links plan s = .ok result t) :
    result.chunks = plan.chunks ++ links.flatMap (leavesOf w height) ∧
      result.size = totalSize result.chunks ∧
        ∀ nested ∈ links.flatMap (nestedOf w height), nested.1.size = totalSize nested.2 := by
  induction links generalizing plan s with
  | nil =>
    obtain ⟨rfl, rfl⟩ := EStateM.Result.ok.inj h
    exact ⟨by simp, hsize, by simp⟩
  | cons link links ih =>
    obtain ⟨child, u, hchild, h⟩ := bind_ok.mp h
    obtain ⟨_, _, -, h⟩ := bind_ok.mp h
    obtain ⟨_, _, -, h⟩ := bind_ok.mp h
    obtain ⟨hchunks, hchildSize, hnested⟩ := planLink_ok hvisit hchild
    have hnext : plan.size + child.size = totalSize (plan.chunks ++ child.chunks) := by
      rw [totalSize_append, hsize, hchildSize]
    obtain ⟨hall, hresult, hrest⟩ := ih hnext h
    refine ⟨?_, hresult, ?_⟩
    · rw [hall, List.append_assoc, hchunks, List.flatMap_cons]
    · intro nested hmem
      rw [List.flatMap_cons, List.mem_append] at hmem
      rcases hmem with hmem | hmem
      · exact hnested nested hmem
      · exact hrest nested hmem

theorem leaves_succ {height : ℕ} {hash : Hash} {decoded : ValidatedManifest}
    (h : w.manifest hash = some decoded) :
    leaves w (height + 1) hash = decoded.manifest.links.flatMap (leavesOf w height) := by
  rw [leaves, h]
  rfl

theorem nestedFiles_succ {height : ℕ} {hash : Hash} {decoded : ValidatedManifest}
    (h : w.manifest hash = some decoded) :
    nestedFiles w (height + 1) hash = decoded.manifest.links.flatMap (nestedOf w height) := by
  rw [nestedFiles, h]
  rfl

theorem planFile_ok {fuel depth height : ℕ} {hash : Hash} {plan : FilePlan}
    (h : planFile w limits fuel depth hash s = .ok plan t) (hheight : fuel ≤ height) :
    Planned w height hash plan := by
  induction fuel generalizing depth height hash plan s t with
  | zero => exact nomatch h
  | succ fuel ih =>
    obtain ⟨height, rfl⟩ : ∃ below, height = below + 1 := ⟨height - 1, by omega⟩
    obtain ⟨_, _, -, h⟩ := bind_ok.mp h
    obtain ⟨_, _, -, h⟩ := bind_ok.mp h
    obtain ⟨manifest, _, hmanifest, h⟩ := bind_ok.mp h
    obtain ⟨_, _, -, h⟩ := bind_ok.mp h
    obtain ⟨_, _, -, h⟩ := bind_ok.mp h
    obtain ⟨_, _, -, h⟩ := bind_ok.mp h
    obtain ⟨decoded, hdecoded, rfl⟩ := manifestOf_ok hmanifest
    have hbelow : ∀ hash s plan t, planFile w limits fuel (depth + 1) hash s = .ok plan t →
        Planned w height hash plan :=
      fun _ _ _ _ hvisit => ih hvisit (Nat.le_of_succ_le_succ hheight)
    obtain ⟨hchunks, hsize, hnested⟩ := planLinks_ok hbelow rfl h
    refine ⟨?_, hsize, ?_⟩
    · rw [leaves_succ hdecoded, hchunks, List.nil_append]
    · rw [nestedFiles_succ hdecoded]
      exact hnested

theorem filePlan_ok {hash : Hash} {expectedSize height : ℕ} {plan : FilePlan}
    (h : filePlan w limits hash expectedSize s = .ok plan t) (hheight : limits.maxDepth < height) :
    Planned w height hash plan ∧ plan.size = expectedSize := by
  obtain ⟨found, _, hfound, h⟩ := bind_ok.mp h
  obtain ⟨_, _, hsize, h⟩ := bind_ok.mp h
  obtain ⟨rfl, rfl⟩ := EStateM.Result.ok.inj h
  have hsame : expectedSize = found.size := by simpa using (refuse_ok hsize).1
  exact ⟨planFile_ok hfound hheight, hsame.symm⟩

end Plans

end NixstrCache.Hashtree.Reader
