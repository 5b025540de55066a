import NixstrCache.Hashtree.CandidateInventory
import NixstrCache.Hashtree.TreeInventory

/-!
A reader of what builds have written.

The reader of a request decodes what its sources give under a hash.  It finds the manifests of a candidate
and the parts of the files, whatever else the sources have.  What it has materialized from the root is a base
for the next build.
-/

namespace NixstrCache.Hashtree.Writer

open Protocol Programs
open Persistence (Bytes)
open Reader (World Session HashtreeBuild)

section Worlds

variable {p : BuildPlatform} {limits : WriterLimits} {readLimits : ManifestLimits}
variable {files : List LogicalFile} {t : WriterState} {w : World} {manifest : Manifest}
variable {wire : List UInt8} {level height n : ℕ}

/-- A reader decodes manifests within the limits.  Under the digests of the manifests and of the parts of the
files it finds these, and no other blobs with the same digests. -/
structure Shows (p : BuildPlatform) (readLimits : ManifestLimits) (files : List LogicalFile)
    (t : WriterState) (w : World) : Prop where
  decode : ∀ bytes, w.decode bytes = (decodeValidatedManifest p.lib bytes readLimits).toOption
  manifests : ∀ manifest ∈ t.written, ∀ wire, encodeManifest p.lib manifest = .ok wire →
    w.content (p.digest wire) = wire
  contents : ∀ file ∈ files, ∀ bytes, file.Contains p.digest bytes → ∀ chunk, chunk <:+: bytes →
    w.content (p.digest chunk) = chunk

/-- The manifests that a reader finds, without the costs of finding them. -/
def worldStore (w : World) : Store := fun hash =>
  (w.manifest hash).map fun validated => ⟨validated, 0, 0⟩

theorem Shows.validated (h : Shows p readLimits files t w) (hdigest : ∀ bytes, (p.digest bytes).length = 32)
    (ht : Stocked p.toPlatform limits t) (hread : Readable p.toPlatform limits readLimits t)
    (hmem : manifest ∈ t.written) (hwire : encodeManifest p.lib manifest = .ok wire) :
    ∃ validated, w.manifest (p.digest wire) = some validated ∧ validated.manifest = manifest ∧
      Accepted p.lib validated := by
  have hdecoded := ht.decoded hdigest hread hmem hwire
  rw [decodeManifest] at hdecoded
  cases hvalidated : decodeValidatedManifest p.lib wire readLimits with
  | error e =>
    rw [hvalidated] at hdecoded
    cases hdecoded
  | ok validated =>
    rw [hvalidated] at hdecoded
    refine ⟨validated, ?_, Except.ok.inj hdecoded, wire, readLimits, hvalidated⟩
    rw [World.manifest, h.manifests _ hmem wire hwire, h.decode, hvalidated]
    rfl

theorem Shows.offers (h : Shows p readLimits files t w) (hdigest : ∀ bytes, (p.digest bytes).length = 32)
    (ht : Stocked p.toPlatform limits t) (hread : Readable p.toPlatform limits readLimits t) :
    Offers p.toPlatform t (worldStore w) := by
  intro manifest hmem wire hwire
  obtain ⟨validated, hfound, hmanifest, haccepted⟩ := h.validated hdigest ht hread hmem hwire
  exact ⟨⟨validated, 0, 0⟩, by rw [worldStore, hfound]; rfl, hmanifest, haccepted⟩

theorem Shows.leaves (h : Shows p readLimits files t w) (hdigest : ∀ bytes, (p.digest bytes).length = 32)
    (ht : Stocked p.toPlatform limits t) (hread : Readable p.toPlatform limits readLimits t)
    {entries : List ManifestLink} {parts : List (List ManifestLink)}
    (hmem : manifest ∈ t.written) (hwire : encodeManifest p.lib manifest = .ok wire)
    (hlevel : Level p.toPlatform .file entries t.written level manifest.links parts)
    (hheight : level < height) :
    Reader.leaves w height (p.digest wire) = parts.flatten.map fun link => ⟨link.hash, link.size⟩ := by
  induction level generalizing manifest wire parts height with
  | zero =>
    obtain ⟨height, rfl⟩ := Nat.exists_eq_add_of_le' hheight
    obtain ⟨validated, hfound, rfl, -⟩ := h.validated hdigest ht hread hmem hwire
    have hflat := flatten_entries hlevel.holds
    rw [Reader.leaves_succ hfound, hflat, List.map_eq_flatMap]
    refine List.flatMap_congr fun link hlink => ?_
    have hentry := hlevel.lawful.file rfl link (hlevel.whole.subset (hflat.symm ▸ hlink))
    rw [Reader.leavesOf, hentry.2]
  | succ level ih =>
    obtain ⟨height, rfl⟩ := Nat.exists_eq_add_of_le' (Nat.one_le_of_lt hheight)
    obtain ⟨validated, hfound, rfl, -⟩ := h.validated hdigest ht hread hmem hwire
    have hchildren : List.Forall₂ (fun link part => Reader.leavesOf w height link =
        part.map fun link => ⟨link.hash, link.size⟩) validated.manifest.links parts := by
      refine (forall₂_mem hlevel.holds).imp fun link part => ?_
      rintro ⟨⟨-, hpart⟩, child, hchild, childWire, below, hchildWire, hhash, -, hbelow, rfl, hrepresents⟩
      have hwhole := (List.infix_of_mem_flatten hpart).trans hlevel.whole
      have htype : link.type = .file := hrepresents.type
      rw [Reader.leavesOf, htype, hhash]
      exact ih hchild hchildWire ⟨hlevel.lawful, hbelow, hwhole⟩ (by omega)
    rw [Reader.leaves_succ hfound]
    clear hfound hmem hwire hlevel
    generalize validated.manifest.links = links at hchildren
    induction hchildren with
    | nil => rfl
    | cons hfirst _ ih => rw [List.flatMap_cons, List.flatten_cons, List.map_append, hfirst, ih]

end Worlds

section Bases

variable {p : BuildPlatform} {limits : WriterLimits} {readLimits : ManifestLimits}
variable {files : List LogicalFile} {s : WriterState} {w : World} {traversal : Reader.TraversalLimits}
variable {root : List UInt8} {fetched : HashtreeBuild} {v : Session} {hashes : List (List UInt8)}
variable {manifest : Manifest} {wire : Bytes}

/-- The bytes of the blobs that have been materialized. -/
def blobsOf (w : World) (fetched : HashtreeBuild) : List Bytes :=
  fetched.inventory.map fun blob => w.content blob.1

def writtenAt (p : Platform) (s : WriterState) (hashes : List (List UInt8)) : List Manifest :=
  s.written.filter fun manifest =>
    match encodeManifest p.lib manifest with
    | .ok wire => p.digest wire ∈ hashes
    | .error _ => false

theorem mem_writtenAt (hwire : encodeManifest p.lib manifest = .ok wire) :
    manifest ∈ writtenAt p.toPlatform s hashes ↔ manifest ∈ s.written ∧ p.digest wire ∈ hashes := by
  rw [writtenAt, List.mem_filter, hwire]
  simp

theorem Shows.carries (h : Shows p readLimits files s w) (hdigest : ∀ bytes, (p.digest bytes).length = 32)
    (hs : Stocked p.toPlatform limits s) (hread : Readable p.toPlatform limits readLimits s)
    (haddressed : ∀ blob ∈ fetched.inventory, p.digest (w.content blob.1) = blob.1)
    (hfetched : Reader.materialize w traversal root .initial = .ok fetched v) :
    ∃ kept, CarriesTree p.toPlatform s ⟨blobsOf w fetched, kept⟩ root ∧
      Readable p.toPlatform limits readLimits ⟨blobsOf w fetched, kept⟩ := by
  obtain ⟨traversed, hroot, hclosed⟩ := Reader.materialize_closed hfetched
  have hhas : ∀ hash, fetched.Has hash → ∃ blob ∈ blobsOf w fetched, p.digest blob = hash := by
    rintro hash ⟨blob, hblob, rfl⟩
    exact ⟨_, List.mem_map_of_mem hblob, haddressed blob hblob⟩
  have hkept : writtenAt p.toPlatform s traversed ⊆ s.written := fun _ hmem => (List.mem_filter.mp hmem).1
  have htaken : ∀ hash ∈ traversed,
      Taken p.toPlatform s ⟨blobsOf w fetched, writtenAt p.toPlatform s traversed⟩ hash := by
    rintro hash hhash manifest hmem wire hwire rfl
    exact (mem_writtenAt hwire).mpr ⟨hmem, hhash⟩
  -- The manifests with the hashes are the ones that have been decoded.
  have hmanifests : ∀ manifest ∈ writtenAt p.toPlatform s traversed, ∃ wire,
      encodeManifest p.lib manifest = .ok wire ∧ fetched.Has (p.digest wire) ∧
      ∀ link ∈ manifest.links, if link.type = .blob then fetched.Has link.hash else link.hash ∈ traversed := by
    intro manifest hmem
    obtain ⟨wire, hwire, -⟩ := hs.stored manifest (hkept hmem)
    obtain ⟨hhas, decoded, hdecoded, hlinks⟩ := hclosed _ ((mem_writtenAt hwire).mp hmem).2
    obtain ⟨validated, hfound, rfl, -⟩ := h.validated hdigest hs hread (hkept hmem) hwire
    obtain rfl := Option.some.inj (hdecoded.symm.trans hfound)
    exact ⟨wire, hwire, hhas, hlinks⟩
  refine ⟨writtenAt p.toPlatform s traversed, ⟨hkept, htaken root hroot, ?_, ?_, ?_⟩, ?_⟩
  · intro manifest hmem link hlink htree
    obtain ⟨wire, -, -, hlinks⟩ := hmanifests manifest hmem
    have hbelow := hlinks link hlink
    rw [if_neg htree] at hbelow
    exact htaken _ hbelow
  · intro manifest hmem wire hwire
    obtain ⟨wire', hwire', hfound, -⟩ := hmanifests manifest hmem
    obtain rfl := Except.ok.inj (hwire.symm.trans hwire')
    exact hhas _ hfound
  · intro manifest hmem link hlink hblob
    obtain ⟨wire, -, -, hlinks⟩ := hmanifests manifest hmem
    have hbelow := hlinks link hlink
    rw [if_pos hblob] at hbelow
    exact hhas _ hbelow
  · refine ⟨fun manifest hmem => hread.supported manifest (hkept hmem), hread.links, hread.safe,
      fun manifest hmem => hread.wire manifest (hkept hmem),
      fun manifest hmem => hread.cost manifest (hkept hmem), fun manifest hmem wire hwire other hother hsame => ?_⟩
    obtain ⟨blob, hblob, rfl⟩ := List.mem_map.mp hother
    rw [haddressed blob hblob] at hsame
    rw [hsame, h.manifests manifest (hkept hmem) wire hwire]

end Bases

end NixstrCache.Hashtree.Writer
