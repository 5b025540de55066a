import NixstrCache.Hashtree.Collapse
import NixstrCache.Lib.Chunks
import NixstrCache.Persistence.Schema

/-!
The files of a candidate.

A file comes from a path, which is read in pieces of any size, or from the components of a route, which the
blob store has already.  Both are cut into chunks of one size, and a file of more than one chunk becomes a
tree of file manifests.
-/

namespace NixstrCache.Hashtree.Writer

open Protocol Programs Chunks
open Persistence (Bytes)

abbrev RouteComponent := Persistence.RouteComponent (List UInt8)

def fileChunkBytes : ℕ := 2097152

/-- The platform together with the lookups of the blob store, which names every blob by its digest. -/
structure BuildPlatform extends Platform where
  lookup : WriterState → List UInt8 → Option Bytes
  named : ∀ s hash bytes, lookup s hash = some bytes → digest bytes = hash

inductive FileSource where
  | unavailable
  /-- What the reads of the opened file return, one after the other. -/
  | path (reads : List Bytes)
  | components (components : List RouteComponent)

structure LogicalFile where
  route : String
  source : FileSource
  size : ℕ

variable (p : BuildPlatform) (limits : WriterLimits)

section Model

/-- `registerCandidate`: the steps of `persist` but for the admission. -/
def registerCandidate (bytes : Bytes) : Program (List UInt8) :=
  persist { p.toPlatform with admission := fun _ => .ok () } limits bytes

def chunkLink (hash : List UInt8) (size : ℕ) : ManifestLink :=
  ⟨hash, none, none, none, size, .blob⟩

/-- The loop over the reads of a file, with the chunk that is being filled. -/
def readChunks : List Bytes → Bytes → Program (List ManifestLink)
  | [], chunk =>
    if chunk = [] then pure []
    else do
      let hash ← persist p.toPlatform limits chunk
      pure [chunkLink hash chunk.length]
  | piece :: reads, chunk =>
    if (chunk ++ piece).length < fileChunkBytes then readChunks reads (chunk ++ piece)
    else do
      let hash ← persist p.toPlatform limits (chunk ++ piece)
      let links ← readChunks reads []
      pure (chunkLink hash (chunk ++ piece).length :: links)

def addComponents : ℕ → Option ℕ → List RouteComponent → Program (List ManifestLink)
  | _, _, [] => pure []
  | sequence, previousSize, component :: components => do
    let s ← get
    if component.index ≠ sequence then throw (.error "route component order changed")
    else if component.size = 0 ∨ fileChunkBytes < component.size ∨
        previousSize.any (· ≠ fileChunkBytes) then
      throw (.error "route component chunking changed")
    else
      match p.lookup s component.hash with
      | none => throw (.error "route component unavailable")
      | some bytes =>
        if bytes.length ≠ component.size then throw (.error "route component unavailable")
        else do
          let hash ← registerCandidate p limits bytes
          let links ← addComponents (sequence + 1) (some component.size) components
          pure (chunkLink hash component.size :: links)

def sortedComponents (components : List RouteComponent) : List RouteComponent :=
  components.insertionSort fun a b => a.index ≤ b.index

def chunkLinks : FileSource → Program (List ManifestLink)
  | .unavailable => throw (.error "logical file source unavailable")
  | .path reads => readChunks p limits reads []
  | .components components => addComponents p limits 0 none (sortedComponents components)

def reread (hash : List UInt8) (message : String) : Program Unit := do
  let s ← get
  if (p.lookup s hash).isNone then throw (.error message) else pure ()

def directFile (hash : List UInt8) (size : ℕ) : Program Built := do
  reread p hash "built raw blob unavailable"
  pure ⟨hash, size, .blob, 1, none, none⟩

/-- `collapse`, with a list of its own for the manifests that it writes. -/
def collapseApart (kind : LinkListKind) (links : List ManifestLink) : Program Built := fun s =>
  match collapse p.toPlatform limits kind links ⟨s.inventory, []⟩ with
  | .ok built t => .ok built ⟨t.inventory, s.written ++ t.written⟩
  | .error e t => .error e ⟨t.inventory, s.written ++ t.written⟩

def buildFile (file : LogicalFile) : Program Built := do
  let links ← chunkLinks p limits file.source
  if (links.map ManifestLink.size).sum ≠ file.size then throw (.error "frozen file size changed")
  else
    match links with
    | [] => do
      let hash ← persist p.toPlatform limits []
      directFile p hash 0
    | [link] => directFile p link.hash link.size
    | links => do
      let built ← collapseApart p limits .file links
      reread p built.hash "built manifest unavailable"
      pure built

end Model

section Chunks

variable {p : BuildPlatform} {limits : WriterLimits} {s t : WriterState}
variable {reads chunks : List Bytes} {links : List ManifestLink}

/-- The chunks of a file are persisted in their order. -/
def persistAll (p : Platform) (limits : WriterLimits) : List Bytes → Program (List ManifestLink)
  | [] => pure []
  | chunk :: chunks => do
    let hash ← persist p limits chunk
    let links ← persistAll p limits chunks
    pure (chunkLink hash chunk.length :: links)

theorem readChunks_eq (reads : List Bytes) (chunk : Bytes) :
    readChunks p limits reads chunk =
      persistAll p.toPlatform limits (gather fileChunkBytes reads chunk) := by
  induction reads generalizing chunk with
  | nil =>
    rw [readChunks, gather]
    split_ifs
    · rfl
    · rfl
  | cons piece reads ih =>
    rw [readChunks, gather]
    split_ifs
    · exact ih _
    · rw [persistAll, ih []]

def HasRoom (limits : WriterLimits) (s : WriterState) (size : ℕ) : Prop :=
  s.inventory.length + 1 ≤ limits.maxInventoryBlobs ∧
    (s.inventory.map List.length).sum + size ≤ limits.maxInventoryBytes

theorem persist_eq_ok {q : Platform} {bytes hash : List UInt8} :
    persist q limits bytes s = .ok hash t ↔ hash = q.digest bytes ∧
      ((∃ existing, s.inventory.find? (fun blob => q.digest blob = q.digest bytes) = some existing ∧
        existing.length = bytes.length ∧ t = s) ∨
      (s.inventory.find? (fun blob => q.digest blob = q.digest bytes) = none ∧
        HasRoom limits s bytes.length ∧ q.admission bytes = .ok () ∧
        t = { s with inventory := s.inventory ++ [bytes] })) := by
  unfold persist
  rw [get_bind]
  cases hfound : s.inventory.find? fun blob => decide (q.digest blob = q.digest bytes) with
  | some existing =>
    dsimp only
    by_cases hsame : existing.length = bytes.length
    · rw [if_pos hsame]
      constructor
      · intro h
        obtain ⟨rfl, rfl⟩ := EStateM.Result.ok.inj h
        exact ⟨rfl, Or.inl ⟨existing, rfl, hsame, rfl⟩⟩
      · rintro ⟨rfl, ⟨_, -, -, rfl⟩ | ⟨hnone, -⟩⟩
        · rfl
        · cases hnone
    · rw [if_neg hsame]
      constructor
      · intro h
        cases h
      · rintro ⟨-, ⟨other, hother, hlength, -⟩ | ⟨hnone, -⟩⟩
        · cases hother
          exact absurd hlength hsame
        · cases hnone
  | none =>
    dsimp only
    by_cases hfull : limits.maxInventoryBlobs < s.inventory.length + 1 ∨
        limits.maxInventoryBytes < (s.inventory.map List.length).sum + bytes.length
    · rw [if_pos hfull]
      constructor
      · intro h
        cases h
      · rintro ⟨-, ⟨_, hnone, -⟩ | ⟨-, ⟨hblobs, hbytes⟩, -⟩⟩
        · cases hnone
        · omega
    · rw [if_neg hfull]
      have hroom : HasRoom limits s bytes.length := ⟨by omega, by omega⟩
      cases hadmission : q.admission bytes with
      | error cause =>
        constructor
        · intro h
          cases h
        · rintro ⟨-, ⟨_, hnone, -⟩ | ⟨-, -, hok, -⟩⟩
          · cases hnone
          · cases hok
      | ok _ =>
        constructor
        · intro h
          obtain ⟨rfl, rfl⟩ := EStateM.Result.ok.inj h
          exact ⟨rfl, Or.inr ⟨rfl, hroom, rfl, rfl⟩⟩
        · rintro ⟨rfl, ⟨_, hnone, -⟩ | ⟨-, -, -, rfl⟩⟩
          · cases hnone
          · rfl

theorem registerCandidate_eq {bytes : Bytes} {hash : List UInt8}
    (h : persist p.toPlatform limits bytes s = .ok hash t) :
    registerCandidate p limits bytes s = .ok hash t := by
  obtain ⟨hhash, hfound | ⟨hnone, hroom, -, ht⟩⟩ := persist_eq_ok.mp h
  · exact persist_eq_ok.mpr ⟨hhash, Or.inl hfound⟩
  · exact persist_eq_ok.mpr ⟨hhash, Or.inr ⟨hnone, hroom, rfl, ht⟩⟩

/-- The components of a file that has been cut into chunks. -/
def componentsOf (digest : List UInt8 → List UInt8) (chunks : List Bytes) : List RouteComponent :=
  chunks.mapIdx fun i chunk => ⟨i, digest chunk, chunk.length⟩

theorem addComponents_eq (sequence : ℕ) (previousSize : Option ℕ)
    (hchunks : Chunked fileChunkBytes chunks)
    (hstored : ∀ s, ∀ chunk ∈ chunks, p.lookup s (p.digest chunk) = some chunk)
    (hprevious : chunks ≠ [] → ∀ size ∈ previousSize, size = fileChunkBytes)
    (h : persistAll p.toPlatform limits chunks s = .ok links t) :
    addComponents p limits sequence previousSize
      (chunks.mapIdx fun i chunk => ⟨sequence + i, p.digest chunk, chunk.length⟩) s = .ok links t := by
  induction chunks generalizing sequence previousSize links s with
  | nil => exact h
  | cons chunk chunks ih =>
    obtain ⟨hash, u, hpersist, h⟩ := bind_ok.mp h
    obtain ⟨rest, v, hrest, h⟩ := bind_ok.mp h
    obtain ⟨rfl, rfl⟩ := EStateM.Result.ok.inj h
    obtain ⟨hfilled, hsize, hfull⟩ := hchunks.head (by decide)
    have hlookup : p.lookup s (p.digest chunk) = some chunk := hstored s chunk (by simp)
    have hchunking : ¬(chunk.length = 0 ∨ fileChunkBytes < chunk.length ∨
        previousSize.any (· ≠ fileChunkBytes) = true) := by
      rintro (hzero | hlong | hshort)
      · exact hfilled (List.length_eq_zero_iff.mp hzero)
      · omega
      · cases previousSize with
        | none => cases hshort
        | some size => simp [hprevious (by simp) size rfl] at hshort
    have hnext := ih (sequence + 1) (some chunk.length) hchunks.tail
      (fun s c hc => hstored s c (by simp [hc])) (fun hne size hsize => by
        obtain rfl := Option.some.inj hsize
        exact hfull hne) hrest
    have hshift : (fun i chunk => (⟨sequence + (i + 1), p.digest chunk, chunk.length⟩ : RouteComponent)) =
        fun i chunk => ⟨sequence + 1 + i, p.digest chunk, chunk.length⟩ := by
      funext i chunk
      rw [Nat.add_assoc, Nat.add_comm 1 i]
    rw [List.mapIdx_cons, addComponents, get_bind, if_neg (by simp), if_neg hchunking]
    simp only [hlookup]
    rw [if_neg (by simp), bind_eq (registerCandidate_eq hpersist), hshift, bind_eq hnext]
    rfl

theorem sorted_componentsOf (digest : List UInt8 → List UInt8) (chunks : List Bytes) :
    sortedComponents (componentsOf digest chunks) = componentsOf digest chunks := by
  refine List.Pairwise.insertionSort_eq ?_
  refine List.pairwise_iff_getElem.mpr fun i j hi hj hij => ?_
  simpa [componentsOf] using hij.le

theorem chunkLinks_path (hfits : Fits fileChunkBytes 0 reads) (hchunks : Chunked fileChunkBytes chunks)
    (hsame : reads.flatten = chunks.flatten) :
    chunkLinks p limits (.path reads) = persistAll p.toPlatform limits chunks := by
  rw [chunkLinks, readChunks_eq, gather_unique (by decide) hfits hchunks hsame]

theorem buildFile_components {file : LogicalFile} {built : Built} (hsource : file.source = .path reads)
    (hfits : Fits fileChunkBytes 0 reads) (hchunks : Chunked fileChunkBytes chunks)
    (hsame : reads.flatten = chunks.flatten)
    (hstored : ∀ s, ∀ chunk ∈ chunks, p.lookup s (p.digest chunk) = some chunk)
    (h : buildFile p limits file s = .ok built t) :
    buildFile p limits { file with source := .components (componentsOf p.digest chunks) } s =
      .ok built t := by
  rw [buildFile, hsource, chunkLinks_path hfits hchunks hsame] at h
  obtain ⟨links, u, hall, h⟩ := bind_ok.mp h
  refine bind_ok.mpr ⟨links, u, ?_, h⟩
  rw [chunkLinks, sorted_componentsOf]
  have heq := addComponents_eq 0 none hchunks hstored (fun _ _ hnone => by cases hnone) hall
  simpa [componentsOf] using heq

/-- A file is built to the same manifests however its reads are cut, and from the components of a route
whose blobs are in the store. -/
theorem buildFile_same {file : LogicalFile} {built : Built} (hsource : file.source = .path reads)
    (hfits : Fits fileChunkBytes 0 reads) (hchunks : Chunked fileChunkBytes chunks)
    (hsame : reads.flatten = chunks.flatten)
    (hstored : ∀ s, ∀ chunk ∈ chunks, p.lookup s (p.digest chunk) = some chunk)
    (h : buildFile p limits file s = .ok built t) :
    (∀ others, Fits fileChunkBytes 0 others → others.flatten = reads.flatten →
      buildFile p limits { file with source := .path others } s = .ok built t) ∧
    buildFile p limits { file with source := .components (componentsOf p.digest chunks) } s =
      .ok built t := by
  refine ⟨fun others hothers heq => ?_, buildFile_components hsource hfits hchunks hsame hstored h⟩
  rw [buildFile, hsource, chunkLinks_path hfits hchunks hsame] at h
  rw [buildFile, chunkLinks_path hothers hchunks (heq.trans hsame)]
  exact h

theorem persist_fresh {q : Platform} {bytes : List UInt8} (hfresh : ∀ blob ∈ s.inventory, q.digest blob ≠ q.digest bytes)
    (hroom : HasRoom limits s bytes.length) (hadmission : q.admission bytes = .ok ()) :
    persist q limits bytes s = .ok (q.digest bytes) { s with inventory := s.inventory ++ [bytes] } :=
  persist_eq_ok.mpr ⟨rfl, Or.inr ⟨List.find?_eq_none.mpr (by simpa using hfresh), hroom, hadmission, rfl⟩⟩

def fullChunk : Bytes :=
  List.replicate fileChunkBytes 1

theorem fullChunk_length : fullChunk.length = fileChunkBytes :=
  List.length_replicate

theorem fullChunk_digest : samplePlatform.digest fullChunk = List.replicate 32 1 := by
  change (List.replicate fileChunkBytes (1 : UInt8) ++ List.replicate 32 0).take 32 = _
  have hlong : 32 ≤ (List.replicate fileChunkBytes (1 : UInt8)).length := by
    rw [List.length_replicate]
    decide
  rw [List.take_append_of_le_length hlong, List.take_replicate]
  rfl

/-- A blob store with two chunks of a file. -/
def sampleStorePlatform : BuildPlatform where
  toPlatform := samplePlatform
  lookup s hash := (fullChunk :: [2, 3] :: s.inventory).find? fun blob => samplePlatform.digest blob = hash
  named s hash bytes h := by simpa using List.find?_some h

def sampleChunkLimits : WriterLimits :=
  ⟨2, 10, 4194304⟩

theorem sample_chunked : Chunked fileChunkBytes [fullChunk, [2, 3]] :=
  ⟨fullChunk_length, by decide, by decide⟩

theorem sample_stores : ∀ s, ∀ chunk ∈ [fullChunk, [2, 3]],
    sampleStorePlatform.lookup s (sampleStorePlatform.digest chunk) = some chunk := by
  intro s chunk hchunk
  have hshort : samplePlatform.digest fullChunk ≠ samplePlatform.digest [2, 3] := by
    rw [fullChunk_digest]
    decide +kernel
  change (fullChunk :: [2, 3] :: s.inventory).find? (fun blob => samplePlatform.digest blob =
    samplePlatform.digest chunk) = some chunk
  rcases List.mem_cons.mp hchunk with rfl | hchunk
  · rw [List.find?_cons_of_pos (by simp)]
  · obtain rfl := List.mem_singleton.mp hchunk
    rw [List.find?_cons_of_neg (by simpa using hshort), List.find?_cons_of_pos (by simp)]

def sampleLinks : List ManifestLink :=
  [chunkLink (List.replicate 32 1) fileChunkBytes, chunkLink (samplePlatform.digest [2, 3]) 2]

theorem sample_persisted : persistAll samplePlatform sampleChunkLimits [fullChunk, [2, 3]] ⟨[], []⟩ =
    .ok sampleLinks ⟨[fullChunk, [2, 3]], []⟩ := by
  have hfirst : persist samplePlatform sampleChunkLimits fullChunk ⟨[], []⟩ =
      .ok (samplePlatform.digest fullChunk) ⟨[fullChunk], []⟩ :=
    persist_fresh nofun ⟨by decide, by rw [fullChunk_length]; decide⟩ rfl
  have hsecond : persist samplePlatform sampleChunkLimits [2, 3] ⟨[fullChunk], []⟩ =
      .ok (samplePlatform.digest [2, 3]) ⟨[fullChunk, [2, 3]], []⟩ := by
    refine persist_fresh (s := ⟨[fullChunk], []⟩) ?_ ⟨by decide, ?_⟩ rfl
    · intro blob hblob
      obtain rfl := List.mem_singleton.mp hblob
      rw [fullChunk_digest]
      decide +kernel
    · simp only [List.map_cons, List.map_nil, fullChunk_length]
      decide
  have hrest : persistAll samplePlatform sampleChunkLimits [[2, 3]] ⟨[fullChunk], []⟩ =
      .ok [chunkLink (samplePlatform.digest [2, 3]) 2] ⟨[fullChunk, [2, 3]], []⟩ :=
    bind_ok.mpr ⟨_, _, hsecond, rfl⟩
  have hall : persistAll samplePlatform sampleChunkLimits [fullChunk, [2, 3]] ⟨[], []⟩ =
      .ok [chunkLink (samplePlatform.digest fullChunk) fullChunk.length, chunkLink (samplePlatform.digest [2, 3]) 2]
        ⟨[fullChunk, [2, 3]], []⟩ :=
    bind_ok.mpr ⟨_, _, hfirst, bind_ok.mpr ⟨_, _, hrest, rfl⟩⟩
  rwa [fullChunk_digest, fullChunk_length] at hall

theorem collapseApart_of_collapse {kind : LinkListKind} {built : Built}
    (h : collapse p.toPlatform limits kind links ⟨s.inventory, []⟩ = .ok built t) :
    collapseApart p limits kind links s = .ok built ⟨t.inventory, s.written ++ t.written⟩ := by
  rw [collapseApart, h]

theorem sample_wire : ∃ wire, encodeManifest smallMessagePack ⟨.file, sampleLinks.map storedLink⟩ = .ok wire ∧
    wire.length ≤ 128 ∧ samplePlatform.digest wire ≠ List.replicate 32 1 ∧
      samplePlatform.digest wire ≠ samplePlatform.digest [2, 3] := by
  have hcheck : (encodeManifest smallMessagePack ⟨.file, sampleLinks.map storedLink⟩).toOption.any (fun wire =>
      wire.length ≤ 128 ∧ samplePlatform.digest wire ≠ List.replicate 32 1 ∧
        samplePlatform.digest wire ≠ samplePlatform.digest [2, 3]) = true := by
    decide +kernel
  cases hwire : encodeManifest smallMessagePack ⟨.file, sampleLinks.map storedLink⟩ with
  | error cause =>
    rw [hwire] at hcheck
    cases hcheck
  | ok wire =>
    rw [hwire] at hcheck
    exact ⟨wire, rfl, of_decide_eq_true hcheck⟩

theorem sample_collapsed : ∃ built wire,
    collapseApart sampleStorePlatform sampleChunkLimits .file sampleLinks ⟨[fullChunk, [2, 3]], []⟩ =
      .ok built ⟨[fullChunk, [2, 3], wire], [⟨.file, sampleLinks.map storedLink⟩]⟩ ∧
    built.hash = samplePlatform.digest wire := by
  obtain ⟨wire, hwire, hlength, hfull, hshort⟩ := sample_wire
  have hfresh : ∀ blob ∈ [fullChunk, [2, 3]], samplePlatform.digest blob ≠ samplePlatform.digest wire := by
    intro blob hblob
    rcases List.mem_cons.mp hblob with rfl | hblob
    · rw [fullChunk_digest]
      exact hfull.symm
    · obtain rfl := List.mem_singleton.mp hblob
      exact hshort.symm
  have hroom : HasRoom sampleChunkLimits ⟨[fullChunk, [2, 3]], []⟩ wire.length := by
    refine ⟨by decide, ?_⟩
    simp only [List.map_cons, List.map_nil, fullChunk_length, List.sum_cons, List.sum_nil, fileChunkBytes,
      sampleChunkLimits, List.length_cons, List.length_nil]
    omega
  have hpersist : persist samplePlatform sampleChunkLimits wire ⟨[fullChunk, [2, 3]], []⟩ =
      .ok (samplePlatform.digest wire) ⟨[fullChunk, [2, 3], wire], []⟩ := persist_fresh hfresh hroom rfl
  have hwrite : writeManifest samplePlatform sampleChunkLimits ⟨.file, sampleLinks.map storedLink⟩
      ⟨[fullChunk, [2, 3]], []⟩ = .ok (samplePlatform.digest wire)
        ⟨[fullChunk, [2, 3], wire], [⟨.file, sampleLinks.map storedLink⟩]⟩ := by
    have hencode : encodeManifest samplePlatform.lib ⟨.file, sampleLinks.map storedLink⟩ = .ok wire := hwire
    rw [writeManifest, hencode]
    exact bind_ok.mpr ⟨_, _, hpersist, rfl⟩
  have hfinish : ∃ built, collapse sampleStorePlatform.toPlatform sampleChunkLimits .file sampleLinks
      ⟨[fullChunk, [2, 3]], []⟩ = .ok built ⟨[fullChunk, [2, 3], wire], [⟨.file, sampleLinks.map storedLink⟩]⟩ ∧
      built.hash = samplePlatform.digest wire := by
    rw [collapse, collapseFrom, if_pos (by decide)]
    exact ⟨_, bind_ok.mpr ⟨_, _, hwrite, rfl⟩, rfl⟩
  obtain ⟨built, hcollapse, hhash⟩ := hfinish
  exact ⟨built, wire, @collapseApart_of_collapse sampleStorePlatform sampleChunkLimits ⟨[fullChunk, [2, 3]], []⟩ _ sampleLinks
    .file built hcollapse, hhash⟩

theorem sample_fits : Fits fileChunkBytes 0 [fullChunk, [2], [3]] := by
  rw [Fits, fullChunk_length]
  exact ⟨by decide, by decide, by decide, trivial⟩

theorem path_built (route : String) : ∃ built t, buildFile sampleStorePlatform sampleChunkLimits
    ⟨route, .path [fullChunk, [2], [3]], 2097154⟩ ⟨[], []⟩ = .ok built t := by
  obtain ⟨built, wire, hcollapse, hhash⟩ := sample_collapsed
  have hfound : (sampleStorePlatform.lookup ⟨[fullChunk, [2, 3], wire], [⟨.file, sampleLinks.map storedLink⟩]⟩
      built.hash).isNone = false := by
    rw [hhash, Option.isNone_eq_false_iff]
    exact List.find?_isSome.mpr ⟨wire, by simp, by simp⟩
  have hlinks : chunkLinks sampleStorePlatform sampleChunkLimits (.path [fullChunk, [2], [3]]) ⟨[], []⟩ =
      .ok sampleLinks ⟨[fullChunk, [2, 3]], []⟩ := by
    rw [chunkLinks_path sample_fits sample_chunked (by simp)]
    exact sample_persisted
  refine ⟨built, ⟨[fullChunk, [2, 3], wire], [⟨.file, sampleLinks.map storedLink⟩]⟩, bind_ok.mpr ⟨_, _, hlinks, ?_⟩⟩
  have hsize : ¬(sampleLinks.map ManifestLink.size).sum ≠ 2097154 := by decide
  rw [if_neg hsize]
  refine bind_ok.mpr ⟨_, _, hcollapse, bind_ok.mpr ⟨(), _, ?_, rfl⟩⟩
  rw [reread, get_bind, hfound]
  rfl

theorem buildFile_same_sample : ∃ built t,
    buildFile sampleStorePlatform sampleChunkLimits ⟨"a", .path [fullChunk, [2], [3]], 2097154⟩ ⟨[], []⟩ =
        .ok built t ∧
      buildFile sampleStorePlatform sampleChunkLimits
        ⟨"a", .path [fullChunk.take 1, fullChunk.drop 1, [2, 3]], 2097154⟩ ⟨[], []⟩ = .ok built t ∧
      buildFile sampleStorePlatform sampleChunkLimits
        ⟨"a", .components (componentsOf samplePlatform.digest [fullChunk, [2, 3]]), 2097154⟩ ⟨[], []⟩ =
          .ok built t := by
  obtain ⟨built, t, hbuilt⟩ := path_built "a"
  have hothers : Fits fileChunkBytes 0 [fullChunk.take 1, fullChunk.drop 1, [2, 3]] := by
    rw [Fits, Fits, List.length_take, List.length_drop, fullChunk_length]
    exact ⟨by decide, by decide, by decide, trivial⟩
  have hcut : [fullChunk.take 1, fullChunk.drop 1, [2, 3]].flatten = [fullChunk, [2], [3]].flatten := by
    simp only [List.flatten_cons, List.flatten_nil, ← List.append_assoc, List.take_append_drop]
    simp only [List.append_assoc, List.append_nil, List.cons_append, List.nil_append]
  obtain ⟨hcuts, hcomponents⟩ :=
    buildFile_same rfl sample_fits sample_chunked (by simp) sample_stores hbuilt
  exact ⟨built, t, hbuilt, hcuts _ hothers hcut, hcomponents⟩

end Chunks

section Collapsing

variable {q : Platform} {limits : WriterLimits} {kind : LinkListKind} {level : ℕ} {s t : WriterState}
variable {links rows group entries : List ManifestLink} {built : Built}

/-- A relation between inventories that holds whenever a blob is put. -/
structure PutClosed (digest : List UInt8 → List UInt8) (limits : WriterLimits)
    (R : List Bytes → List Bytes → Prop) : Prop where
  refl : ∀ blobs, R blobs blobs
  trans : ∀ blobs more all, R blobs more → R more all → R blobs all
  put : ∀ blobs bytes, (∀ blob ∈ blobs, digest blob ≠ digest bytes) →
    blobs.length + 1 ≤ limits.maxInventoryBlobs →
    (blobs.map List.length).sum + bytes.length ≤ limits.maxInventoryBytes → R blobs (blobs ++ [bytes])

def Blobs (R : List Bytes → List Bytes → Prop) (s t : WriterState) : Prop :=
  R s.inventory t.inventory

theorem putClosed_subset (digest : List UInt8 → List UInt8) (limits : WriterLimits) :
    PutClosed digest limits (· ⊆ ·) :=
  ⟨fun _ => List.Subset.refl _, fun _ _ _ => List.Subset.trans, fun _ _ _ _ _ => List.subset_append_left _ _⟩

section Putting

variable {R : List Bytes → List Bytes → Prop} (h : PutClosed q.digest limits R)
include h

theorem PutClosed.still (s : WriterState) : Blobs R s s :=
  h.refl _

theorem PutClosed.next (s t u : WriterState) (hst : Blobs R s t) (htu : Blobs R t u) : Blobs R s u :=
  h.trans _ _ _ hst htu

theorem PutClosed.persist (bytes : List UInt8) : Keeps (Blobs R) (persist q limits bytes) := by
  intro s
  unfold Writer.persist
  rw [final_bind_ok (p := get) (a := s) (u := s) rfl]
  cases hfound : s.inventory.find? fun blob => decide (q.digest blob = q.digest bytes) with
  | some existing =>
    dsimp only
    split_ifs <;> exact h.still s
  | none =>
    dsimp only
    split_ifs with hceiling
    · exact h.still s
    · cases q.admission bytes with
      | error cause => exact h.still s
      | ok =>
        rw [not_or, not_lt, not_lt] at hceiling
        exact h.put _ _ (by simpa using hfound) hceiling.1 hceiling.2

theorem PutClosed.writeManifest (manifest : Manifest) :
    Keeps (Blobs R) (writeManifest q limits manifest) := by
  unfold Writer.writeManifest
  cases encodeManifest q.lib manifest with
  | error cause => exact .throw h.still _
  | ok bytes => exact (h.persist bytes).bind h.next fun hash s => h.refl s.inventory

theorem PutClosed.logicalSizeFrom (total : ℕ) (links : List ManifestLink) :
    Keeps (Blobs R) (logicalSizeFrom total links) := by
  induction links generalizing total with
  | nil => exact .pure h.still _
  | cons link links ih =>
    rw [Writer.logicalSizeFrom]
    exact .ite (ih _) (.throw h.still _)

theorem PutClosed.flushGroup : Keeps (Blobs R) (flushGroup q limits kind level links) :=
  (h.writeManifest _).bind h.next fun _ =>
    (h.logicalSizeFrom 0 links).bind h.next fun _ => .pure h.still _

theorem PutClosed.collapseLevel (group rows : List ManifestLink) :
    Keeps (Blobs R) (collapseLevel q limits kind level group rows) := by
  induction rows generalizing group with
  | nil =>
    unfold Writer.collapseLevel
    exact .ite (.pure h.still _) (h.flushGroup.bind h.next fun _ => .pure h.still _)
  | cons row rows ih =>
    unfold Writer.collapseLevel
    exact .ite (ih _) (h.flushGroup.bind h.next fun _ => (ih []).bind h.next fun _ => .pure h.still _)

theorem PutClosed.collapseFrom (fuel level : ℕ) (links : List ManifestLink) :
    Keeps (Blobs R) (collapseFrom q limits kind fuel level links) := by
  induction fuel generalizing level links with
  | zero => exact .throw h.still _
  | succ fuel ih =>
    unfold Writer.collapseFrom
    exact .ite ((h.writeManifest _).bind h.next fun _ =>
        (h.logicalSizeFrom 0 links).bind h.next fun _ => .pure h.still _)
      ((h.collapseLevel [] links).bind h.next fun _ => ih _ _)

end Putting

/-- A sum that `logicalSize` returns is a safe integer. -/
theorem logicalSizeFrom_ok {total n : ℕ} (htotal : total ≤ 9007199254740991)
    (h : logicalSizeFrom total links s = .ok n t) :
    n = total + (links.map ManifestLink.size).sum ∧ n ≤ 9007199254740991 := by
  induction links generalizing total with
  | nil =>
    obtain ⟨rfl, -⟩ := EStateM.Result.ok.inj h
    exact ⟨rfl, htotal⟩
  | cons link links ih =>
    rw [logicalSizeFrom] at h
    split_ifs at h with hsafe
    · obtain ⟨hn, hle⟩ := ih hsafe h
      exact ⟨by rw [hn, List.map_cons, List.sum_cons, Nat.add_assoc], hle⟩
    · cases h

theorem flushGroup_size {link : ManifestLink} (h : flushGroup q limits kind level links s = .ok link t) :
    link.size = (links.map ManifestLink.size).sum := by
  obtain ⟨hash, u, -, h⟩ := bind_ok.mp h
  obtain ⟨n, v, hsize, h⟩ := bind_ok.mp h
  obtain ⟨rfl, -⟩ := EStateM.Result.ok.inj h
  simpa [storedLink] using (logicalSizeFrom_ok (Nat.zero_le _) hsize).1

theorem collapseLevel_size {next : List ManifestLink}
    (h : collapseLevel q limits kind level group rows s = .ok next t) :
    (next.map ManifestLink.size).sum =
      (group.map ManifestLink.size).sum + (rows.map ManifestLink.size).sum := by
  induction rows generalizing group next s t with
  | nil =>
    unfold collapseLevel at h
    split_ifs at h with hempty
    · obtain ⟨rfl, -⟩ := EStateM.Result.ok.inj h
      rw [List.isEmpty_iff.mp hempty]
      rfl
    · obtain ⟨link, u, hlink, h⟩ := bind_ok.mp h
      obtain ⟨rfl, -⟩ := EStateM.Result.ok.inj h
      simp [flushGroup_size hlink]
  | cons row rows ih =>
    unfold collapseLevel at h
    split_ifs at h with hfilling
    · rw [ih h, List.map_append, List.sum_append, List.map_cons, List.sum_cons]
      simp [Nat.add_assoc]
    · obtain ⟨link, u, hlink, h⟩ := bind_ok.mp h
      obtain ⟨links, v, hlinks, h⟩ := bind_ok.mp h
      obtain ⟨rfl, -⟩ := EStateM.Result.ok.inj h
      have hrest : (links.map ManifestLink.size).sum =
          (([] : List ManifestLink).map ManifestLink.size).sum + (rows.map ManifestLink.size).sum := ih hlinks
      rw [List.map_cons, List.sum_cons, flushGroup_size hlink, hrest]
      simp [Nat.add_assoc]

theorem collapseFrom_size {fuel : ℕ} (h : collapseFrom q limits kind fuel level links s = .ok built t) :
    (links.map ManifestLink.size).sum ≤ 9007199254740991 := by
  induction fuel generalizing level links s with
  | zero => cases h
  | succ fuel ih =>
    unfold collapseFrom at h
    split_ifs at h with hcount
    · obtain ⟨hash, u, -, h⟩ := bind_ok.mp h
      obtain ⟨n, v, hsize, -⟩ := bind_ok.mp h
      obtain ⟨hn, hle⟩ := logicalSizeFrom_ok (Nat.zero_le _) hsize
      omega
    · obtain ⟨next, u, hnext, h⟩ := bind_ok.mp h
      have hsum := collapseLevel_size hnext
      have hle := ih h
      simp only [List.map_nil, List.sum_nil] at hsum
      omega

theorem collapse_size (h : collapse q limits kind links s = .ok built t) :
    (links.map ManifestLink.size).sum ≤ 9007199254740991 := by
  have hle := collapseFrom_size h
  rwa [List.map_map, show ManifestLink.size ∘ storedLink = ManifestLink.size from rfl] at hle

theorem collapseFrom_fanout {fuel : ℕ}
    (h : collapseFrom q limits .directory fuel (level + 1) links s = .ok built t) :
    built.type = .fanout := by
  induction fuel generalizing level links s with
  | zero => cases h
  | succ fuel ih =>
    unfold collapseFrom at h
    split_ifs at h
    · obtain ⟨hash, u, -, h⟩ := bind_ok.mp h
      obtain ⟨n, v, -, h⟩ := bind_ok.mp h
      obtain ⟨rfl, -⟩ := EStateM.Result.ok.inj h
      rfl
    · obtain ⟨next, u, -, h⟩ := bind_ok.mp h
      exact ih h

theorem collapse_type (h : collapse q limits .directory links s = .ok built t) :
    built.type = .directory ↔ links.length ≤ limits.maxLinks := by
  rw [collapse] at h
  unfold collapseFrom at h
  rw [List.length_map] at h
  split_ifs at h with hcount
  · obtain ⟨hash, u, -, h⟩ := bind_ok.mp h
    obtain ⟨n, v, -, h⟩ := bind_ok.mp h
    obtain ⟨rfl, -⟩ := EStateM.Result.ok.inj h
    exact iff_of_true rfl hcount
  · obtain ⟨next, u, -, h⟩ := bind_ok.mp h
    rw [collapseFrom_fanout h]
    exact iff_of_false (by decide) hcount

theorem Root.mono {written later : List Manifest} (h : Root q kind entries built written)
    (hsub : written ⊆ later) : Root q kind entries built later := by
  obtain ⟨⟨manifest, hmem, wire, level, parts, hwire, hhash, htype, hbuilt, hlinks, hparts⟩, hsize, hcount,
    hbounds⟩ := h
  exact ⟨⟨manifest, hsub hmem, wire, level, parts, hwire, hhash, htype, hbuilt,
    hlinks.imp fun _ _ => Holds.mono hsub, hparts⟩, hsize, hcount, hbounds⟩

theorem collapse_root {inventory : List (List UInt8)} (hlimit : 2 ≤ limits.maxLinks)
    (hentries : Entries kind entries) (h : collapse q limits kind entries ⟨inventory, []⟩ = .ok built t) :
    inventory ⊆ t.inventory ∧ Wrote q limits kind entries t ∧ Root q kind entries built t.written := by
  have hstored : entries.map storedLink = entries := by
    refine (List.map_congr_left fun link hlink => ?_).trans (List.map_id entries)
    have hkey := (hentries.plain link hlink).1
    cases link
    simp_all [storedLink]
  rw [collapse, hstored] at h
  have hholds : List.Forall₂ (Holds q kind [] 0) entries (entries.map fun link => [link]) :=
    List.forall₂_map_right_iff.mpr (List.forall₂_same.mpr fun link _ => rfl)
  have hall := flatten_entries hholds
  have hstart : Wrote q limits kind entries ⟨inventory, []⟩ := ⟨by simp, by simp⟩
  have hmeets := collapseFrom_meets hlimit hstart
    (⟨hentries, hholds, hall.symm ▸ List.infix_rfl⟩ : Level q kind entries [] 0 entries _) hall
    (Nat.lt_succ_self _)
  have hkeeps : Keeps (Blobs (· ⊆ ·)) (collapseFrom q limits kind (entries.length + 1) 0 entries) :=
    (putClosed_subset q.digest limits).collapseFrom _ _ _
  have hsub := hkeeps ⟨inventory, []⟩
  rw [final_ok h] at hsub
  exact ⟨hsub, hmeets.ok h⟩

end Collapsing

section Files

variable {p : BuildPlatform} {limits : WriterLimits} {kind : LinkListKind} {s t : WriterState}
variable {chunks : List Bytes} {links : List ManifestLink} {built : Built} {bytes : Bytes}

structure Grows (s t : WriterState) : Prop where
  inventory : s.inventory ⊆ t.inventory
  written : s.written ⊆ t.written

theorem Grows.refl (s : WriterState) : Grows s s :=
  ⟨List.Subset.refl _, List.Subset.refl _⟩

theorem Grows.trans {u : WriterState} (h : Grows s t) (h' : Grows t u) : Grows s u :=
  ⟨List.Subset.trans h.inventory h'.inventory, List.Subset.trans h.written h'.written⟩

structure Put (p : Platform) (chunks : List Bytes) (s t : WriterState) : Prop where
  inventory : s.inventory ⊆ t.inventory
  written : t.written = s.written
  stored : ∀ chunk ∈ chunks, ∃ blob ∈ t.inventory, p.digest blob = p.digest chunk

theorem Put.cons {q : Platform} {chunk : Bytes} {u : WriterState} (h : Put q [chunk] s t)
    (h' : Put q chunks t u) : Put q (chunk :: chunks) s u := by
  refine ⟨List.Subset.trans h.inventory h'.inventory, h'.written.trans h.written, ?_⟩
  intro other hother
  rcases List.mem_cons.mp hother with rfl | hother
  · obtain ⟨blob, hblob, hdigest⟩ := h.stored other (by simp)
    exact ⟨blob, h'.inventory hblob, hdigest⟩
  · exact h'.stored other hother

theorem Put.grows {q : Platform} (h : Put q chunks s t) : Grows s t :=
  ⟨h.inventory, by rw [h.written]; exact List.Subset.refl _⟩

theorem Put.stocked {q : Platform} (h : Put q chunks s t) (hs : Stocked q limits s) :
    Stocked q limits t := by
  obtain ⟨hstored, hplaced⟩ := hs
  refine ⟨fun manifest hmem => ?_, fun manifest hmem => ?_⟩
  · rw [h.written] at hmem
    obtain ⟨wire, hwire, blob, hblob, hdigest⟩ := hstored manifest hmem
    exact ⟨wire, hwire, blob, h.inventory hblob, hdigest⟩
  · rw [h.written] at hmem ⊢
    exact hplaced manifest hmem

theorem persist_put {q : Platform} {hash : List UInt8} (h : persist q limits bytes s = .ok hash t) :
    hash = q.digest bytes ∧ Put q [bytes] s t := by
  obtain ⟨hhash, hwritten, hsub, hblob⟩ := (persist_meets bytes).ok h
  refine ⟨hhash, hsub, hwritten, fun chunk hchunk => ?_⟩
  rwa [List.mem_singleton.mp hchunk]

def linkOf (digest : List UInt8 → List UInt8) (chunk : Bytes) : ManifestLink :=
  chunkLink (digest chunk) chunk.length

theorem persistAll_put {q : Platform} (h : persistAll q limits chunks s = .ok links t) :
    links = chunks.map (linkOf q.digest) ∧ Put q chunks s t := by
  induction chunks generalizing links s with
  | nil =>
    obtain ⟨rfl, rfl⟩ := EStateM.Result.ok.inj h
    exact ⟨rfl, List.Subset.refl _, rfl, by simp⟩
  | cons chunk chunks ih =>
    obtain ⟨hash, u, hpersist, h⟩ := bind_ok.mp h
    obtain ⟨rest, v, hrest, h⟩ := bind_ok.mp h
    obtain ⟨rfl, rfl⟩ := EStateM.Result.ok.inj h
    obtain ⟨rfl, hput⟩ := persist_put hpersist
    obtain ⟨rfl, hall⟩ := ih hrest
    exact ⟨rfl, hput.cons hall⟩

def Names (digest : List UInt8 → List UInt8) (component : RouteComponent) (chunk : Bytes) : Prop :=
  digest chunk = component.hash ∧ chunk.length = component.size ∧ chunk ≠ []

theorem addComponents_put {sequence : ℕ} {previousSize : Option ℕ} {components : List RouteComponent}
    (h : addComponents p limits sequence previousSize components s = .ok links t) :
    ∃ chunks, List.Forall₂ (Names p.digest) components chunks ∧
      links = chunks.map (linkOf p.digest) ∧ Put p.toPlatform chunks s t := by
  induction components generalizing sequence previousSize links s with
  | nil =>
    obtain ⟨rfl, rfl⟩ := EStateM.Result.ok.inj h
    exact ⟨[], .nil, rfl, List.Subset.refl _, rfl, by simp⟩
  | cons component components ih =>
    rw [addComponents, get_bind] at h
    split_ifs at h with hindex hchunking
    · cases h
    · cases h
    · cases hlookup : p.lookup s component.hash with
      | none =>
        rw [hlookup] at h
        cases h
      | some bytes =>
        simp only [hlookup] at h
        split_ifs at h with hsize
        · cases h
        · obtain ⟨hash, u, hregister, h⟩ := bind_ok.mp h
          obtain ⟨rest, v, hrest, h⟩ := bind_ok.mp h
          obtain ⟨rfl, rfl⟩ := EStateM.Result.ok.inj h
          obtain ⟨hhash, hinventory, hwritten, hstored⟩ := persist_put hregister
          obtain ⟨chunks, hnames, rfl, hput⟩ := ih hrest
          have hlength : bytes.length = component.size := not_not.mp hsize
          have hfilled : bytes ≠ [] := by
            rintro rfl
            exact hchunking (Or.inl hlength.symm)
          refine ⟨bytes :: chunks, .cons ⟨p.named _ _ _ hlookup, hlength, hfilled⟩ hnames, ?_, ?_⟩
          · rw [List.map_cons, linkOf, hlength, hhash]
          · exact Put.cons ⟨hinventory, hwritten, hstored⟩ hput

/-- What a logical file has in it. -/
def LogicalFile.Contains (digest : List UInt8 → List UInt8) (file : LogicalFile) (bytes : Bytes) : Prop :=
  match file.source with
  | .unavailable => False
  | .path reads => reads.flatten = bytes
  | .components components =>
    ∃ chunks, List.Forall₂ (Names digest) (sortedComponents components) chunks ∧ chunks.flatten = bytes

theorem gather_filled {reads : List Bytes} {chunk : Bytes} :
    ∀ other ∈ gather fileChunkBytes reads chunk, other ≠ [] := by
  induction reads generalizing chunk with
  | nil =>
    rw [gather]
    split_ifs with hempty
    · simp
    · simpa using hempty
  | cons piece reads ih =>
    rw [gather]
    split_ifs with hfilling
    · exact ih
    · refine List.forall_mem_cons.mpr ⟨?_, ih⟩
      rintro hnil
      exact hfilling (by rw [hnil]; decide)

theorem Names.filled {components : List RouteComponent}
    (h : List.Forall₂ (Names p.digest) components chunks) : ∀ chunk ∈ chunks, chunk ≠ [] := by
  induction h with
  | nil => simp
  | cons hname _ ih => exact List.forall_mem_cons.mpr ⟨hname.2.2, ih⟩

theorem chunkLinks_put {source : FileSource} (h : chunkLinks p limits source s = .ok links t) :
    ∃ chunks, LogicalFile.Contains p.digest ⟨"", source, 0⟩ chunks.flatten ∧
      (∀ chunk ∈ chunks, chunk ≠ []) ∧ links = chunks.map (linkOf p.digest) ∧
      Put p.toPlatform chunks s t := by
  cases source with
  | unavailable => cases h
  | path reads =>
    rw [chunkLinks, readChunks_eq] at h
    obtain ⟨hlinks, hput⟩ := persistAll_put h
    exact ⟨_, by rw [flatten_gather]; rfl, gather_filled, hlinks, hput⟩
  | components components =>
    obtain ⟨chunks, hnames, hlinks, hput⟩ := addComponents_put h
    exact ⟨chunks, ⟨chunks, hnames, rfl⟩, Names.filled hnames, hlinks, hput⟩

theorem sizes_linkOf (digest : List UInt8 → List UInt8) (chunks : List Bytes) :
    ((chunks.map (linkOf digest)).map ManifestLink.size).sum = chunks.flatten.length := by
  rw [List.map_map, List.length_flatten]
  rfl

theorem Entries.of_chunks (hdigest : ∀ bytes, (p.digest bytes).length = 32)
    (hfilled : ∀ chunk ∈ chunks, chunk ≠ []) (hsize : chunks.flatten.length ≤ 9007199254740991) :
    Entries .file (chunks.map (linkOf p.digest)) := by
  have hcount : chunks.length ≤ chunks.flatten.length := by
    rw [List.length_flatten]
    refine le_of_eq_of_le (List.length_map _).symm (List.length_le_sum_of_one_le _ ?_)
    intro n hn
    obtain ⟨chunk, hchunk, rfl⟩ := List.mem_map.mp hn
    exact List.length_pos_iff.mpr (hfilled chunk hchunk)
  refine ⟨?_, ?_, by rwa [sizes_linkOf], by simpa using hcount.trans hsize, ?_, nofun, nofun⟩
  all_goals
    simp only [List.forall_mem_map]
    intros
  · exact hdigest _
  · exact ⟨rfl, rfl⟩
  · exact ⟨rfl, rfl⟩

theorem collapseApart_size (h : collapseApart p limits kind links s = .ok built t) :
    (links.map ManifestLink.size).sum ≤ 9007199254740991 := by
  rw [collapseApart] at h
  cases hrun : collapse p.toPlatform limits kind links ⟨s.inventory, []⟩ with
  | error e u =>
    rw [hrun] at h
    cases h
  | ok found u => exact collapse_size hrun

theorem collapseApart_type (h : collapseApart p limits .directory links s = .ok built t) :
    built.type = .directory ↔ links.length ≤ limits.maxLinks := by
  rw [collapseApart] at h
  cases hrun : collapse p.toPlatform limits .directory links ⟨s.inventory, []⟩ with
  | error e u =>
    rw [hrun] at h
    cases h
  | ok found u =>
    rw [hrun] at h
    obtain ⟨rfl, -⟩ := EStateM.Result.ok.inj h
    exact collapse_type hrun

theorem collapseApart_ok (hlimit : 2 ≤ limits.maxLinks) (hs : Stocked p.toPlatform limits s)
    (hentries : Entries kind links) (h : collapseApart p limits kind links s = .ok built t) :
    Stocked p.toPlatform limits t ∧ Grows s t ∧ Root p.toPlatform kind links built t.written := by
  rw [collapseApart] at h
  cases hrun : collapse p.toPlatform limits kind links ⟨s.inventory, []⟩ with
  | error e u =>
    rw [hrun] at h
    cases h
  | ok found u =>
    rw [hrun] at h
    obtain ⟨rfl, rfl⟩ := EStateM.Result.ok.inj h
    obtain ⟨hinventory, hwrote, hroot⟩ := collapse_root hlimit hentries hrun
    have hnew : u.written ⊆ s.written ++ u.written := List.subset_append_right _ _
    refine ⟨⟨?_, ?_⟩, ⟨hinventory, List.subset_append_left _ _⟩, hroot.mono hnew⟩
    · intro manifest hmem
      rcases List.mem_append.mp hmem with hold | hmem
      · obtain ⟨wire, hwire, blob, hblob, hdigest⟩ := hs.stored manifest hold
        exact ⟨wire, hwire, blob, hinventory hblob, hdigest⟩
      · exact hwrote.stored manifest hmem
    · intro manifest hmem
      rcases List.mem_append.mp hmem with hold | hmem
      · obtain ⟨kind, entries, hother, hplaced⟩ := hs.placed manifest hold
        exact ⟨kind, entries, hother, hplaced.mono (List.subset_append_left _ _)⟩
      · exact ⟨kind, links, hentries, (hwrote.placed manifest hmem).mono hnew⟩

/-- A link with the size of the bytes leads to them: to the only chunk, or to a tree over the chunks. -/
inductive Leads (p : Platform) (t : WriterState) (bytes : Bytes) : List UInt8 → ℕ → LinkType → Prop
  | direct (stored : ∃ blob ∈ t.inventory, p.digest blob = p.digest bytes) :
    Leads p t bytes (p.digest bytes) bytes.length .blob
  | tree (chunks : List Bytes) (built : Built) (flatten : chunks.flatten = bytes)
    (entries : Entries .file (chunks.map (linkOf p.digest)))
    (root : Root p .file (chunks.map (linkOf p.digest)) built t.written)
    (stored : ∀ chunk ∈ chunks, ∃ blob ∈ t.inventory, p.digest blob = p.digest chunk) :
    Leads p t bytes built.hash bytes.length .file

theorem Leads.mono {q : Platform} {hash : List UInt8} {size : ℕ} {type : LinkType}
    (h : Leads q s bytes hash size type) (hgrows : Grows s t) : Leads q t bytes hash size type := by
  cases h with
  | direct stored =>
    obtain ⟨blob, hblob, hdigest⟩ := stored
    exact .direct ⟨blob, hgrows.inventory hblob, hdigest⟩
  | tree chunks built hflatten hentries hroot hstored =>
    refine .tree chunks built hflatten hentries (hroot.mono hgrows.written) fun chunk hchunk => ?_
    obtain ⟨blob, hblob, hdigest⟩ := hstored chunk hchunk
    exact ⟨blob, hgrows.inventory hblob, hdigest⟩

theorem reread_ok {hash : List UInt8} {message : String} {a : Unit}
    (h : reread p hash message s = .ok a t) : t = s := by
  rw [reread, get_bind] at h
  split_ifs at h
  · cases h
  · exact (EStateM.Result.ok.inj h).2.symm

theorem directFile_ok {hash : List UInt8} {size : ℕ} (h : directFile p hash size s = .ok built t) :
    built = ⟨hash, size, .blob, 1, none, none⟩ ∧ t = s := by
  obtain ⟨_, u, hreread, h⟩ := bind_ok.mp h
  obtain ⟨rfl, rfl⟩ := EStateM.Result.ok.inj h
  exact ⟨rfl, reread_ok hreread⟩

theorem buildFile_leads {file : LogicalFile} (hlimit : 2 ≤ limits.maxLinks)
    (hdigest : ∀ bytes, (p.digest bytes).length = 32) (hs : Stocked p.toPlatform limits s)
    (h : buildFile p limits file s = .ok built t) :
    Stocked p.toPlatform limits t ∧ Grows s t ∧ ∃ bytes, file.Contains p.digest bytes ∧
      bytes.length = file.size ∧ Leads p.toPlatform t bytes built.hash built.logicalSize built.type := by
  obtain ⟨links, u, hlinks, h⟩ := bind_ok.mp h
  obtain ⟨chunks, hcontains, hfilled, rfl, hput⟩ := chunkLinks_put hlinks
  split_ifs at h with hsize
  · cases h
  have hlength : chunks.flatten.length = file.size := by
    rw [← sizes_linkOf p.digest]
    exact not_not.mp hsize
  cases chunks with
  | nil =>
    obtain ⟨hash, v, hpersist, h⟩ := bind_ok.mp h
    obtain ⟨rfl, hempty⟩ := persist_put hpersist
    obtain ⟨rfl, rfl⟩ := directFile_ok h
    exact ⟨hempty.stocked (hput.stocked hs), hput.grows.trans hempty.grows, [], hcontains, hlength,
      .direct (hempty.stored [] (by simp))⟩
  | cons chunk chunks =>
    cases chunks with
    | nil =>
      obtain ⟨rfl, rfl⟩ := directFile_ok h
      rw [List.flatten_cons, List.flatten_nil, List.append_nil] at hcontains hlength
      exact ⟨hput.stocked hs, hput.grows, chunk, hcontains, hlength, .direct (hput.stored chunk (by simp))⟩
    | cons next chunks =>
      obtain ⟨found, v, hcollapse, h⟩ := bind_ok.mp h
      obtain ⟨_, w, hreread, hpure⟩ := bind_ok.mp h
      have hw := reread_ok hreread
      obtain ⟨rfl, rfl⟩ := EStateM.Result.ok.inj hpure
      subst hw
      have hsafe : (chunk :: next :: chunks).flatten.length ≤ 9007199254740991 := by
        rw [← sizes_linkOf p.digest]
        exact collapseApart_size hcollapse
      have hentries := Entries.of_chunks hdigest hfilled hsafe
      obtain ⟨hstocked, hgrows, hroot⟩ := collapseApart_ok hlimit (hput.stocked hs) hentries hcollapse
      obtain ⟨-, -, -, level, -, -, -, -, htype, -, -⟩ := hroot.manifest
      have hstored : ∀ chunk' ∈ chunk :: next :: chunks, ∃ blob ∈ w.inventory,
          p.digest blob = p.digest chunk' := by
        intro chunk' hchunk
        obtain ⟨blob, hblob, hsame⟩ := hput.stored chunk' hchunk
        exact ⟨blob, hgrows.inventory hblob, hsame⟩
      refine ⟨hstocked, hput.grows.trans hgrows, _, hcontains, hlength, ?_⟩
      rw [hroot.size, sizes_linkOf, htype]
      exact .tree _ found rfl hentries hroot hstored

end Files

end NixstrCache.Hashtree.Writer
