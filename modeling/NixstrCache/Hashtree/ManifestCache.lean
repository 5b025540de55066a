import NixstrCache.Blossom.BlobFetcher
import NixstrCache.Lib.Lru
import NixstrCache.Protocol.Hashtree

/-!
The cache of verified manifests.

Manifests stay in the cache by their last use, under a ceiling on their number and one on the sum of
their decoded bytes.  The cache counts the bytes itself: a load adds those of its manifest, and a
callback takes off those of each entry that leaves.  Loads of one hash from different sources run at
the same time, and each puts its manifest in the place of the one before.
-/

namespace NixstrCache.Hashtree

open Blossom LeastRecent Protocol Runs

/-- The arguments of the constructor, which refuses others. -/
structure CacheLimits where
  maxEntries : ℕ
  maxDecodedBytes : ℕ
  entries_pos : 0 < maxEntries
  bytes_pos : 0 < maxDecodedBytes

/-- An entry of `#inflight`, and whether its promise has settled. -/
structure Load where
  hash : String
  sources : List SourceCandidate
  settled : Bool
deriving DecidableEq, Repr

/-- The cache, with what loaders have produced and what hits have returned. -/
structure ManifestCache where
  completed : Lru String ValidatedManifest
  inflight : List Load
  decodedBytes : ℤ
  aborted : Bool
  /-- An eviction loop has not come to an end. -/
  spinning : Bool
  produced : List (String × ValidatedManifest)
  hits : List (String × ValidatedManifest)

inductive CacheEvent where
  | load (hash : String) (sources : List SourceCandidate)
  | loaded (hash : String) (sources : List SourceCandidate) (value : ValidatedManifest)
  | loadFails (hash : String) (sources : List SourceCandidate)
  /-- A settled promise leaves the table. -/
  | forget (hash : String) (sources : List SourceCandidate)
  /-- The signal of a caller ends its own wait. -/
  | callerAborts
  | close
  /-- The promises under way at the close have settled. -/
  | clear

/-- `/^[0-9a-f]{64}$/`. -/
def isHash (hash : String) : Bool :=
  hash.length = 64 ∧ hash.toList.all fun c => ('0' ≤ c ∧ c ≤ '9') ∨ ('a' ≤ c ∧ c ≤ 'f')

namespace ManifestCache

variable (limits : CacheLimits)

abbrev Counted := Lru String ValidatedManifest × ℤ

def eject (bytes : ℤ) (value : Option ValidatedManifest) : ℤ :=
  bytes - (value.map ValidatedManifest.decodedBytes).getD 0

def deleteKey (c : Counted) (hash : String) : Counted :=
  ((c.1.delete hash).1, eject c.2 (c.1.delete hash).2)

def deleteOldest (c : Counted) : Counted :=
  (c.1.deleteOldest.1, eject c.2 c.1.deleteOldest.2)

/-- The loop that evicts, for this many rounds.  An empty map has no oldest entry, and a round leaves
it as it is. -/
def evictLoop : ℕ → Counted → Option Counted
  | 0, _ => none
  | rounds + 1, c =>
    if c.2 ≤ limits.maxDecodedBytes then some c else evictLoop rounds (deleteOldest c)

def vacate (c : Counted) (hash : String) : Counted :=
  match c.1.find? hash with
  | some _ => deleteKey (c.1.get hash, c.2) hash
  | none => c

def insert (c : Counted) (hash : String) (value : ValidatedManifest) : Counted :=
  let inserted := (vacate c hash).1.set limits.maxEntries hash value
  (inserted.1, eject ((vacate c hash).2 + value.decodedBytes) inserted.2)

def settle (s : ManifestCache) (hash : String) (sources : List SourceCandidate) : ManifestCache :=
  { s with
    inflight := s.inflight.map fun load =>
      if load.hash = hash ∧ load.sources = sources then { load with settled := true } else load }

/-- What a load does with the manifest of its loader. -/
def admitValue (s : ManifestCache) (hash : String) (value : ValidatedManifest) : ManifestCache :=
  if value.decodedBytes ≤ limits.maxDecodedBytes ∧ s.aborted = false then
    let inserted := insert limits (s.completed, s.decodedBytes) hash value
    match evictLoop limits (inserted.1.size + 1) inserted with
    | some c => { s with completed := c.1, decodedBytes := c.2 }
    | none => { s with spinning := true }
  else s

def load (s : ManifestCache) (hash : String) (sources : List SourceCandidate) : ManifestCache :=
  if isHash hash = false ∨ s.aborted then s
  else
    match s.completed.find? hash with
    | some value => { s with completed := s.completed.get hash, hits := (hash, value) :: s.hits }
    | none =>
      if s.inflight.any fun load => load.hash = hash ∧ load.sources = sources then s
      else { s with inflight := ⟨hash, sources, false⟩ :: s.inflight }

def loaded (s : ManifestCache) (hash : String) (sources : List SourceCandidate)
    (value : ValidatedManifest) : ManifestCache :=
  if ⟨hash, sources, false⟩ ∈ s.inflight then
    { s.settle hash sources with produced := (hash, value) :: s.produced }.admitValue limits hash value
  else s

/-- The rest of `close`. -/
def clear (s : ManifestCache) : ManifestCache :=
  if s.aborted ∧ s.inflight = [] then
    let c := (s.completed.entries.map Prod.fst).foldl deleteKey (s.completed, s.decodedBytes)
    { s with completed := c.1, decodedBytes := c.2 }
  else s

def step (s : ManifestCache) : CacheEvent → ManifestCache
  | .load hash sources => s.load hash sources
  | .loaded hash sources value => s.loaded limits hash sources value
  | .loadFails hash sources => s.settle hash sources
  | .forget hash sources => { s with inflight := s.inflight.filter (· ≠ ⟨hash, sources, true⟩) }
  | .callerAborts => s
  | .close => { s with aborted := true }
  | .clear => s.clear

def initial : ManifestCache :=
  ⟨.empty, [], 0, false, false, [], []⟩

section Counts

variable {limits : CacheLimits} {c : Counted} {hash : String} {value : ValidatedManifest}

def Exact (c : Counted) : Prop :=
  c.2 = c.1.weight ValidatedManifest.decodedBytes

theorem deleteKey_exact (h : Exact c) (hash : String) : Exact (deleteKey c hash) := by
  have hweight := Lru.weight_delete ValidatedManifest.decodedBytes (c := c.1) (k := hash)
  simp only [Exact, deleteKey, eject] at h ⊢
  rw [h, ← hweight]
  push_cast
  omega

theorem deleteOldest_exact (h : Exact c) : Exact (deleteOldest c) := by
  have hweight := Lru.weight_deleteOldest ValidatedManifest.decodedBytes (c := c.1)
  simp only [Exact, deleteOldest, eject] at h ⊢
  rw [h, ← hweight]
  push_cast
  omega

theorem exact_of_empty (h : Exact c) (hempty : c.1.size = 0) : c.2 = 0 := by
  have hentries : c.1.entries = [] := List.length_eq_zero_iff.mp hempty
  rw [Exact, Lru.weight, hentries] at h
  simpa using h

theorem vacate_exact (h : Exact c) : Exact (vacate c hash) := by
  unfold vacate
  split
  · apply deleteKey_exact
    rw [Exact, Lru.weight_get]
    exact h
  · exact h

theorem vacate_find (c : Counted) (hash : String) : (vacate c hash).1.find? hash = none := by
  unfold vacate
  split
  · exact Lru.find?_without
  · assumption

theorem vacate_size (c : Counted) (hash : String) : (vacate c hash).1.size ≤ c.1.size := by
  unfold vacate
  split
  · exact Lru.size_delete_le.trans_eq Lru.size_get
  · exact le_rfl

theorem mem_vacate {entry : String × ValidatedManifest} (h : entry ∈ (vacate c hash).1.entries) :
    entry ∈ c.1.entries := by
  unfold vacate at h
  split at h
  · exact Lru.mem_get.mp (Lru.mem_without.mp h).1
  · exact h

theorem insert_exact (limits : CacheLimits) (h : Exact c) (hash : String) (value : ValidatedManifest) :
    Exact (insert limits c hash value) := by
  have hvacated : Exact (vacate c hash) := vacate_exact h
  have hset := Lru.weight_set ValidatedManifest.decodedBytes (c := (vacate c hash).1) (k := hash)
    (v := value) limits.maxEntries
  have hdelete := Lru.weight_delete ValidatedManifest.decodedBytes (c := (vacate c hash).1) (k := hash)
  simp only [Lru.delete, vacate_find, Option.map_none, Option.getD_none, Nat.add_zero] at hset hdelete
  simp only [Exact, insert, eject] at hvacated ⊢
  rw [hvacated, ← hdelete]
  omega

theorem insert_size (h : c.1.size ≤ limits.maxEntries) :
    (insert limits c hash value).1.size ≤ limits.maxEntries :=
  Lru.size_set_le ((vacate_size c hash).trans h)

theorem mem_insert {entry : String × ValidatedManifest}
    (h : entry ∈ (insert limits c hash value).1.entries) : entry ∈ c.1.entries ∨ entry = (hash, value) :=
  (Lru.mem_set h).imp_left mem_vacate

/-- The loop comes to an end before the rounds do: each round takes an entry away, and without entries
the count is below the ceiling. -/
theorem evictLoop_ends (limits : CacheLimits) (h : Exact c) {rounds : ℕ} (hrounds : c.1.size < rounds) :
    ∃ d, evictLoop limits rounds c = some d ∧ Exact d ∧ d.2 ≤ limits.maxDecodedBytes ∧
      d.1.size ≤ c.1.size ∧ ∀ entry ∈ d.1.entries, entry ∈ c.1.entries := by
  induction rounds generalizing c with
  | zero => omega
  | succ rounds ih =>
    rw [evictLoop]
    split_ifs with hbound
    · exact ⟨c, rfl, h, hbound, le_rfl, fun _ hentry => hentry⟩
    · have hpos : 0 < c.1.size := by
        apply Nat.pos_of_ne_zero
        intro hempty
        rw [exact_of_empty h hempty] at hbound
        exact hbound (Int.natCast_nonneg _)
      have hsize : (deleteOldest c).1.size = c.1.size - 1 := Lru.size_deleteOldest
      obtain ⟨d, hd, hexact, hle, hshrinks, hsubset⟩ := ih (deleteOldest_exact h) (by omega)
      refine ⟨d, hd, hexact, hle, by omega, fun entry hentry => ?_⟩
      exact Lru.mem_deleteOldest (hsubset entry hentry)

end Counts

section Runs

variable {limits : CacheLimits} {s : ManifestCache}

structure Accounted (limits : CacheLimits) (s : ManifestCache) : Prop where
  exact' : s.decodedBytes = s.completed.weight ValidatedManifest.decodedBytes
  bytes : s.decodedBytes ≤ limits.maxDecodedBytes
  entries : s.completed.size ≤ limits.maxEntries
  running : s.spinning = false
  produced : ∀ entry ∈ s.completed.entries, entry ∈ s.produced
  hits : ∀ hit ∈ s.hits, hit ∈ s.produced

theorem admitValue_accounted (h : s.Accounted limits) {hash : String} {value : ValidatedManifest}
    (hproduced : (hash, value) ∈ s.produced) : (s.admitValue limits hash value).Accounted limits := by
  unfold admitValue
  split_ifs with hadmits
  · have hexact : Exact (s.completed, s.decodedBytes) := h.exact'
    obtain ⟨d, hd, hsum, hbytes, hsize, hsubset⟩ :=
      evictLoop_ends limits (insert_exact limits hexact hash value) (Nat.lt_succ_self _)
    simp only [Nat.succ_eq_add_one] at hd
    simp only [hd]
    refine ⟨hsum, hbytes, hsize.trans (insert_size h.entries), h.running, ?_, h.hits⟩
    intro entry hentry
    rcases mem_insert (hsubset entry hentry) with hold | rfl
    · exact h.produced entry hold
    · exact hproduced
  · exact h

theorem foldl_deleteKey (keys : List String) {c : Counted} (h : Exact c) :
    Exact (keys.foldl deleteKey c) ∧
      ∀ entry ∈ (keys.foldl deleteKey c).1.entries, entry ∈ c.1.entries ∧ entry.1 ∉ keys := by
  induction keys generalizing c with
  | nil => exact ⟨h, fun _ hentry => ⟨hentry, List.not_mem_nil⟩⟩
  | cons key keys ih =>
    obtain ⟨hexact, hsubset⟩ := ih (deleteKey_exact h key)
    refine ⟨hexact, fun entry hentry => ?_⟩
    obtain ⟨hmem, hnot⟩ := hsubset entry hentry
    obtain ⟨hold, hne⟩ := Lru.mem_without.mp hmem
    exact ⟨hold, by simp [hne, hnot]⟩

theorem clear_empty {c : Counted} (h : Exact c) :
    ((c.1.entries.map Prod.fst).foldl deleteKey c).1.entries = [] ∧
      ((c.1.entries.map Prod.fst).foldl deleteKey c).2 = 0 := by
  obtain ⟨hexact, hsubset⟩ := foldl_deleteKey (c.1.entries.map Prod.fst) h
  have hempty : ((c.1.entries.map Prod.fst).foldl deleteKey c).1.entries = [] := by
    rw [List.eq_nil_iff_forall_not_mem]
    intro entry hentry
    obtain ⟨hmem, hnot⟩ := hsubset entry hentry
    exact hnot (List.mem_map_of_mem hmem)
  exact ⟨hempty, exact_of_empty hexact (List.length_eq_zero_iff.mpr hempty)⟩

theorem step_accounted (h : s.Accounted limits) (e : CacheEvent) :
    (s.step limits e).Accounted limits := by
  cases e with
  | load hash sources =>
    simp only [step, load]
    split
    · exact h
    split
    next value hvalue =>
      have hmem := Lru.find?_eq_some.mp hvalue
      refine ⟨?_, h.bytes, Lru.size_get.trans_le h.entries, h.running, ?_, ?_⟩
      · rw [Lru.weight_get]
        exact h.exact'
      · exact fun entry hentry => h.produced entry (Lru.mem_get.mp hentry)
      · exact List.forall_mem_cons.mpr ⟨h.produced _ hmem, h.hits⟩
    · split_ifs
      · exact h
      · exact ⟨h.exact', h.bytes, h.entries, h.running, h.produced, h.hits⟩
  | loaded hash sources value =>
    simp only [step, loaded]
    split_ifs
    · apply admitValue_accounted _ List.mem_cons_self
      exact ⟨h.exact', h.bytes, h.entries, h.running,
        fun entry hentry => List.mem_cons_of_mem _ (h.produced entry hentry),
        fun hit hhit => List.mem_cons_of_mem _ (h.hits hit hhit)⟩
    · exact h
  | clear =>
    simp only [step, clear]
    split_ifs
    · have hexact : Exact (s.completed, s.decodedBytes) := h.exact'
      obtain ⟨hempty, hzero⟩ := clear_empty hexact
      refine ⟨?_, ?_, ?_, h.running, ?_, h.hits⟩
      · simp [hzero, Lru.weight, hempty]
      · simp [hzero]
      · simp [Lru.size, hempty]
      · simp [hempty]
    · exact h
  | callerAborts => exact h
  | _ => exact ⟨h.exact', h.bytes, h.entries, h.running, h.produced, h.hits⟩

/-- In every state the count is the sum over the entries and not negative, the ceilings hold, every
eviction loop has ended, and a hit has returned what a loader has produced for the hash. -/
theorem cache_accounted (limits : CacheLimits) (events : List CacheEvent) :
    (run (step limits) initial events).Accounted limits ∧
      0 ≤ (run (step limits) initial events).decodedBytes := by
  have hinitial : initial.Accounted limits :=
    ⟨rfl, Int.natCast_nonneg _, Nat.zero_le _, rfl, nofun, nofun⟩
  have haccounted := run_preserves (I := Accounted limits) (fun s e hs => step_accounted hs e) events
    hinitial
  refine ⟨haccounted, ?_⟩
  rw [haccounted.exact']
  exact Int.natCast_nonneg _

end Runs

end ManifestCache

end NixstrCache.Hashtree
