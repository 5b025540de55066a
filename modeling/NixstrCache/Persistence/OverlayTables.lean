import NixstrCache.Lib.Rounds
import NixstrCache.Persistence.Overlay

/-!
What staging and a commit of the overlay do to their tables.

A commit puts under the next generation every row of the current one, the staged rows that the
narinfos of the new store paths name, and the new store paths.  Rows of other generations stay.
-/

namespace NixstrCache.Persistence.WriteRepository

open Durable KeyedTable Rounds

section Narinfos

variable {s t : WriteRepository} {route : String} {info : StagingNarInfo}

theorem insertReferences_ok {s : WriteRepository} {hash : String} {references : List String}
    (hnodup : references.Nodup) : ∃ stagedReferences,
      insertReferences hash references s = .ok ((), { s with stagedReferences := stagedReferences }) ∧
      ∀ r : StagedReferenceRow, r ∈ stagedReferences.rows ↔
        r ∈ s.stagedReferences.rows ∧ r.storePathHash ≠ hash ∨
          r.storePathHash = hash ∧ r.referenceHash ∈ references := by
  have hsome : ((s.stagedReferences.filter fun r => r.storePathHash ≠ hash).insertAll?
      (references.map fun r => ⟨hash, r⟩)).isSome := by
    apply Table.insertAll?_isSome.mpr
    constructor
    · rw [List.map_map]
      apply hnodup.map
      intro a b hab
      exact congrArg Prod.snd hab
    · intro r hr q hq hkey
      obtain ⟨reference, -, rfl⟩ := List.mem_map.mp hr
      have hne := (Table.mem_filter.mp hq).2
      have hsame : q.storePathHash = hash := congrArg Prod.fst hkey
      simp [hsame] at hne
  obtain ⟨stagedReferences, hinsert⟩ := Option.isSome_iff_exists.mp hsome
  refine ⟨stagedReferences, ?_, ?_⟩
  · simp only [insertReferences, hinsert]
  · intro r
    rw [Table.insertAll?_rows hinsert, List.mem_append, Table.mem_filter]
    obtain ⟨storePathHash, referenceHash⟩ := r
    simp only [decide_eq_true_eq, List.mem_map, StagedReferenceRow.mk.injEq]
    constructor
    · rintro (hold | ⟨reference, hreference, rfl, rfl⟩)
      · exact Or.inl hold
      · exact Or.inr ⟨rfl, hreference⟩
    · rintro (hold | ⟨rfl, hreference⟩)
      · exact Or.inl hold
      · exact Or.inr ⟨referenceHash, hreference, rfl, rfl⟩

/-- `recordNarInfo` replaces the narinfo of a store path with its references. -/
structure Recorded (route : String) (info : StagingNarInfo) (s t : WriteRepository) : Prop where
  narInfos : ∀ hash, t.stagedNarInfos.find? hash =
    if info.storePathHash = hash then some ⟨info.storePathHash, route, info.url, info.rawBytes⟩
    else (s.stagedNarInfos.find? hash).filter fun r => r.route ≠ route
  references : ∀ r : StagedReferenceRow, r ∈ t.stagedReferences.rows ↔
    r ∈ s.stagedReferences.rows ∧ r.storePathHash ≠ info.storePathHash ∨
      r.storePathHash = info.storePathHash ∧ r.referenceHash ∈ info.references
  rest : ∃ stagedNarInfos stagedReferences,
    t = { s with stagedNarInfos := stagedNarInfos, stagedReferences := stagedReferences }

theorem recordNarInfo_run (route : String) (info : StagingNarInfo) (s : WriteRepository) :
    ∃ t, (recordNarInfo route info).run s = ⟨[t], .ok ()⟩ ∧ Recorded route info s t := by
  have hnodup : (info.references.dedup.insertionSort (· ≤ ·)).Nodup :=
    (List.perm_insertionSort _ _).nodup_iff.mpr (List.nodup_dedup _)
  obtain ⟨stagedReferences, hinsert, hrows⟩ := insertReferences_ok
    hnodup
    (s := { s with
      stagedNarInfos := Table.insertOrReplace (s.stagedNarInfos.filter fun r => r.route ≠ route)
        ⟨info.storePathHash, route, info.url, info.rawBytes⟩ })
  refine ⟨_, Program.transaction_run_ok hinsert, ?_, ?_, _, _, rfl⟩
  · intro hash
    rw [Table.find?_insertOrReplace, Table.find?_filter]
  · intro r
    rw [hrows]
    simp [(List.perm_insertionSort _ _).mem_iff]

end Narinfos

section Candidates

variable {s : WriteRepository} {changed : String}

theorem mem_referencesOf {storePathHash reference : String} :
    reference ∈ s.referencesOf storePathHash ↔
      (⟨storePathHash, reference⟩ : StagedReferenceRow) ∈ s.stagedReferences.rows := by
  rw [referencesOf, (List.perm_insertionSort _ _).mem_iff]
  simp only [List.mem_map, List.mem_filter, decide_eq_true_eq]
  constructor
  · rintro ⟨r, ⟨hr, rfl⟩, rfl⟩
    exact hr
  · intro hr
    exact ⟨_, ⟨hr, rfl⟩, rfl⟩

/-- The hash that the query of `affectedCandidates` starts from. -/
def seedOf (s : WriteRepository) (changed : String) : Option String :=
  truthy (if changed.startsWith "nar/" then
    (s.stagedNarInfos.rows.find? fun r => r.narRoute = changed).map StagedNarInfoRow.storePathHash
  else some (String.ofList (changed.toList.take 32)))

/-- The hashes that the query of `affectedCandidates` reaches. -/
def reached (s : WriteRepository) (changed : String) : List String :=
  match s.seedOf changed with
  | none => []
  | some seed => s.affected seed

def candidateRow (s : WriteRepository) (r : StagedNarInfoRow) : StagedNarInfo :=
  ⟨r.storePathHash, r.route, r.narRoute, s.referencesOf r.storePathHash, r.metadataBytes⟩

theorem mem_affectedCandidates {maxVisited : ℕ} {candidates : List StagedNarInfo}
    (h : s.affectedCandidates changed maxVisited = .ok candidates) (c : StagedNarInfo) :
    c ∈ candidates ↔ ∃ r ∈ s.stagedNarInfos.rows, r.storePathHash ∈ s.reached changed ∧
      s.candidateRow r = c := by
  have hseed : truthy (if changed.startsWith "nar/" then
      (s.stagedNarInfos.rows.find? fun r => r.narRoute = changed).map StagedNarInfoRow.storePathHash
    else some (String.ofList (changed.toList.take 32))) = s.seedOf changed := rfl
  unfold affectedCandidates at h
  cases hcase : s.seedOf changed with
  | none =>
    simp only [hseed, hcase, Except.ok.injEq] at h
    simp [← h, reached, hcase]
  | some seed =>
    simp only [hseed, hcase] at h
    split_ifs at h
    cases h
    simp only [reached, hcase, List.mem_map, (List.perm_insertionSort _ _).mem_iff, List.mem_filter,
      decide_eq_true_eq, and_assoc]
    rfl

theorem reached_closed {r : StagedReferenceRow} (hr : r ∈ s.stagedReferences.rows)
    (hreference : r.referenceHash ∈ s.reached changed) : r.storePathHash ∈ s.reached changed := by
  unfold reached at hreference ⊢
  split at hreference
  · simp at hreference
  · next seed hseed => exact iterate_closed [seed] r hr hreference

theorem seed_reached {seed : String} (h : s.seedOf changed = some seed) : seed ∈ s.reached changed := by
  simp only [reached, h]
  exact mem_iterate_seed (List.mem_singleton_self seed) _

end Candidates

section Commits

variable {s t u v : WriteRepository} {generation : ℕ} {hashes : List String}

theorem mem_overlayStorePathsOf {hash : String} :
    hash ∈ s.overlayStorePathsOf generation ↔ s.overlayStorePaths.has (generation, hash) = true := by
  rw [overlayStorePathsOf, Table.has_iff]
  simp only [List.mem_map, List.mem_filter, decide_eq_true_eq]
  constructor
  · rintro ⟨r, ⟨hr, rfl⟩, rfl⟩
    exact ⟨r, hr, rfl⟩
  · rintro ⟨r, hr, hkey⟩
    exact ⟨r, ⟨hr, congrArg Prod.fst hkey⟩, congrArg Prod.snd hkey⟩

def entryOf (generation : ℕ) (row : StagedBlobRow) : OverlayEntryRow :=
  ⟨generation, row.route, row.digest, row.size, row.path⟩

/-- The routes that the narinfos of the store paths are staged at and name. -/
def Names (s : WriteRepository) (hashes : List String) (route : String) : Prop :=
  ∃ hash ∈ hashes, ∃ n, s.stagedNarInfos.find? hash = some n ∧ (route = n.route ∨ route = n.narRoute)

theorem names_append {xs ys : List String} {route : String} :
    Names s (xs ++ ys) route ↔ Names s xs route ∨ Names s ys route := by
  simp only [Names, List.mem_append, or_and_right, exists_or]

/-- What the loop of a commit adds under its generation. -/
structure Added (generation : ℕ) (hashes : List String) (s t : WriteRepository) : Prop where
  stagedBlobs : t.stagedBlobs = s.stagedBlobs
  stagedNarInfos : t.stagedNarInfos = s.stagedNarInfos
  stagedReferences : t.stagedReferences = s.stagedReferences
  named : ∀ route, Names s hashes route → ∃ row, s.lookup route = some row ∧
    t.overlayEntries.find? (generation, route) = some (entryOf generation row)
  kept : ∀ k, (k.1 = generation → ¬Names s hashes k.2) →
    t.overlayEntries.find? k = s.overlayEntries.find? k
  paths : ∀ k, t.overlayStorePaths.has k = true ↔
    s.overlayStorePaths.has k = true ∨ k.1 = generation ∧ k.2 ∈ hashes
  found : ∀ hash ∈ hashes, ∃ n, s.stagedNarInfos.find? hash = some n

theorem Added.refl (generation : ℕ) (s : WriteRepository) : Added generation [] s s where
  stagedBlobs := rfl
  stagedNarInfos := rfl
  stagedReferences := rfl
  named := by simp [Names]
  kept _ _ := rfl
  paths := by simp
  found := by simp

theorem Added.trans {xs ys : List String} (h : Added generation xs s t)
    (h' : Added generation ys t u) : Added generation (xs ++ ys) s u := by
  have hnames : ∀ zs route, Names t zs route ↔ Names s zs route := by
    intro zs route
    rw [Names, Names, h.stagedNarInfos]
  have hlookup : ∀ route, t.lookup route = s.lookup route := by
    intro route
    rw [lookup, lookup, h.stagedBlobs]
  constructor
  · exact h'.stagedBlobs.trans h.stagedBlobs
  · exact h'.stagedNarInfos.trans h.stagedNarInfos
  · exact h'.stagedReferences.trans h.stagedReferences
  · intro route hroute
    by_cases hlast : Names t ys route
    · obtain ⟨row, hrow, hentry⟩ := h'.named route hlast
      exact ⟨row, (hlookup route).symm.trans hrow, hentry⟩
    · have hfirst : Names s xs route := by
        rcases names_append.mp hroute with hx | hy
        · exact hx
        · exact absurd ((hnames ys route).mpr hy) hlast
      obtain ⟨row, hrow, hentry⟩ := h.named route hfirst
      refine ⟨row, hrow, ?_⟩
      rw [h'.kept (generation, route) fun _ => hlast]
      exact hentry
  · intro k hk
    have hx : k.1 = generation → ¬Names s xs k.2 := fun hgen hin =>
      hk hgen (names_append.mpr (Or.inl hin))
    have hy : k.1 = generation → ¬Names t ys k.2 := fun hgen hin =>
      hk hgen (names_append.mpr (Or.inr ((hnames ys k.2).mp hin)))
    rw [h'.kept k hy, h.kept k hx]
  · intro k
    rw [h'.paths, h.paths, List.mem_append, and_or_left, or_assoc]
  · intro hash hhash
    rcases List.mem_append.mp hhash with hx | hy
    · exact h.found hash hx
    · obtain ⟨n, hn⟩ := h'.found hash hy
      rw [h.stagedNarInfos] at hn
      exact ⟨n, hn⟩

theorem commitStagedRoute_ok {route message : String}
    (h : commitStagedRoute generation route message s = .ok t) : ∃ row, s.lookup route = some row ∧
      t = { s with overlayEntries := s.overlayEntries.insertOrReplace (entryOf generation row) } := by
  unfold commitStagedRoute at h
  split at h
  · simp at h
  · next row hrow =>
    cases h
    exact ⟨row, hrow, rfl⟩

theorem lookup_route {route : String} {row : StagedBlobRow} (h : s.lookup route = some row) :
    row.route = route :=
  (Table.find?_eq_some.mp h).2

theorem commitStorePath_ok {hash : String} (h : commitStorePath generation hash s = .ok t) :
    ∃ n row narRow, s.stagedNarInfos.find? hash = some n ∧ s.lookup n.route = some row ∧
      s.lookup n.narRoute = some narRow ∧
      t = { s with
        overlayEntries := (s.overlayEntries.insertOrReplace (entryOf generation row)).insertOrReplace
          (entryOf generation narRow)
        overlayStorePaths := s.overlayStorePaths.insertOrIgnore ⟨generation, hash⟩ } := by
  unfold commitStorePath at h
  split at h
  · simp at h
  · next n hn =>
    cases h₁ : commitStagedRoute generation n.route "eligible blob disappeared" s with
    | error e => simp [h₁, bind, Except.bind] at h
    | ok u =>
      cases h₂ : commitStagedRoute generation n.narRoute "eligible blob disappeared" u with
      | error e => simp [h₁, h₂, bind, Except.bind] at h
      | ok v =>
        simp only [h₁, h₂, bind, Except.bind, Except.ok.injEq] at h
        obtain ⟨row, hrow, rfl⟩ := commitStagedRoute_ok h₁
        obtain ⟨narRow, hnarRow, rfl⟩ := commitStagedRoute_ok h₂
        exact ⟨n, row, narRow, hn, hrow, hnarRow, h.symm⟩

theorem commitStorePath_added {hash : String} (h : commitStorePath generation hash s = .ok t) :
    Added generation [hash] s t := by
  obtain ⟨n, row, narRow, hn, hrow, hnarRow, rfl⟩ := commitStorePath_ok h
  have hroute := lookup_route hrow
  have hnarRoute := lookup_route hnarRow
  have hnames : ∀ route, Names s [hash] route ↔ route = n.route ∨ route = n.narRoute := by
    intro route
    simp [Names, hn]
  constructor
  · rfl
  · rfl
  · rfl
  · intro route hr
    by_cases hnar : route = n.narRoute
    · refine ⟨narRow, hnar ▸ hnarRow, ?_⟩
      rw [Table.find?_insertOrReplace, if_pos]
      rw [hnar, ← hnarRoute]
      rfl
    · have hr : route = n.route := ((hnames route).mp hr).resolve_right hnar
      refine ⟨row, hr ▸ hrow, ?_⟩
      rw [Table.find?_insertOrReplace, if_neg, Table.find?_insertOrReplace, if_pos]
      · rw [hr, ← hroute]
        rfl
      · intro hkey
        have hsame : narRow.route = route := congrArg Prod.snd hkey
        exact hnar (hsame.symm.trans hnarRoute)
  · rintro ⟨g, route⟩ hk
    have hother : ∀ r : StagedBlobRow, r.route = n.route ∨ r.route = n.narRoute →
        (entryOf generation r).key ≠ (g, route) := by
      intro r hr hkey
      have hgen : generation = g := congrArg Prod.fst hkey
      have hsame : r.route = route := congrArg Prod.snd hkey
      exact hk hgen.symm ((hnames route).mpr (hsame ▸ hr))
    rw [Table.find?_insertOrReplace, if_neg (hother narRow (Or.inr hnarRoute)),
      Table.find?_insertOrReplace, if_neg (hother row (Or.inl hroute))]
  · rintro ⟨g, path⟩
    rw [Table.has_insertOrIgnore, List.mem_singleton]
    simp [OverlayStorePathRow.key]
  · intro h' hh'
    rw [List.mem_singleton.mp hh']
    exact ⟨n, hn⟩

theorem foldlM_added (hashes : List String)
    (h : hashes.foldlM (fun t hash => commitStorePath generation hash t) s = .ok t) :
    Added generation hashes s t := by
  induction hashes generalizing s with
  | nil =>
    obtain rfl : s = t := by simpa [pure, Except.pure] using h
    exact Added.refl generation s
  | cons hash hashes ih =>
    rw [List.foldlM_cons] at h
    cases hx : commitStorePath generation hash s with
    | error e => simp [hx, bind, Except.bind] at h
    | ok u =>
      simp only [hx, bind, Except.bind] at h
      exact (commitStorePath_added hx).trans (ih h)

structure Current (s : WriteRepository) : Prop where
  entries : ∀ r ∈ s.overlayEntries.rows, r.generation ≤ s.currentGeneration
  paths : ∀ r ∈ s.overlayStorePaths.rows, r.generation ≤ s.currentGeneration

theorem Current.entry_fresh (h : Current s) {g : ℕ} (hg : s.currentGeneration < g) (route : String) :
    s.overlayEntries.find? (g, route) = none := by
  apply Table.find?_eq_none.mpr
  intro r hr hkey
  have hle := h.entries r hr
  have hgen : r.generation = g := congrArg Prod.fst hkey
  omega

theorem Current.path_fresh (h : Current s) {g : ℕ} (hg : s.currentGeneration < g) (hash : String) :
    ¬s.overlayStorePaths.has (g, hash) = true := by
  intro hhas
  obtain ⟨r, hr, hkey⟩ := Table.has_iff.mp hhas
  have hle := h.paths r hr
  have hgen : r.generation = g := congrArg Prod.fst hkey
  omega

/-- The copy of the current generation under the next number. -/
structure Copied (s t : WriteRepository) : Prop where
  entries : ∀ route, t.overlayEntries.find? (s.currentGeneration + 1, route) =
    (s.overlayEntries.find? (s.currentGeneration, route)).map fun r =>
      { r with generation := s.currentGeneration + 1 }
  older : ∀ g route, g ≤ s.currentGeneration →
    t.overlayEntries.find? (g, route) = s.overlayEntries.find? (g, route)
  paths : ∀ hash, t.overlayStorePaths.has (s.currentGeneration + 1, hash) = true ↔
    s.overlayStorePaths.has (s.currentGeneration, hash) = true
  olderPaths : ∀ g hash, g ≤ s.currentGeneration →
    (t.overlayStorePaths.has (g, hash) = true ↔ s.overlayStorePaths.has (g, hash) = true)
  rest : ∃ overlayEntries overlayStorePaths,
    t = { s with overlayEntries := overlayEntries, overlayStorePaths := overlayStorePaths }
  current : ∀ r ∈ t.overlayEntries.rows, r.generation ≤ s.currentGeneration + 1
  currentPaths : ∀ r ∈ t.overlayStorePaths.rows, r.generation ≤ s.currentGeneration + 1

def copiedEntries (s : WriteRepository) : List OverlayEntryRow :=
  (s.overlayEntries.rows.filter fun r => r.generation = s.currentGeneration).map fun r =>
    { r with generation := s.currentGeneration + 1 }

def copiedPaths (s : WriteRepository) : List OverlayStorePathRow :=
  (s.overlayStorePaths.rows.filter fun r => r.generation = s.currentGeneration).map fun r =>
    { r with generation := s.currentGeneration + 1 }

theorem copyGeneration_ok (hs : Current s)
    (h : s.copyGeneration s.currentGeneration (s.currentGeneration + 1) = .ok t) : Copied s t := by
  unfold copyGeneration at h
  split at h
  · simp at h
  · next overlayEntries hentries =>
    split at h
    · simp at h
    · next overlayStorePaths hpaths =>
      cases h
      have hrows : overlayEntries.rows = s.overlayEntries.rows ++ s.copiedEntries :=
        Table.insertAll?_rows hentries
      have hpathRows : overlayStorePaths.rows = s.overlayStorePaths.rows ++ s.copiedPaths :=
        Table.insertAll?_rows hpaths
      have hnew : ∀ r ∈ s.copiedEntries, r.generation = s.currentGeneration + 1 := by
        intro r hr
        obtain ⟨q, -, rfl⟩ := List.mem_map.mp hr
        rfl
      have hnewPath : ∀ r ∈ s.copiedPaths, r.generation = s.currentGeneration + 1 := by
        intro r hr
        obtain ⟨q, -, rfl⟩ := List.mem_map.mp hr
        rfl
      constructor
      · intro route
        cases hold : s.overlayEntries.find? (s.currentGeneration, route) with
        | none =>
          apply Table.find?_eq_none.mpr
          intro r hr hkey
          rw [hrows, List.mem_append] at hr
          have hgen : r.generation = s.currentGeneration + 1 := congrArg Prod.fst hkey
          have hroute : r.route = route := congrArg Prod.snd hkey
          rcases hr with hr | hr
          · have hle := hs.entries r hr
            omega
          · obtain ⟨q, hq, rfl⟩ := List.mem_map.mp hr
            obtain ⟨hq, hcur⟩ := List.mem_filter.mp hq
            have hcur : q.generation = s.currentGeneration := by simpa using hcur
            apply Table.find?_eq_none.mp hold q hq
            rw [OverlayEntryRow.key, hcur]
            exact congrArg _ hroute
        | some q =>
          obtain ⟨hq, hkey⟩ := Table.find?_eq_some.mp hold
          have hgen : q.generation = s.currentGeneration := congrArg Prod.fst hkey
          have hroute : q.route = route := congrArg Prod.snd hkey
          apply Table.find?_eq_some.mpr
          constructor
          · rw [hrows, List.mem_append]
            right
            exact List.mem_map.mpr ⟨q, by simp [hq, hgen], rfl⟩
          · rw [← hroute]
            rfl
      · intro g route hg
        apply Table.find?_congr
        intro r hkey
        have hgen : r.generation = g := congrArg Prod.fst hkey
        rw [hrows, List.mem_append]
        constructor
        · rintro (hr | hr)
          · exact hr
          · have hnext := hnew r hr
            omega
        · exact Or.inl
      · intro hash
        rw [Table.has_iff, Table.has_iff]
        constructor
        · rintro ⟨r, hr, hkey⟩
          rw [hpathRows, List.mem_append] at hr
          have hgen : r.generation = s.currentGeneration + 1 := congrArg Prod.fst hkey
          have hpath : r.storePathHash = hash := congrArg Prod.snd hkey
          rcases hr with hr | hr
          · have hle := hs.paths r hr
            omega
          · obtain ⟨q, hq, rfl⟩ := List.mem_map.mp hr
            obtain ⟨hq, hcur⟩ := List.mem_filter.mp hq
            have hcur : q.generation = s.currentGeneration := by simpa using hcur
            refine ⟨q, hq, ?_⟩
            rw [OverlayStorePathRow.key, hcur]
            exact congrArg _ hpath
        · rintro ⟨q, hq, hkey⟩
          have hgen : q.generation = s.currentGeneration := congrArg Prod.fst hkey
          have hpath : q.storePathHash = hash := congrArg Prod.snd hkey
          refine ⟨{ q with generation := s.currentGeneration + 1 }, ?_, ?_⟩
          · rw [hpathRows, List.mem_append]
            right
            exact List.mem_map.mpr ⟨q, by simp [hq, hgen], rfl⟩
          · rw [← hpath]
            rfl
      · intro g hash hg
        rw [Table.has_iff, Table.has_iff]
        constructor
        · rintro ⟨r, hr, hkey⟩
          rw [hpathRows, List.mem_append] at hr
          have hgen : r.generation = g := congrArg Prod.fst hkey
          rcases hr with hr | hr
          · exact ⟨r, hr, hkey⟩
          · have hnext := hnewPath r hr
            omega
        · rintro ⟨r, hr, hkey⟩
          exact ⟨r, by rw [hpathRows]; exact List.mem_append_left _ hr, hkey⟩
      · exact ⟨overlayEntries, overlayStorePaths, rfl⟩
      · intro r hr
        rw [hrows, List.mem_append] at hr
        rcases hr with hr | hr
        · have hle := hs.entries r hr
          omega
        · exact (hnew r hr).le
      · intro r hr
        rw [hpathRows, List.mem_append] at hr
        rcases hr with hr | hr
        · have hle := hs.paths r hr
          omega
        · exact (hnewPath r hr).le

/-- What `commitOverlay` leaves. -/
structure OverlayCommit (hashes : List String) (s t : WriteRepository) : Prop where
  generation : t.currentGeneration = s.currentGeneration + 1
  stagedBlobs : t.stagedBlobs = s.stagedBlobs
  stagedNarInfos : t.stagedNarInfos = s.stagedNarInfos
  stagedReferences : t.stagedReferences = s.stagedReferences
  older : ∀ g route, g ≤ s.currentGeneration →
    t.overlayEntries.find? (g, route) = s.overlayEntries.find? (g, route)
  olderPaths : ∀ g hash, g ≤ s.currentGeneration →
    (t.overlayStorePaths.has (g, hash) = true ↔ s.overlayStorePaths.has (g, hash) = true)
  named : ∀ route, Names s hashes route → ∃ row, s.lookup route = some row ∧
    t.overlayEntries.find? (s.currentGeneration + 1, route) =
      some (entryOf (s.currentGeneration + 1) row)
  copied : ∀ route, ¬Names s hashes route →
    t.overlayEntries.find? (s.currentGeneration + 1, route) =
      (s.overlayEntries.find? (s.currentGeneration, route)).map fun r =>
        { r with generation := s.currentGeneration + 1 }
  paths : ∀ hash, t.overlayStorePaths.has (s.currentGeneration + 1, hash) = true ↔
    s.overlayStorePaths.has (s.currentGeneration, hash) = true ∨ hash ∈ hashes
  found : ∀ hash ∈ hashes, ∃ n, s.stagedNarInfos.find? hash = some n
  current : Current t

theorem commitStorePath_generations {hash : String} {n : ℕ}
    (h : commitStorePath generation hash s = .ok t) (hle : generation ≤ n)
    (hs : (∀ r ∈ s.overlayEntries.rows, r.generation ≤ n) ∧
      ∀ r ∈ s.overlayStorePaths.rows, r.generation ≤ n) :
    (∀ r ∈ t.overlayEntries.rows, r.generation ≤ n) ∧
      ∀ r ∈ t.overlayStorePaths.rows, r.generation ≤ n := by
  obtain ⟨-, row, narRow, -, -, -, rfl⟩ := commitStorePath_ok h
  constructor
  · intro r hr
    rcases Table.mem_insertOrReplace.mp hr with ⟨hr, -⟩ | rfl
    · rcases Table.mem_insertOrReplace.mp hr with ⟨hr, -⟩ | rfl
      · exact hs.1 r hr
      · exact hle
    · exact hle
  · intro r hr
    rcases Table.mem_insertOrIgnore.mp hr with hr | ⟨rfl, -⟩
    · exact hs.2 r hr
    · exact hle

theorem foldlM_generations {n : ℕ} (hashes : List String) (hle : generation ≤ n)
    (h : hashes.foldlM (fun t hash => commitStorePath generation hash t) s = .ok t)
    (hs : (∀ r ∈ s.overlayEntries.rows, r.generation ≤ n) ∧
      ∀ r ∈ s.overlayStorePaths.rows, r.generation ≤ n) :
    (∀ r ∈ t.overlayEntries.rows, r.generation ≤ n) ∧
      ∀ r ∈ t.overlayStorePaths.rows, r.generation ≤ n := by
  induction hashes generalizing s with
  | nil =>
    obtain rfl : s = t := by simpa [pure, Except.pure] using h
    exact hs
  | cons hash hashes ih =>
    rw [List.foldlM_cons] at h
    cases hx : commitStorePath generation hash s with
    | error e => simp [hx, bind, Except.bind] at h
    | ok u =>
      simp only [hx, bind, Except.bind] at h
      exact ih h (commitStorePath_generations hx hle hs)

theorem advanceOverlay_ok (hs : Current s) (h : advanceOverlay hashes s = .ok (generation, t)) :
    generation = s.currentGeneration + 1 ∧ OverlayCommit hashes s t := by
  unfold advanceOverlay at h
  cases hcopy : s.copyGeneration s.currentGeneration (s.currentGeneration + 1) with
  | error e => simp [hcopy, bind, Except.bind] at h
  | ok u =>
    simp only [hcopy, bind, Except.bind] at h
    split at h
    · simp at h
    · next v hfold =>
      simp only [Except.ok.injEq, Prod.mk.injEq] at h
      obtain ⟨rfl, rfl⟩ := h
      have hcopied := copyGeneration_ok hs hcopy
      have hadded := foldlM_added _ hfold
      have hcurrent := foldlM_generations _ le_rfl hfold ⟨hcopied.current, hcopied.currentPaths⟩
      have hmem : ∀ hash, hash ∈ hashes.dedup.insertionSort (· ≤ ·) ↔ hash ∈ hashes := by
        simp [(List.perm_insertionSort _ _).mem_iff]
      obtain ⟨overlayEntries, overlayStorePaths, rfl⟩ := hcopied.rest
      have hnames : ∀ route, Names s hashes route ↔
          Names { s with overlayEntries := overlayEntries, overlayStorePaths := overlayStorePaths }
            (hashes.dedup.insertionSort (· ≤ ·)) route := by
        simp only [Names, hmem, implies_true]
      refine ⟨rfl, rfl, hadded.stagedBlobs, hadded.stagedNarInfos, hadded.stagedReferences, ?_, ?_, ?_,
        ?_, ?_, ?_, ⟨hcurrent.1, hcurrent.2⟩⟩
      · intro g route hg
        rw [← hcopied.older g route hg]
        exact hadded.kept (g, route) fun hgen => absurd hgen (by simp only; omega)
      · intro g hash hg
        rw [← hcopied.olderPaths g hash hg]
        apply (hadded.paths (g, hash)).trans
        simp only [or_iff_left_iff_imp, and_imp]
        intro hgen
        omega
      · intro route hroute
        exact hadded.named route ((hnames route).mp hroute)
      · intro route hroute
        rw [← hcopied.entries route]
        exact hadded.kept _ fun _ hin => hroute ((hnames route).mpr hin)
      · intro hash
        rw [← hcopied.paths hash, ← hmem hash]
        apply (hadded.paths _).trans
        simp
      · intro hash hhash
        exact hadded.found hash ((hmem hash).mpr hhash)

theorem copyGeneration_rest {previous : ℕ} (h : s.copyGeneration previous generation = .ok t) :
    ∃ overlayEntries overlayStorePaths,
      t = { s with overlayEntries := overlayEntries, overlayStorePaths := overlayStorePaths } := by
  unfold copyGeneration at h
  split at h
  · simp at h
  · next overlayEntries _ =>
    split at h
    · simp at h
    · next overlayStorePaths _ =>
      cases h
      exact ⟨overlayEntries, overlayStorePaths, rfl⟩

theorem commitStorePaths_rest
    (h : hashes.foldlM (fun t hash => commitStorePath generation hash t) s = .ok t) :
    ∃ overlayEntries overlayStorePaths,
      t = { s with overlayEntries := overlayEntries, overlayStorePaths := overlayStorePaths } := by
  induction hashes generalizing s with
  | nil =>
    obtain rfl : s = t := by simpa [pure, Except.pure] using h
    exact ⟨s.overlayEntries, s.overlayStorePaths, rfl⟩
  | cons hash rest ih =>
    rw [List.foldlM_cons] at h
    cases hu : commitStorePath generation hash s with
    | error e => simp [hu, bind, Except.bind] at h
    | ok u =>
      simp only [hu, bind, Except.bind] at h
      obtain ⟨_, _, _, -, -, -, rfl⟩ := commitStorePath_ok hu
      obtain ⟨overlayEntries, overlayStorePaths, ht⟩ := ih h
      exact ⟨overlayEntries, overlayStorePaths, ht⟩

theorem advanceOverlay_rest (h : advanceOverlay hashes s = .ok (generation, t)) :
    ∃ overlayEntries overlayStorePaths,
      t = { s with
        overlayEntries := overlayEntries
        overlayStorePaths := overlayStorePaths
        currentGeneration := s.currentGeneration + 1 } := by
  unfold advanceOverlay at h
  cases hcopy : s.copyGeneration s.currentGeneration (s.currentGeneration + 1) with
  | error e => simp [hcopy, bind, Except.bind] at h
  | ok u =>
    simp only [hcopy, bind, Except.bind] at h
    split at h
    · simp at h
    · next v hfold =>
      simp only [Except.ok.injEq, Prod.mk.injEq] at h
      obtain ⟨-, rfl⟩ := h
      obtain ⟨_, _, rfl⟩ := copyGeneration_rest hcopy
      obtain ⟨overlayEntries, overlayStorePaths, rfl⟩ := commitStorePaths_rest hfold
      exact ⟨overlayEntries, overlayStorePaths, rfl⟩

theorem commitOverlay_stagedBlobs (hashes : List String) (s : WriteRepository) :
    (((commitOverlay hashes).run s).final s).stagedBlobs = s.stagedBlobs := by
  rw [commitOverlay, Program.bind_read_run]
  split
  · rfl
  · cases h : advanceOverlay hashes s with
    | error e =>
      rw [Program.transaction_run_error h]
      rfl
    | ok r =>
      obtain ⟨generation, t⟩ := r
      rw [Program.transaction_run_ok h]
      obtain ⟨_, _, rfl⟩ := advanceOverlay_rest h
      rfl

theorem advanceOverlay_succeeds (hs : Current s)
    (hfound : ∀ hash ∈ hashes, ∃ n, s.stagedNarInfos.find? hash = some n ∧
      (s.lookup n.route).isSome ∧ (s.lookup n.narRoute).isSome) :
    ∃ t, advanceOverlay hashes s = .ok (s.currentGeneration + 1, t) := by
  have hcopy : ∃ u, s.copyGeneration s.currentGeneration (s.currentGeneration + 1) = .ok u ∧
      u.stagedBlobs = s.stagedBlobs ∧ u.stagedNarInfos = s.stagedNarInfos := by
    have hentries : (s.overlayEntries.insertAll? s.copiedEntries).isSome := by
      apply Table.insertAll?_isSome.mpr
      constructor
      · rw [copiedEntries, List.map_map]
        apply List.Nodup.map_on
        · intro a ha b hb hab
          have hroute : a.route = b.route := congrArg Prod.snd hab
          have ha' := (List.mem_filter.mp ha).2
          have hb' := (List.mem_filter.mp hb).2
          simp only [decide_eq_true_eq] at ha' hb'
          apply Table.eq_of_key (List.mem_filter.mp ha).1 (List.mem_filter.mp hb).1
          rw [OverlayEntryRow.key, OverlayEntryRow.key, ha', hb', hroute]
        · exact s.overlayEntries.nodup_rows.filter _
      · intro r hr q hq hkey
        obtain ⟨p, -, rfl⟩ := List.mem_map.mp hr
        have hle := hs.entries q hq
        have hgen : q.generation = s.currentGeneration + 1 := congrArg Prod.fst hkey
        omega
    have hpaths : (s.overlayStorePaths.insertAll? s.copiedPaths).isSome := by
      apply Table.insertAll?_isSome.mpr
      constructor
      · rw [copiedPaths, List.map_map]
        apply List.Nodup.map_on
        · intro a ha b hb hab
          have hpath : a.storePathHash = b.storePathHash := congrArg Prod.snd hab
          have ha' := (List.mem_filter.mp ha).2
          have hb' := (List.mem_filter.mp hb).2
          simp only [decide_eq_true_eq] at ha' hb'
          apply Table.eq_of_key (List.mem_filter.mp ha).1 (List.mem_filter.mp hb).1
          rw [OverlayStorePathRow.key, OverlayStorePathRow.key, ha', hb', hpath]
        · exact s.overlayStorePaths.nodup_rows.filter _
      · intro r hr q hq hkey
        obtain ⟨p, -, rfl⟩ := List.mem_map.mp hr
        have hle := hs.paths q hq
        have hgen : q.generation = s.currentGeneration + 1 := congrArg Prod.fst hkey
        omega
    obtain ⟨overlayEntries, hentries⟩ := Option.isSome_iff_exists.mp hentries
    obtain ⟨overlayStorePaths, hpaths⟩ := Option.isSome_iff_exists.mp hpaths
    refine ⟨{ s with overlayEntries := overlayEntries, overlayStorePaths := overlayStorePaths }, ?_, rfl,
      rfl⟩
    unfold copyGeneration
    simp only [copiedEntries, copiedPaths] at hentries hpaths
    rw [hentries]
    simp only [hpaths]
  have hfold : ∀ (xs : List String) (u : WriteRepository), u.stagedBlobs = s.stagedBlobs →
      u.stagedNarInfos = s.stagedNarInfos → (∀ x ∈ xs, x ∈ hashes) →
      ∃ t, xs.foldlM (fun t hash => commitStorePath (s.currentGeneration + 1) hash t) u = .ok t := by
    intro xs
    induction xs with
    | nil =>
      intro u _ _ _
      exact ⟨u, rfl⟩
    | cons x xs ih =>
      intro u hblobs hinfos hall
      obtain ⟨n, hn, hroute, hnar⟩ := hfound x (hall x (by simp))
      obtain ⟨row, hrow⟩ := Option.isSome_iff_exists.mp hroute
      obtain ⟨narRow, hnarRow⟩ := Option.isSome_iff_exists.mp hnar
      rw [lookup, ← hblobs] at hrow hnarRow
      rw [← hinfos] at hn
      have hstep : ∃ v, commitStorePath (s.currentGeneration + 1) x u = .ok v := by
        simp [commitStorePath, commitStagedRoute, lookup, hn, hrow, hnarRow, bind, Except.bind]
      obtain ⟨v, hv⟩ := hstep
      have hadded := commitStorePath_added hv
      obtain ⟨t, ht⟩ := ih v (hadded.stagedBlobs.trans hblobs) (hadded.stagedNarInfos.trans hinfos)
        fun y hy => hall y (List.mem_cons_of_mem _ hy)
      refine ⟨t, ?_⟩
      rw [List.foldlM_cons, hv]
      exact ht
  obtain ⟨u, hu, hblobs, hinfos⟩ := hcopy
  obtain ⟨t, ht⟩ := hfold (hashes.dedup.insertionSort (· ≤ ·)) u hblobs hinfos fun x hx => by
    simpa [(List.perm_insertionSort _ _).mem_iff] using hx
  refine ⟨{ t with currentGeneration := s.currentGeneration + 1 }, ?_⟩
  simp only [advanceOverlay, hu, bind, Except.bind, ht]

end Commits

end NixstrCache.Persistence.WriteRepository
