import NixstrCache.Persistence.CatalogRuns
import NixstrCache.Persistence.OwnerRuns

/-!
The generations of the overlay over every run of the repository.

A commit copies the current generation and then lets the staged rows of its routes replace what the
copy has.  So an older generation is contained in a newer one as long as the rows that a commit names
agree with the entries that are already there.  What a generation has does not change after its commit,
and the rows of a generation only go together, in the pruning after an admission or the end of a lease.
-/

namespace NixstrCache.Persistence.WriteRepository

open Durable KeyedTable Runs

section Routes

/-- The transaction of `commitOverlayRoutes`. -/
def advanceRoutes (routes : List String) (s : WriteRepository) :
    Except Failure (ℕ × WriteRepository) := do
  let generation := s.currentGeneration + 1
  let copied ← s.copyGeneration s.currentGeneration generation
  let t ← (routes.dedup.insertionSort (· ≤ ·)).foldlM
    (fun t route => commitStagedRoute generation route "staged route disappeared" t) copied
  .ok (generation, { t with currentGeneration := generation })

def commitOverlayRoutes (routes : List String) : RepositoryProgram ℕ :=
  Program.transaction (advanceRoutes routes)

variable {s t : WriteRepository} {generation : ℕ} {message : String}

/-- What the loop over the routes adds under its generation. -/
structure AddedRoutes (generation : ℕ) (routes : List String) (s t : WriteRepository) : Prop where
  rest : ∃ overlayEntries, t = { s with overlayEntries := overlayEntries }
  entries : ∀ k, t.overlayEntries.find? k = s.overlayEntries.find? k ∨
    k.1 = generation ∧ k.2 ∈ routes ∧ ∃ row, s.lookup k.2 = some row ∧
      t.overlayEntries.find? k = some (entryOf generation row)
  generations : ∀ r ∈ t.overlayEntries.rows, r ∈ s.overlayEntries.rows ∨ r.generation = generation

theorem commitStagedRoutes_added (routes : List String)
    (h : routes.foldlM (fun t route => commitStagedRoute generation route message t) s = .ok t) :
    AddedRoutes generation routes s t := by
  induction routes generalizing s with
  | nil =>
    obtain rfl : s = t := by simpa [pure, Except.pure] using h
    exact ⟨⟨s.overlayEntries, rfl⟩, fun k => Or.inl rfl, fun r hr => Or.inl hr⟩
  | cons route routes ih =>
    rw [List.foldlM_cons] at h
    cases hu : commitStagedRoute generation route message s with
    | error e => simp [hu, bind, Except.bind] at h
    | ok u =>
      simp only [hu, bind, Except.bind] at h
      obtain ⟨row, hrow, rfl⟩ := commitStagedRoute_ok hu
      have hrest := ih h
      obtain ⟨overlayEntries, hentries⟩ := hrest.rest
      refine ⟨⟨overlayEntries, hentries⟩, fun k => ?_, fun r hr => ?_⟩
      · rcases hrest.entries k with hk | ⟨hg, hmem, row', hrow', hk⟩
        · rw [hk, Table.find?_insertOrReplace]
          split_ifs with hkey
          · obtain rfl : k = (generation, route) := by
              rw [← hkey, ← lookup_route hrow]
              rfl
            exact Or.inr ⟨rfl, List.mem_cons_self, row, hrow, rfl⟩
          · exact Or.inl rfl
        · exact Or.inr ⟨hg, List.mem_cons_of_mem _ hmem, row', hrow', hk⟩
      · rcases hrest.generations r hr with hr | hr
        · rcases Table.mem_insertOrReplace.mp hr with ⟨hr, -⟩ | rfl
          · exact Or.inl hr
          · exact Or.inr rfl
        · exact Or.inr hr

end Routes

section Commits

variable {s t : WriteRepository} {routes : String → Prop}

/-- A commit: the current generation under the next number, but for the routes that it names. -/
structure NextGeneration (routes : String → Prop) (s t : WriteRepository) : Prop where
  generation : t.currentGeneration = s.currentGeneration + 1
  older : ∀ g route, g ≤ s.currentGeneration →
    t.overlayEntries.find? (g, route) = s.overlayEntries.find? (g, route)
  olderPaths : ∀ g hash, g ≤ s.currentGeneration →
    (t.overlayStorePaths.has (g, hash) = true ↔ s.overlayStorePaths.has (g, hash) = true)
  entries : ∀ route, t.overlayEntries.find? (s.currentGeneration + 1, route) =
      (s.overlayEntries.find? (s.currentGeneration, route)).map
        (fun r => { r with generation := s.currentGeneration + 1 }) ∨
    routes route ∧ ∃ row, s.lookup route = some row ∧
      t.overlayEntries.find? (s.currentGeneration + 1, route) =
        some (entryOf (s.currentGeneration + 1) row)
  paths : ∀ hash, s.overlayStorePaths.has (s.currentGeneration, hash) = true →
    t.overlayStorePaths.has (s.currentGeneration + 1, hash) = true
  current : Current t

theorem advanceOverlay_next {hashes : List String} {generation : ℕ} (hs : Current s)
    (h : advanceOverlay hashes s = .ok (generation, t)) : NextGeneration (Names s hashes) s t := by
  obtain ⟨-, hcommit⟩ := advanceOverlay_ok hs h
  refine ⟨hcommit.generation, hcommit.older, hcommit.olderPaths, fun route => ?_,
    fun hash hhash => (hcommit.paths hash).mpr (Or.inl hhash), hcommit.current⟩
  by_cases hroute : Names s hashes route
  · exact Or.inr ⟨hroute, hcommit.named route hroute⟩
  · exact Or.inl (hcommit.copied route hroute)

theorem advanceRoutes_next {names : List String} {generation : ℕ} (hs : Current s)
    (h : advanceRoutes names s = .ok (generation, t)) : NextGeneration (· ∈ names) s t := by
  unfold advanceRoutes at h
  cases hcopy : s.copyGeneration s.currentGeneration (s.currentGeneration + 1) with
  | error e => simp [hcopy, bind, Except.bind] at h
  | ok u =>
    simp only [hcopy, bind, Except.bind] at h
    split at h
    · simp at h
    · next v hfold =>
      simp only [Except.ok.injEq, Prod.mk.injEq] at h
      obtain ⟨-, rfl⟩ := h
      have hcopied := copyGeneration_ok hs hcopy
      have hadded := commitStagedRoutes_added _ hfold
      obtain ⟨entries, paths, rfl⟩ := hcopied.rest
      obtain ⟨added, rfl⟩ := hadded.rest
      refine ⟨rfl, fun g route hg => ?_, hcopied.olderPaths, fun route => ?_,
        fun hash hhash => (hcopied.paths hash).mpr hhash, ⟨fun r hr => ?_, hcopied.currentPaths⟩⟩
      · rw [← hcopied.older g route hg]
        rcases hadded.entries (g, route) with hk | ⟨hgen, -⟩
        · exact hk
        · simp only at hgen
          omega
      · rcases hadded.entries (s.currentGeneration + 1, route) with hk | ⟨-, hmem, row, hrow, hk⟩
        · exact Or.inl (hk.trans (hcopied.entries route))
        · refine Or.inr ⟨?_, row, hrow, hk⟩
          simpa [(List.perm_insertionSort _ _).mem_iff] using hmem
      · rcases hadded.generations r hr with hr | hr
        · exact hcopied.current r hr
        · exact hr.le

end Commits

section Layers

variable {s t u : WriteRepository} {routes : String → Prop} {g g' : ℕ}

def Retained (s : WriteRepository) (g : ℕ) : Prop :=
  g = s.currentGeneration ∨ ∃ r ∈ s.overlayEntries.rows, r.generation = g

/-- The entries and store paths of the first generation are in the second one, unchanged. -/
def Within (s : WriteRepository) (g g' : ℕ) : Prop :=
  (∀ route r, s.overlayEntries.find? (g, route) = some r →
      s.overlayEntries.find? (g', route) = some { r with generation := g' }) ∧
    ∀ hash, s.overlayStorePaths.has (g, hash) = true → s.overlayStorePaths.has (g', hash) = true

/-- The staged row of the route says what the current generation says. -/
def Agrees (s : WriteRepository) (route : String) : Prop :=
  ∀ row r, s.lookup route = some row →
    s.overlayEntries.find? (s.currentGeneration, route) = some r → entryOf s.currentGeneration row = r

structure Layered (s : WriteRepository) : Prop where
  current : Current s
  within : ∀ g g', g ≤ g' → s.Retained g' → s.Within g g'

def SameGeneration (s t : WriteRepository) (g : ℕ) : Prop :=
  (∀ route, t.overlayEntries.find? (g, route) = s.overlayEntries.find? (g, route)) ∧
    ∀ hash, t.overlayStorePaths.has (g, hash) = true ↔ s.overlayStorePaths.has (g, hash) = true

def NoGeneration (s : WriteRepository) (g : ℕ) : Prop :=
  (∀ r ∈ s.overlayEntries.rows, r.generation ≠ g) ∧ ∀ r ∈ s.overlayStorePaths.rows, r.generation ≠ g

/-- The generations of a state in a later one: as they were, or gone. -/
structure Later (s t : WriteRepository) : Prop where
  current : s.currentGeneration ≤ t.currentGeneration
  fixed : ∀ g ≤ s.currentGeneration, SameGeneration s t g ∨ NoGeneration t g

theorem SameGeneration.none (h : SameGeneration s t g) (hs : NoGeneration s g) : NoGeneration t g := by
  constructor
  · rintro r hr rfl
    have hr := h.1 r.route ▸ Table.find?_key hr
    exact hs.1 r (Table.find?_eq_some.mp hr).1 rfl
  · rintro r hr rfl
    obtain ⟨q, hq, hkey⟩ := Table.has_iff.mp ((h.2 r.storePathHash).mp (Table.has_iff.mpr ⟨r, hr, rfl⟩))
    exact hs.2 q hq (congrArg Prod.fst hkey)

theorem Later.refl (s : WriteRepository) : Later s s :=
  ⟨le_rfl, fun _ _ => Or.inl ⟨fun _ => rfl, fun _ => Iff.rfl⟩⟩

theorem Later.trans (h : Later s t) (h' : Later t u) : Later s u := by
  refine ⟨h.current.trans h'.current, fun g hg => ?_⟩
  rcases h'.fixed g (hg.trans h.current) with htu | hnone
  · rcases h.fixed g hg with hst | hnone
    · exact Or.inl ⟨fun route => (htu.1 route).trans (hst.1 route),
        fun hash => (htu.2 hash).trans (hst.2 hash)⟩
    · exact Or.inr (htu.none hnone)
  · exact Or.inr hnone

theorem Within.refl (s : WriteRepository) (g : ℕ) : s.Within g g := by
  refine ⟨fun route r hr => ?_, fun hash h => h⟩
  obtain rfl : r.generation = g := congrArg Prod.fst (Table.find?_eq_some.mp hr).2
  exact hr

namespace NextGeneration

variable (h : NextGeneration routes s t)

include h in
theorem later : Later s t :=
  ⟨by rw [h.generation]; omega, fun g hg =>
    Or.inl ⟨fun route => h.older g route hg, fun hash => h.olderPaths g hash hg⟩⟩

include h in
theorem layered (hs : Layered s) (hagrees : ∀ route, routes route → s.Agrees route) : Layered t := by
  refine ⟨h.current, fun g g' hle hg' => ?_⟩
  have hold : ∀ g, g ≤ s.currentGeneration → t.Within g (s.currentGeneration + 1) := by
    intro g hg
    have hwithin := hs.within g s.currentGeneration hg (Or.inl rfl)
    refine ⟨fun route r hr => ?_, fun hash hhash => ?_⟩
    · rw [h.older g route hg] at hr
      have hcurrent := hwithin.1 route r hr
      rcases h.entries route with hentry | ⟨hroute, row, hrow, hentry⟩
      · rw [hentry, hcurrent]
        rfl
      · have hrow := hagrees route hroute row _ hrow hcurrent
        simp only [entryOf, OverlayEntryRow.mk.injEq, true_and] at hrow
        obtain ⟨hroute, hdigest, hsize, hpath⟩ := hrow
        rw [hentry, entryOf, hroute, hdigest, hsize, hpath]
    · exact h.paths hash (hwithin.2 hash ((h.olderPaths g hash hg).mp hhash))
  by_cases hnew : g' = s.currentGeneration + 1
  · subst hnew
    rcases Nat.lt_or_eq_of_le hle with hlt | rfl
    · exact hold g (by omega)
    · exact .refl t _
  · have hle' : g' ≤ s.currentGeneration := by
      rcases hg' with rfl | ⟨r, hr, rfl⟩
      · exact absurd h.generation hnew
      · have := h.current.entries r hr
        rw [h.generation] at this
        omega
    have hretained : s.Retained g' := by
      rcases hg' with rfl | ⟨r, hr, rfl⟩
      · exact absurd h.generation hnew
      · have hr := Table.find?_key hr
        rw [OverlayEntryRow.key, h.older r.generation r.route hle'] at hr
        exact Or.inr ⟨r, (Table.find?_eq_some.mp hr).1, rfl⟩
    obtain ⟨hentries, hpaths⟩ := hs.within g g' hle hretained
    refine ⟨fun route r hr => ?_, fun hash hhash => ?_⟩
    · rw [h.older g route (hle.trans hle')] at hr
      rw [h.older g' route hle']
      exact hentries route r hr
    · exact (h.olderPaths g' hash hle').mpr
        (hpaths hash ((h.olderPaths g hash (hle.trans hle')).mp hhash))

include h in
theorem keeps (hs : Current s) : (∀ r ∈ s.overlayEntries.rows, r ∈ t.overlayEntries.rows) ∧
    ∀ r ∈ s.overlayStorePaths.rows, r ∈ t.overlayStorePaths.rows := by
  constructor
  · intro r hr
    have hfind := h.older r.generation r.route (hs.entries r hr)
    exact (Table.find?_eq_some.mp (hfind.trans (Table.find?_key hr))).1
  · intro r hr
    obtain ⟨q, hq, hkey⟩ := Table.has_iff.mp ((h.olderPaths r.generation r.storePathHash
      (hs.paths r hr)).mpr (Table.has_iff.mpr ⟨r, hr, rfl⟩))
    obtain ⟨hgeneration, hhash⟩ := Prod.mk.inj hkey
    have hqr : q = r := by
      cases q
      cases r
      simp_all
    exact hqr ▸ hq

end NextGeneration

theorem Prunes.later (h : Prunes s t) : Later s t := by
  obtain ⟨keep, -, hentries, hpaths⟩ := h.generations
  refine ⟨h.currentGeneration.ge, fun g _ => ?_⟩
  cases hg : keep g with
  | true =>
    refine Or.inl ⟨fun route => ?_, fun hash => ?_⟩
    · rw [hentries]
      apply Table.find?_congr
      intro r hkey
      have hgen : r.generation = g := congrArg Prod.fst hkey
      simp [hgen, hg]
    · rw [hpaths, Table.has_iff, Table.has_iff]
      refine exists_congr fun r => ?_
      rw [Table.mem_filter]
      refine ⟨fun h => ⟨h.1.1, h.2⟩, fun h => ⟨⟨h.1, ?_⟩, h.2⟩⟩
      have hgen : r.generation = g := congrArg Prod.fst h.2
      rw [hgen, hg]
  | false =>
    refine Or.inr ⟨fun r hr hgen => ?_, fun r hr hgen => ?_⟩
    · rw [hentries, Table.mem_filter, hgen, hg] at hr
      cases hr.2
    · rw [hpaths, Table.mem_filter, hgen, hg] at hr
      cases hr.2

theorem Prunes.layered (h : Prunes s t) (hs : Layered s) : Layered t := by
  refine ⟨h.current hs.current, fun g g' hle hg' => ?_⟩
  have hcurrent := h.currentGeneration
  obtain ⟨keep, hkeep, hentries, hpaths⟩ := h.generations
  have hg' : keep g' = true ∧ s.Retained g' := by
    rcases hg' with rfl | ⟨r, hr, rfl⟩
    · rw [hcurrent]
      exact ⟨hkeep, Or.inl rfl⟩
    · rw [hentries, Table.mem_filter] at hr
      exact ⟨hr.2, Or.inr ⟨r, hr.1, rfl⟩⟩
  obtain ⟨hin, hinPaths⟩ := hs.within g g' hle hg'.2
  refine ⟨fun route r hr => ?_, fun hash hhash => ?_⟩
  · rw [hentries] at hr ⊢
    obtain ⟨hr, hkey⟩ := Table.find?_eq_some.mp hr
    have hr := hin route r (Table.find?_eq_some.mpr ⟨(Table.mem_filter.mp hr).1, hkey⟩)
    obtain ⟨hmem, hkey⟩ := Table.find?_eq_some.mp hr
    exact Table.find?_eq_some.mpr ⟨Table.mem_filter.mpr ⟨hmem, hg'.1⟩, hkey⟩
  · rw [hpaths, Table.has_iff] at hhash ⊢
    obtain ⟨r, hr, hkey⟩ := hhash
    obtain ⟨q, hq, hqkey⟩ := Table.has_iff.mp
      (hinPaths hash (Table.has_iff.mpr ⟨r, (Table.mem_filter.mp hr).1, hkey⟩))
    have hgen : q.generation = g' := congrArg Prod.fst hqkey
    exact ⟨q, Table.mem_filter.mpr ⟨hq, by rw [hgen]; exact hg'.1⟩, hqkey⟩

end Layers

section Machine

inductive GenerationOp where
  | repository (op : RepositoryOp)
  | commitOverlayRoutes (routes : List String)

structure GenerationLabel where
  op : GenerationOp
  now : ℕ
  fails : String → Option String
  stop : Option ℕ

structure GenerationRun where
  repo : WriteRepository
  admitted : List ℕ

variable (digest : Bytes → String) (acceptable : RawPublication → Bool)

def GenerationLabel.program (l : GenerationLabel) : RepositoryProgram Unit :=
  match l.op with
  | .repository op => RepositoryLabel.program digest acceptable ⟨op, l.now, l.fails, l.stop⟩
  | .commitOverlayRoutes routes => discarded (commitOverlayRoutes routes)

/-- The state after the last commit that a label reaches. -/
def GenerationLabel.reached (l : GenerationLabel) (s : WriteRepository) : WriteRepository :=
  ((l.program digest acceptable).run s).reached s l.stop

/-- The generation that an admission marks, with its first commit. -/
def GenerationLabel.admits (l : GenerationLabel) (s : WriteRepository) : List ℕ :=
  match l.op with
  | .repository (.saga (.markPublicationAdmitted _)) =>
    if l.stop = some 0 then []
    else match s.publicationSaga with
      | none => []
      | some saga => if saga.committed then [saga.candidate.generation] else []
  | _ => []

def GenerationLabel.names (l : GenerationLabel) (s : WriteRepository) (route : String) : Prop :=
  match l.op with
  | .repository (.staging (.commitOverlay hashes)) => Names s hashes route
  | .commitOverlayRoutes routes => route ∈ routes
  | _ => False

def generationStep (w : GenerationRun) (l : GenerationLabel) : GenerationRun where
  repo :=
    match l.stop with
    | none => l.reached digest acceptable w.repo
    | some _ => (l.reached digest acceptable w.repo).forgetProcess
  admitted := w.admitted ++ l.admits w.repo

def GenerationRun.start (capacity : ℕ) : GenerationRun :=
  ⟨initial capacity, []⟩

/-- A commit names only routes whose staged rows agree with the current generation. -/
def Settled (w : GenerationRun) (l : GenerationLabel) : Prop :=
  ∀ route, l.names w.repo route → w.repo.Agrees route

/-- The rows of the generation may go: it is older than an admitted one, not current and not leased. -/
def Prunable (admitted : List ℕ) (s : WriteRepository) (g : ℕ) : Prop :=
  (∃ a ∈ admitted, g < a) ∧ g ≠ s.currentGeneration ∧ g ∉ s.generationLeases

end Machine

section Turns

variable {s t u : WriteRepository} {routes : String → Prop} {admits : List ℕ}

structure Aside (s t : WriteRepository) : Prop where
  currentGeneration : t.currentGeneration = s.currentGeneration
  overlayEntries : t.overlayEntries = s.overlayEntries
  overlayStorePaths : t.overlayStorePaths = s.overlayStorePaths
  admittedGeneration : t.admittedGeneration = s.admittedGeneration ∨ t.admittedGeneration = 0

/-- What a pruning transaction and the releases after it leave. -/
structure PrunedFrom (u t : WriteRepository) : Prop where
  currentGeneration : t.currentGeneration = u.currentGeneration
  generationLeases : t.generationLeases = u.generationLeases
  admittedGeneration : t.admittedGeneration = u.admittedGeneration
  overlayEntries : t.overlayEntries = u.pruneRows.overlayEntries
  overlayStorePaths : t.overlayStorePaths = u.pruneRows.overlayStorePaths

inductive Turns (routes : String → Prop) (s : WriteRepository) : WriteRepository → Prop
  | aside {t : WriteRepository} (hgeneration : t.currentGeneration = s.currentGeneration)
      (hentries : t.overlayEntries = s.overlayEntries)
      (hpaths : t.overlayStorePaths = s.overlayStorePaths) : Turns routes s t
  | next {t : WriteRepository} (h : NextGeneration routes s t) : Turns routes s t
  | pruned {u t : WriteRepository} (hgeneration : u.currentGeneration = s.currentGeneration)
      (hentries : u.overlayEntries = s.overlayEntries)
      (hpaths : u.overlayStorePaths = s.overlayStorePaths) (h : PrunedFrom u t) : Turns routes s t

structure Turned (routes : String → Prop) (admits : List ℕ) (s t : WriteRepository) : Prop where
  turns : Turns routes s t
  admitted : t.admittedGeneration = s.admittedGeneration ∨ t.admittedGeneration = 0 ∨
    t.admittedGeneration ∈ admits

theorem Aside.refl (s : WriteRepository) : Aside s s :=
  ⟨rfl, rfl, rfl, Or.inl rfl⟩

theorem Aside.trans (h : Aside s t) (h' : Aside t u) : Aside s u where
  currentGeneration := h'.currentGeneration.trans h.currentGeneration
  overlayEntries := h'.overlayEntries.trans h.overlayEntries
  overlayStorePaths := h'.overlayStorePaths.trans h.overlayStorePaths
  admittedGeneration := by
    rcases h'.admittedGeneration with htu | htu
    · rw [htu]
      exact h.admittedGeneration
    · exact Or.inr htu

theorem Aside.turned (h : Aside s t) : Turned routes admits s t :=
  ⟨.aside h.currentGeneration h.overlayEntries h.overlayStorePaths,
    h.admittedGeneration.imp_right Or.inl⟩

theorem Turned.mono {routes' : String → Prop} {admits' : List ℕ} (h : Turned routes admits s t)
    (hroutes : ∀ route, routes route → routes' route) (hadmits : ∀ a ∈ admits, a ∈ admits') :
    Turned routes' admits' s t := by
  refine ⟨?_, h.admitted.imp_right (Or.imp_right (hadmits _))⟩
  cases h.turns with
  | aside hgeneration hentries hpaths => exact .aside hgeneration hentries hpaths
  | next h =>
    refine .next { h with entries := fun route => ?_ }
    exact (h.entries route).imp_right (And.imp_left (hroutes route))
  | pruned hgeneration hentries hpaths h => exact .pruned hgeneration hentries hpaths h

theorem aside_of_advances {α : Type} {m : RepositoryProgram α} (h : Advances Aside m)
    (s : WriteRepository) : ∀ t ∈ (m.run s).commits, Aside s t := by
  intro t ht
  have hmoves := h s t ht
  clear ht
  induction hmoves with
  | refl => exact .refl s
  | tail _ hmove ih => exact ih.trans hmove

theorem pruneAdmitted_pruned (fails : String → Option String) (now : ℕ) (u : WriteRepository) :
    ∀ t ∈ ((pruneAdmitted fails now).run u).commits, PrunedFrom u t := by
  intro t ht
  rw [pruneAdmitted_run] at ht
  split_ifs at ht
  · cases ht
  · rcases List.mem_cons.mp ht with rfl | hrelease
    · exact ⟨rfl, rfl, rfl, rfl, rfl⟩
    · have hblobs : Advances (fun s t => ∃ blobs, t = { s with blobs := blobs })
          (releaseSagas fails now u.releasable) :=
        Advances.forEach (fun _ => advances_onBlobs (fun _ blobs => ⟨blobs, rfl⟩) _) _
      have hmoves := hblobs u.pruneRows t hrelease
      clear ht hrelease
      induction hmoves with
      | refl => exact ⟨rfl, rfl, rfl, rfl, rfl⟩
      | tail _ hmove ih =>
        obtain ⟨blobs, rfl⟩ := hmove
        exact ⟨ih.currentGeneration, ih.generationLeases, ih.admittedGeneration, ih.overlayEntries,
          ih.overlayStorePaths⟩

theorem Aside.of_catalog (hcatalog : t.catalog = s.catalog)
    (hadmitted : t.admittedGeneration = s.admittedGeneration) : Aside s t := by
  simp only [catalog, Catalog.mk.injEq] at hcatalog
  obtain ⟨-, -, -, hgeneration, hentries, hpaths⟩ := hcatalog
  exact ⟨hgeneration, hentries, hpaths, Or.inl hadmitted⟩

section Programs

variable (digest : Bytes → String) (acceptable : RawPublication → Bool)
  (fails : String → Option String) (now : ℕ)

theorem staging_turned (hs : Current s) (op : StagingOp) :
    ∀ t ∈ ((stagingProgram digest fails now op).run s).commits,
      Turned (fun route => ∃ hashes, op = .commitOverlay hashes ∧ Names s hashes route) [] s t := by
  have haside : Advances Aside (stagingProgram digest fails now op) → ∀ t ∈
      ((stagingProgram digest fails now op).run s).commits, Turned
        (fun route => ∃ hashes, op = .commitOverlay hashes ∧ Names s hashes route) [] s t :=
    fun h t ht => (aside_of_advances h s t ht).turned
  cases op with
  | recordNarInfo route info =>
    refine haside fun s => AdvancesFrom.transaction fun _ t h => ?_
    unfold insertReferences at h
    split at h
    · simp at h
    · cases h
      exact ⟨rfl, rfl, rfl, Or.inl rfl⟩
  | insertStagedBlob row =>
    refine haside fun s => AdvancesFrom.transaction fun _ t h => ?_
    split at h
    · simp at h
    · cases h
      exact ⟨rfl, rfl, rfl, Or.inl rfl⟩
  | discard route =>
    refine haside fun s => AdvancesFrom.read_bind ?_
    split
    · exact AdvancesFrom.pure _
    · exact AdvancesFrom.commit ⟨rfl, rfl, rfl, Or.inl rfl⟩
  | acquireGeneration generation =>
    exact haside fun s => AdvancesFrom.commit ⟨rfl, rfl, rfl, Or.inl rfl⟩
  | blob op => exact haside (advances_onBlobs (fun _ _ => ⟨rfl, rfl, rfl, Or.inl rfl⟩) _)
  | commitOverlay hashes =>
    intro t ht
    rw [stagingProgram, discarded_commits, commitOverlay, Program.bind_read_run] at ht
    split_ifs at ht
    · cases ht
    · obtain ⟨generation, h⟩ := Program.mem_transaction_commits.mp ht
      have hnext := advanceOverlay_next hs h
      obtain ⟨overlayEntries, overlayStorePaths, rfl⟩ := advanceOverlay_rest h
      refine ⟨.next { hnext with entries := fun route => ?_ }, Or.inl rfl⟩
      exact (hnext.entries route).imp_right (And.imp_left fun hroute => ⟨hashes, rfl, hroute⟩)

theorem batch_aside (op : BatchOp) : Advances Aside (batchProgram fails now op) := by
  by_cases hrecord : ∃ batch build, op = .recordPending batch build
  · obtain ⟨batch, build, rfl⟩ := hrecord
    refine fun s => AdvancesFrom.read_bind ?_
    refine AdvancesFrom.bind (AdvancesFrom.transaction fun _ t h => ?_) fun _ _ => ?_
    · obtain ⟨hcatalog, hadmitted⟩ := storePending_catalog h
      exact .of_catalog hcatalog hadmitted
    · split
      · exact AdvancesFrom.pure _
      · split_ifs
        · exact AdvancesFrom.pure _
        · exact advances_onBlobs (fun _ _ => ⟨rfl, rfl, rfl, Or.inl rfl⟩) _ _
  · exact Advances.mono (fun _ _ h => .of_catalog h.catalog h.admittedGeneration)
      (batch_silent fails now fun batch build h => hrecord ⟨batch, build, h⟩)

theorem saga_aside {op : SagaOp} (hop : op.pruneAt = none) :
    Advances Aside (sagaProgram acceptable fails now op) := by
  by_cases hstill : op.still = true
  · exact Advances.mono (fun _ _ h => .of_catalog h.catalog h.admittedGeneration)
      (saga_silent acceptable fails now hstill)
  · cases op with
    | claimPublication destinations =>
      refine Advances.mono (fun s t h => ?_)
        (advances_discarded (claimPublication_advances now destinations))
      cases h with
      | adopt => exact .of_catalog rfl rfl
      | claim _ _ h =>
        obtain ⟨hcatalog, hadmitted⟩ := claimCandidate_catalog h
        exact .of_catalog hcatalog hadmitted
    | beginPublicationRefresh lead =>
      refine Advances.mono (fun s t h => ?_)
        (advances_discarded (beginPublicationRefresh_advances now lead))
      obtain ⟨-, h⟩ := h
      obtain ⟨hcatalog, hadmitted⟩ := refreshSaga_catalog h
      exact .of_catalog hcatalog hadmitted
    | _ => simp [SagaOp.still, hop] at hstill

theorem reopen_aside (retries : String → Option String) :
    Advances Aside (reopen digest fails retries now) := by
  refine fun s => AdvancesFrom.commit_bind ⟨rfl, rfl, rfl, Or.inr rfl⟩ ?_
  refine Advances.bind (advances_onBlobs (fun _ _ => ⟨rfl, rfl, rfl, Or.inl rfl⟩) _) (fun _ s => ?_) _
  exact AdvancesFrom.commit ⟨rfl, rfl, rfl, Or.inl rfl⟩

theorem pruning_turned {op : SagaOp} (hop : op.pruneAt ≠ none) {admits : List ℕ}
    (hadmits : ∀ batchId, op = .markPublicationAdmitted batchId → ∀ saga,
      s.publicationSaga = some saga → saga.committed = true → saga.candidate.generation ∈ admits) :
    ∀ t ∈ ((sagaProgram acceptable fails now op).run s).commits, Turned routes admits s t := by
  intro t ht
  cases op with
  | markPublicationAdmitted batchId =>
    simp only [sagaProgram, markPublicationAdmitted, Program.bind_read_run] at ht
    cases hsaga : s.publicationSaga with
    | none => simp [hsaga] at ht
    | some saga =>
      simp only [hsaga] at ht
      split_ifs at ht with hcommitted
      · cases ht
      · have hgeneration : max s.admittedGeneration saga.candidate.generation =
            s.admittedGeneration ∨
            max s.admittedGeneration saga.candidate.generation ∈ admits := by
          rcases max_choice s.admittedGeneration saga.candidate.generation with h | h
          · exact Or.inl h
          · rw [h]
            exact Or.inr (hadmits batchId rfl saga hsaga (by simpa using hcommitted))
        rw [Program.bind_commit_run, Program.bind_commit_run] at ht
        rcases List.mem_cons.mp ht with rfl | ht
        · exact ⟨.aside rfl rfl rfl, Or.inl rfl⟩
        · rcases List.mem_cons.mp ht with rfl | ht
          · exact ⟨.aside rfl rfl rfl, hgeneration.imp_right Or.inr⟩
          · have hpruned := pruneAdmitted_pruned fails now _ t ht
            refine ⟨.pruned ?_ ?_ ?_ hpruned, ?_⟩
            · rfl
            · rfl
            · rfl
            · rw [hpruned.admittedGeneration]
              exact hgeneration.imp_right Or.inr
  | releaseGeneration generation =>
    rw [sagaProgram, releaseGeneration, Program.bind_commit_run] at ht
    rcases List.mem_cons.mp ht with rfl | ht
    · exact ⟨.aside rfl rfl rfl, Or.inl rfl⟩
    · have hpruned := pruneAdmitted_pruned fails now _ t ht
      refine ⟨.pruned ?_ ?_ ?_ hpruned, Or.inl hpruned.admittedGeneration⟩
      · rfl
      · rfl
      · rfl
  | _ => exact absurd rfl hop

end Programs

end Turns

section Results

variable (digest : Bytes → String) (acceptable : RawPublication → Bool)
variable {w : GenerationRun} {l : GenerationLabel} {s t : WriteRepository}

theorem commitOverlayRoutes_turned (hs : Current s) (names : List String) :
    ∀ t ∈ ((discarded (commitOverlayRoutes names)).run s).commits,
      Turned (· ∈ names) [] s t := by
  intro t ht
  rw [discarded_commits] at ht
  obtain ⟨generation, h⟩ := Program.mem_transaction_commits.mp ht
  refine ⟨.next (advanceRoutes_next hs h), Or.inl ?_⟩
  unfold advanceRoutes at h
  cases hcopy : s.copyGeneration s.currentGeneration (s.currentGeneration + 1) with
  | error e => simp [hcopy, bind, Except.bind] at h
  | ok u =>
    simp only [hcopy, bind, Except.bind] at h
    split at h
    · simp at h
    · next v hfold =>
      simp only [Except.ok.injEq, Prod.mk.injEq] at h
      obtain ⟨-, rfl⟩ := h
      obtain ⟨_, _, rfl⟩ := copyGeneration_rest hcopy
      obtain ⟨_, rfl⟩ := (commitStagedRoutes_added _ hfold).rest
      rfl

theorem reached_turned (hs : Current s) (l : GenerationLabel) :
    Turned (l.names s) (l.admits s) s (l.reached digest acceptable s) := by
  have hcommits : ∀ t ∈ ((l.program digest acceptable).run s).commits,
      l.stop ≠ some 0 → Turned (l.names s) (l.admits s) s t := by
    intro t ht hstop
    obtain ⟨op, now, fails, stop⟩ := l
    cases op with
    | commitOverlayRoutes names => exact commitOverlayRoutes_turned hs names t ht
    | repository op =>
      cases op with
      | staging op =>
        refine (staging_turned digest fails now hs op t ht).mono ?_ fun a ha => absurd ha (by simp)
        rintro route ⟨hashes, rfl, hroute⟩
        exact hroute
      | batch op => exact (aside_of_advances (batch_aside fails now op) s t ht).turned
      | saga op =>
        by_cases hop : op.pruneAt = none
        · exact (aside_of_advances (saga_aside acceptable fails now hop) s t ht).turned
        · refine pruning_turned acceptable fails now hop ?_ t ht
          rintro batchId rfl saga hsaga hcommitted
          simp only at hstop
          simp [GenerationLabel.admits, hstop, hsaga, hcommitted]
      | reopen retries => exact (aside_of_advances (reopen_aside digest fails now retries) s t ht).turned
  rcases Outcome.reached_mem ((l.program digest acceptable).run s) s l.stop with h | h
  · rw [GenerationLabel.reached, h]
    exact (Aside.refl s).turned
  · by_cases hstop : l.stop = some 0
    · have hsame : l.reached digest acceptable s = s := by
        rw [GenerationLabel.reached, hstop]
        rfl
      rw [hsame]
      exact (Aside.refl s).turned
    · exact hcommits _ h hstop

theorem Turns.prunes_or_next {routes : String → Prop} (h : Turns routes s t) :
    Prunes s t ∨ NextGeneration routes s t := by
  cases h with
  | aside hgeneration hentries hpaths => exact Or.inl (.of_same hgeneration hentries hpaths)
  | next h => exact Or.inr h
  | @pruned u _ hgeneration hentries hpaths h =>
    have hu : Prunes s u := .of_same hgeneration hentries hpaths
    have ht : Prunes u.pruneRows t := .of_same h.currentGeneration h.overlayEntries h.overlayStorePaths
    exact Or.inl ((hu.trans (pruneRows_keepsCatalog u).prunes).trans ht)

theorem Turns.later {routes : String → Prop} (h : Turns routes s t) : Later s t := by
  rcases h.prunes_or_next with h | h
  · exact h.later
  · exact h.later

theorem Turns.layered {routes : String → Prop} (h : Turns routes s t) (hs : Layered s)
    (hagrees : ∀ route, routes route → s.Agrees route) : Layered t := by
  rcases h.prunes_or_next with h | h
  · exact h.layered hs
  · exact h.layered hs hagrees

theorem staleGeneration_prunable {u : WriteRepository} {admitted : List ℕ} {g : ℕ}
    (h : PrunedFrom u t) (hadmitted : t.admittedGeneration = 0 ∨ t.admittedGeneration ∈ admitted)
    (hstale : u.staleGeneration g = true) : Prunable admitted t g := by
  simp only [staleGeneration, decide_eq_true_eq] at hstale
  obtain ⟨holder, hcurrent, hleased, -⟩ := hstale
  rw [← h.admittedGeneration] at holder
  refine ⟨⟨t.admittedGeneration, hadmitted.resolve_left (by omega), holder⟩, ?_, ?_⟩
  · rw [h.currentGeneration]
    exact hcurrent
  · rw [h.generationLeases]
    exact hleased

theorem Turned.dropped {routes : String → Prop} {admitted admits : List ℕ}
    (h : Turned routes admits s t) (hs : Current s)
    (hadmitted : s.admittedGeneration = 0 ∨ s.admittedGeneration ∈ admitted) :
    (∀ r ∈ s.overlayEntries.rows, r ∉ t.overlayEntries.rows →
        Prunable (admitted ++ admits) t r.generation) ∧
      ∀ r ∈ s.overlayStorePaths.rows, r ∉ t.overlayStorePaths.rows →
        Prunable (admitted ++ admits) t r.generation := by
  cases h.turns with
  | aside _ hentries hpaths =>
    rw [hentries, hpaths]
    exact ⟨fun r hr hnot => absurd hr hnot, fun r hr hnot => absurd hr hnot⟩
  | next h =>
    exact ⟨fun r hr hnot => absurd ((h.keeps hs).1 r hr) hnot,
      fun r hr hnot => absurd ((h.keeps hs).2 r hr) hnot⟩
  | @pruned u _ hgeneration hentries hpaths hpruned =>
    have hadmitted' : t.admittedGeneration = 0 ∨ t.admittedGeneration ∈ admitted ++ admits := by
      rcases h.admitted with ht | ht | ht
      · rw [ht]
        exact hadmitted.imp_right (List.mem_append_left _)
      · exact Or.inl ht
      · exact Or.inr (List.mem_append_right _ ht)
    refine ⟨fun r hr hnot => ?_, fun r hr hnot => ?_⟩
    · rw [hpruned.overlayEntries] at hnot
      refine staleGeneration_prunable hpruned hadmitted' ?_
      by_contra hstale
      exact hnot (Table.mem_filter.mpr ⟨hentries ▸ hr, by simpa using hstale⟩)
    · rw [hpruned.overlayStorePaths] at hnot
      refine staleGeneration_prunable hpruned hadmitted' ?_
      by_contra hstale
      exact hnot (Table.mem_filter.mpr ⟨hpaths ▸ hr, by simpa using hstale⟩)

theorem forgetProcess_prunes (s : WriteRepository) : Prunes s s.forgetProcess :=
  .of_same rfl rfl rfl

structure GenerationInvariant (w : GenerationRun) : Prop where
  layered : Layered w.repo
  admitted : w.repo.admittedGeneration = 0 ∨ w.repo.admittedGeneration ∈ w.admitted

theorem generationStep_later (hw : Current w.repo) :
    Later w.repo (generationStep digest acceptable w l).repo := by
  have h := (reached_turned digest acceptable hw l).turns.later
  unfold generationStep
  split
  · exact h
  · exact h.trans (forgetProcess_prunes _).later

theorem GenerationInvariant.step (hw : GenerationInvariant w) (hl : Settled w l) :
    GenerationInvariant (generationStep digest acceptable w l) := by
  have hturned := reached_turned digest acceptable hw.layered.current l
  have hlayered := hturned.turns.layered hw.layered hl
  have hadmitted : (l.reached digest acceptable w.repo).admittedGeneration = 0 ∨
      (l.reached digest acceptable w.repo).admittedGeneration ∈ w.admitted ++ l.admits w.repo := by
    rcases hturned.admitted with h | h | h
    · rw [h]
      exact hw.admitted.imp_right (List.mem_append_left _)
    · exact Or.inl h
    · exact Or.inr (List.mem_append_right _ h)
  unfold generationStep
  constructor
  · split
    · exact hlayered
    · exact (forgetProcess_prunes _).layered hlayered
  · split
    · exact hadmitted
    · exact Or.inl rfl

theorem generationInvariant_start (capacity : ℕ) : GenerationInvariant (.start capacity) := by
  refine ⟨⟨⟨?_, ?_⟩, fun g g' _ _ => ⟨fun route r hr => ?_, fun hash hhash => ?_⟩⟩, Or.inl rfl⟩
  · simp [GenerationRun.start, initial]
  · simp [GenerationRun.start, initial]
  · simp [GenerationRun.start, initial] at hr
  · simp [GenerationRun.start, initial, Table.has] at hhash

/-- In every state of a run whose commits are settled a generation is contained in every later one
that is retained; since any earlier state of the run its rows are the same or gone; and the rows that
any label drops are those of a generation that is older than an admitted one, not current and not
leased. -/
theorem generations_immutable (capacity : ℕ) (labels : List GenerationLabel)
    (h : Always (generationStep digest acceptable) Settled (.start capacity) labels) :
    let w := run (generationStep digest acceptable) (.start capacity) labels
    (∀ g g', g ≤ g' → w.repo.Retained g → w.repo.Retained g' → w.repo.Within g g') ∧
      (∀ first rest, labels = first ++ rest →
        Later (run (generationStep digest acceptable) (.start capacity) first).repo w.repo) ∧
      ∀ l, let t := GenerationLabel.reached digest acceptable l w.repo
        (∀ r ∈ w.repo.overlayEntries.rows, r ∉ t.overlayEntries.rows →
            Prunable (generationStep digest acceptable w l).admitted t r.generation) ∧
          ∀ r ∈ w.repo.overlayStorePaths.rows, r ∉ t.overlayStorePaths.rows →
            Prunable (generationStep digest acceptable w l).admitted t r.generation := by
  have hstep : ∀ w l, GenerationInvariant w → Settled w l →
      GenerationInvariant (generationStep digest acceptable w l) :=
    fun w l hw hl => hw.step digest acceptable hl
  have hinvariant := run_invariant hstep (generationInvariant_start capacity) h
  refine ⟨fun g g' hle _ hg' => hinvariant.layered.within g g' hle hg', ?_, fun l => ?_⟩
  · rintro first rest rfl
    obtain ⟨hfirst, hrest⟩ := (always_append _ _ _ _).mp h
    rw [run_append]
    exact run_relates (R := fun w w' : GenerationRun => Later w.repo w'.repo) (fun w => .refl w.repo)
      Later.trans hstep (fun w l hw _ => generationStep_later digest acceptable hw.layered.current)
      (run_invariant hstep (generationInvariant_start capacity) hfirst) hrest
  · exact (reached_turned digest acceptable hinvariant.layered.current l).dropped
      hinvariant.layered.current hinvariant.admitted

end Results

section Instances

instance decidableAgrees (s : WriteRepository) (route : String) : Decidable (s.Agrees route) :=
  decidable_of_iff
    (∀ row ∈ s.lookup route, ∀ r ∈ s.overlayEntries.find? (s.currentGeneration, route),
      entryOf s.currentGeneration row = r)
    ⟨fun h row r hrow hr => h row hrow r hr, fun h row hrow r hr => h row r hrow hr⟩

def operation (op : RepositoryOp) : GenerationLabel :=
  ⟨.repository op, 1, fun _ => none, none⟩

def routeCommit (routes : List String) : GenerationLabel :=
  ⟨.commitOverlayRoutes routes, 1, fun _ => none, none⟩

def stagedPath (hash digest : String) (narRoute : String) : List GenerationLabel :=
  [operation (.staging (.insertStagedBlob ⟨hash ++ ".narinfo", digest, 1, digest⟩)),
    operation (.staging (.recordNarInfo (hash ++ ".narinfo") ⟨hash, narRoute, [], 1⟩))]

/-- Two generations by their routes, the second of which names a route of the first again; the lease
of the first is released. -/
def extendedOverlay : List GenerationLabel :=
  stagedPath "a" "d1" "nar/a" ++
    [operation (.staging (.insertStagedBlob ⟨"nar/a", "d2", 1, "d2"⟩)),
      routeCommit ["a.narinfo"], operation (.staging (.acquireGeneration 1)),
      routeCommit ["a.narinfo", "nar/a"], operation (.saga (.releaseGeneration 1))]

theorem settled_operation (w : GenerationRun) {op : RepositoryOp}
    (hop : ∀ hashes, op ≠ .staging (.commitOverlay hashes)) : Settled w (operation op) := by
  intro route hroute
  simp only [operation, GenerationLabel.names] at hroute
  split at hroute
  · next hashes hcommit => exact absurd (by simpa using hcommit) (hop hashes)
  · next hcommit => simp at hcommit
  · exact hroute.elim

theorem settled_routes {w : GenerationRun} {routes : List String}
    (h : ∀ route ∈ routes, w.repo.Agrees route) : Settled w (routeCommit routes) :=
  h

theorem extendedOverlay_settled :
    Always (generationStep (fun _ => "") fun _ => true) Settled (.start 0) extendedOverlay :=
  ⟨settled_operation _ (by simp), settled_operation _ (by simp), settled_operation _ (by simp),
    settled_routes (by decide +kernel), settled_operation _ (by simp),
    settled_routes (by decide +kernel), settled_operation _ (by simp), trivial⟩

theorem generations_immutable_extended :
    let w := run (generationStep (fun _ => "") fun _ => true) (.start 0) extendedOverlay
    (∀ g g', g ≤ g' → w.repo.Retained g → w.repo.Retained g' → w.repo.Within g g') ∧
      (∀ first rest, extendedOverlay = first ++ rest →
        Later (run (generationStep (fun _ => "") fun _ => true) (.start 0) first).repo w.repo) ∧
      ∀ l, let t := GenerationLabel.reached (fun _ => "") (fun _ => true) l w.repo
        (∀ r ∈ w.repo.overlayEntries.rows, r ∉ t.overlayEntries.rows →
            Prunable (generationStep (fun _ => "") (fun _ => true) w l).admitted t r.generation) ∧
          ∀ r ∈ w.repo.overlayStorePaths.rows, r ∉ t.overlayStorePaths.rows →
            Prunable (generationStep (fun _ => "") (fun _ => true) w l).admitted t r.generation :=
  generations_immutable (fun _ => "") (fun _ => true) 0 extendedOverlay extendedOverlay_settled

/-- A committed route is discarded and staged again, and another narinfo names it as its NAR. -/
def restagedRoute : List GenerationLabel :=
  stagedPath "a" "d1" "nar/a" ++
    [operation (.staging (.insertStagedBlob ⟨"nar/a", "d2", 1, "d2"⟩)),
      operation (.staging (.commitOverlay ["a"])), operation (.staging (.discard "a.narinfo"))] ++
    stagedPath "a" "d3" "nar/a" ++ stagedPath "b" "d4" "a.narinfo" ++
    [operation (.staging (.commitOverlay ["b"]))]

theorem restaged_route_replaced :
    let w := run (generationStep (fun _ => "") fun _ => true) (.start 0) restagedRoute
    ¬∀ g g', g ≤ g' → w.repo.Retained g → w.repo.Retained g' → w.repo.Within g g' := by
  intro w h
  have hfirst : (⟨1, "a.narinfo", "d1", 1, "d1"⟩ : OverlayEntryRow) ∈ w.repo.overlayEntries.rows := by
    decide +kernel
  have hwithin := h 1 2 (by decide) (Or.inr ⟨_, hfirst, rfl⟩) (Or.inl (by decide +kernel))
  have hentry := hwithin.1 "a.narinfo" _ (Table.find?_key hfirst)
  revert hentry
  decide +kernel

end Instances

end NixstrCache.Persistence.WriteRepository
