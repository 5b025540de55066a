import NixstrCache.Persistence.OverlayTables
import NixstrCache.Persistence.SagaStates

/-!
What the rest of the repository does to staging and the overlay.

Batches, sagas, blobs, leases and a new opening leave the catalog alone, except that an admission or
the end of a lease may drop all rows of generations other than the current one.
-/

namespace NixstrCache.Persistence.WriteRepository

open Durable KeyedTable

/-- The same overlay, but for generations other than the current one that have been dropped. -/
structure Prunes (s t : WriteRepository) : Prop where
  currentGeneration : t.currentGeneration = s.currentGeneration
  generations : ∃ keep : ℕ → Bool, keep s.currentGeneration = true ∧
    t.overlayEntries = s.overlayEntries.filter (fun r => keep r.generation) ∧
      t.overlayStorePaths = s.overlayStorePaths.filter fun r => keep r.generation

structure KeepsCatalog (s t : WriteRepository) : Prop where
  stagedBlobs : t.stagedBlobs = s.stagedBlobs
  stagedNarInfos : t.stagedNarInfos = s.stagedNarInfos
  stagedReferences : t.stagedReferences = s.stagedReferences
  prunes : Prunes s t

section Generations

variable {s t u : WriteRepository}

theorem Prunes.of_same (hgeneration : t.currentGeneration = s.currentGeneration)
    (hentries : t.overlayEntries = s.overlayEntries)
    (hpaths : t.overlayStorePaths = s.overlayStorePaths) : Prunes s t := by
  refine ⟨hgeneration, fun _ => true, rfl, ?_, ?_⟩
  · rw [hentries]
    exact Table.ext (by simp)
  · rw [hpaths]
    exact Table.ext (by simp)

theorem Prunes.trans (h : Prunes s t) (h' : Prunes t u) : Prunes s u := by
  obtain ⟨keep, hcurrent, hentries, hpaths⟩ := h.generations
  obtain ⟨keep', hcurrent', hentries', hpaths'⟩ := h'.generations
  rw [h.currentGeneration] at hcurrent'
  refine ⟨h'.currentGeneration.trans h.currentGeneration, fun g => keep g && keep' g,
    by simp [hcurrent, hcurrent'], ?_, ?_⟩
  · rw [hentries', hentries]
    exact Table.ext (by simp [List.filter_filter, Bool.and_comm])
  · rw [hpaths', hpaths]
    exact Table.ext (by simp [List.filter_filter, Bool.and_comm])

theorem Prunes.current (h : Prunes s t) (hs : Current s) : Current t := by
  obtain ⟨keep, -, hentries, hpaths⟩ := h.generations
  constructor
  · intro r hr
    rw [hentries] at hr
    rw [h.currentGeneration]
    exact hs.entries r (Table.mem_filter.mp hr).1
  · intro r hr
    rw [hpaths] at hr
    rw [h.currentGeneration]
    exact hs.paths r (Table.mem_filter.mp hr).1

theorem Prunes.currentPaths (h : Prunes s t) (hash : String) :
    t.overlayStorePaths.has (t.currentGeneration, hash) = true ↔
      s.overlayStorePaths.has (s.currentGeneration, hash) = true := by
  obtain ⟨keep, hcurrent, -, hpaths⟩ := h.generations
  simp only [h.currentGeneration, hpaths, Table.has_iff, Table.mem_filter]
  constructor
  · rintro ⟨r, ⟨hr, -⟩, hkey⟩
    exact ⟨r, hr, hkey⟩
  · rintro ⟨r, hr, hkey⟩
    have hgeneration : r.generation = s.currentGeneration := congrArg Prod.fst hkey
    exact ⟨r, ⟨hr, by rw [hgeneration, hcurrent]⟩, hkey⟩

end Generations

section Moves

variable {s t u : WriteRepository} {acceptable : RawPublication → Bool}

theorem KeepsCatalog.of_catalog (h : t.catalog = s.catalog) : KeepsCatalog s t := by
  simp only [catalog, Catalog.mk.injEq] at h
  obtain ⟨hblobs, hinfos, hreferences, hgeneration, hentries, hpaths⟩ := h
  exact ⟨hblobs, hinfos, hreferences, .of_same hgeneration hentries hpaths⟩

theorem KeepsCatalog.trans (h : KeepsCatalog s t) (h' : KeepsCatalog t u) : KeepsCatalog s u where
  stagedBlobs := h'.stagedBlobs.trans h.stagedBlobs
  stagedNarInfos := h'.stagedNarInfos.trans h.stagedNarInfos
  stagedReferences := h'.stagedReferences.trans h.stagedReferences
  prunes := h.prunes.trans h'.prunes

theorem keepsCatalog_of_moves (h : Relation.ReflTransGen KeepsCatalog s t) : KeepsCatalog s t := by
  induction h with
  | refl => exact .of_catalog rfl
  | tail _ hmove ih => exact ih.trans hmove

theorem pruneRows_keepsCatalog (s : WriteRepository) : KeepsCatalog s s.pruneRows := by
  refine ⟨rfl, rfl, rfl, rfl, fun g => ¬s.staleGeneration g, by simp [staleGeneration], ?_, ?_⟩
  · exact Table.ext rfl
  · exact Table.ext rfl

theorem claimBatch_catalog {token : ℕ} {batch : Option FrozenBatch}
    (h : claimBatch token s = .ok (batch, t)) : t.catalog = s.catalog := by
  rcases claimBatch_ok h with ⟨-, rfl⟩ | ⟨generation, batches, entries, -, -, -, -, -, -, rfl⟩
  · rfl
  · rfl

theorem storePending_catalog {batch : FrozenBatch} {candidate : PendingCandidate}
    {inventory : List InventoryEntry} {runId : Option String}
    (h : storePending batch candidate inventory runId s = .ok ((), t)) :
    t.catalog = s.catalog ∧ t.admittedGeneration = s.admittedGeneration := by
  unfold storePending at h
  cases hu : inventory.foldlM (fun t blob => insertPendingBlob batch.id runId blob t)
      { s with pendingBlobs := .empty } with
  | error e => simp [hu, bind, Except.bind] at h
  | ok u =>
    cases hv : claimRunBlobs batch.id candidate.blobCount runId u with
    | error e => simp [hu, hv, bind, Except.bind] at h
    | ok v =>
      simp only [hu, hv, bind, Except.bind, Except.ok.injEq, Prod.mk.injEq, true_and] at h
      subst h
      obtain ⟨pendingBlobs, rfl, -⟩ := insertPendingBlobs_ok hu
      obtain ⟨blobs, rfl⟩ := claimRunBlobs_ok hv
      exact ⟨rfl, rfl⟩

theorem claimCandidate_catalog {candidate : PendingCandidate} {destinations : List String} {now : ℕ}
    (h : claimCandidate candidate destinations now s = .ok ((), t)) :
    t.catalog = s.catalog ∧ t.admittedGeneration = s.admittedGeneration := by
  have hinsert : ∀ u v : WriteRepository, insertSaga candidate destinations u = .ok v →
      v.catalog = u.catalog ∧ v.admittedGeneration = u.admittedGeneration := by
    intro u v huv
    obtain ⟨sagas, sagaBlobs, -, -, rfl⟩ := insertSaga_ok huv
    exact ⟨rfl, rfl⟩
  unfold claimCandidate at h
  split at h
  · cases hu : insertSaga candidate destinations s with
    | error e => simp [hu, Except.map] at h
    | ok u =>
      obtain rfl : u = t := by simpa [hu, Except.map] using h
      exact hinsert s u hu
  · next existing hexisting =>
    dsimp only at h
    set archived := if (existing.admitted || existing.signedEvent.isNone) = true ∧
        existing.candidate.generation < candidate.generation then
      s.archiveSaga existing.batchId now else s with harchived
    have hsame : archived.catalog = s.catalog ∧
        archived.admittedGeneration = s.admittedGeneration := by
      rw [harchived]
      split
      · exact ⟨rfl, rfl⟩
      · exact ⟨rfl, rfl⟩
    split at h
    · cases hu : insertSaga candidate destinations archived with
      | error e => simp [hu, Except.map] at h
      | ok u =>
        obtain rfl : u = t := by simpa [hu, Except.map] using h
        obtain ⟨hcatalog, hadmitted⟩ := hinsert archived u hu
        exact ⟨hcatalog.trans hsame.1, hadmitted.trans hsame.2⟩
    · obtain rfl : archived = t := by simpa using h
      exact hsame

theorem refreshSaga_catalog {saga : SagaRow} {now : ℕ} (h : refreshSaga saga now s = .ok ((), t)) :
    t.catalog = s.catalog ∧ t.admittedGeneration = s.admittedGeneration := by
  unfold refreshSaga at h
  dsimp only at h
  split at h
  · cases h
    exact ⟨rfl, rfl⟩
  · simp at h

theorem BatchMove.keepsCatalog (h : BatchMove s t) : KeepsCatalog s t := by
  cases h with
  | same h => exact .of_catalog h.2
  | claim h => exact .of_catalog (claimBatch_catalog h)
  | record h => exact .of_catalog (storePending_catalog h).1
  | _ => exact .of_catalog rfl

theorem SagaMove.keepsCatalog (h : SagaMove acceptable s t) : KeepsCatalog s t := by
  cases h with
  | quiet h =>
    cases h with
    | same h => exact .of_catalog h.2
    | refresh h =>
      obtain ⟨-, h⟩ := h
      exact .of_catalog (refreshSaga_catalog h).1
    | prune => exact pruneRows_keepsCatalog s
    | _ => exact .of_catalog rfl
  | claim h =>
    cases h with
    | adopt => exact .of_catalog rfl
    | claim _ _ h => exact .of_catalog (claimCandidate_catalog h).1
  | prove => exact .of_catalog rfl

end Moves

section Background

variable (digest : Bytes → String) (acceptable : RawPublication → Bool)

def background : RepositoryOp → Bool
  | .staging (.blob _) | .staging (.acquireGeneration _) => true
  | .staging _ => false
  | .batch _ | .saga _ | .reopen _ => true

theorem background_advances (l : RepositoryLabel) (h : background l.op = true) :
    Advances KeepsCatalog (l.program digest acceptable) := by
  obtain ⟨op, now, fails, stop⟩ := l
  cases op with
  | staging op =>
    cases op with
    | blob op => exact advances_onBlobs (fun _ _ => .of_catalog rfl) _
    | acquireGeneration generation => exact fun s => AdvancesFrom.commit (.of_catalog rfl)
    | _ => simp [background] at h
  | batch op => exact Advances.mono (fun _ _ h => h.keepsCatalog) (batch_advances fails now op)
  | saga op =>
    exact Advances.mono (fun _ _ h => h.keepsCatalog) (saga_advances acceptable fails now op)
  | reopen retries =>
    exact reopen_advances digest (fun _ _ h => .of_catalog h.2) (fun _ => .of_catalog rfl) fails retries
      now

theorem background_keepsCatalog (s : WriteRepository) (l : RepositoryLabel)
    (h : background l.op = true) : KeepsCatalog s (repositoryStep digest acceptable s l) := by
  have hadvances := background_advances digest acceptable l h s
  unfold repositoryStep
  split
  · exact keepsCatalog_of_moves hadvances.final
  · exact (keepsCatalog_of_moves (hadvances.crash _)).trans (.of_catalog rfl)

end Background

end NixstrCache.Persistence.WriteRepository
