import NixstrCache.Persistence.BatchTables
import NixstrCache.Persistence.CatalogRuns

/-!
The routes that the repository names.

An overlay entry has the route of a staged row or of an earlier entry, and an entry of a batch that of an
overlay entry.  So only the staging of a row brings in a new route.
-/

namespace NixstrCache.Persistence.WriteRepository

open Durable KeyedTable

variable {s t u : WriteRepository} {route : String} {acceptable : RawPublication → Bool}

/-- The routes of the staged rows, of the overlay in all generations, and of the batches. -/
def routes (s : WriteRepository) : List String :=
  s.stagedBlobs.rows.map StagedBlobRow.route ++
    (s.overlayEntries.rows.map OverlayEntryRow.route ++ s.batchEntries.rows.map BatchEntryRow.route)

theorem route_of_staged {r : StagedBlobRow} (hr : r ∈ s.stagedBlobs.rows) : r.route ∈ s.routes :=
  List.mem_append_left _ (List.mem_map_of_mem hr)

theorem route_of_overlay {r : OverlayEntryRow} (hr : r ∈ s.overlayEntries.rows) : r.route ∈ s.routes :=
  List.mem_append_right _ (List.mem_append_left _ (List.mem_map_of_mem hr))

theorem route_of_batch {e : BatchEntryRow} (he : e ∈ s.batchEntries.rows) : e.route ∈ s.routes :=
  List.mem_append_right _ (List.mem_append_right _ (List.mem_map_of_mem he))

theorem mem_routes : route ∈ s.routes ↔ (∃ r ∈ s.stagedBlobs.rows, r.route = route) ∨
    (∃ r ∈ s.overlayEntries.rows, r.route = route) ∨ ∃ e ∈ s.batchEntries.rows, e.route = route := by
  simp only [routes, List.mem_append, List.mem_map]

theorem routes_subset (hstaged : ∀ r ∈ t.stagedBlobs.rows, r.route ∈ s.routes)
    (hoverlay : ∀ r ∈ t.overlayEntries.rows, r.route ∈ s.routes)
    (hbatches : ∀ e ∈ t.batchEntries.rows, e.route ∈ s.routes) : t.routes ⊆ s.routes := by
  intro route hroute
  rcases mem_routes.mp hroute with ⟨r, hr, rfl⟩ | ⟨r, hr, rfl⟩ | ⟨e, he, rfl⟩
  · exact hstaged r hr
  · exact hoverlay r hr
  · exact hbatches e he

section Background

theorem KeepsCatalog.routes (h : KeepsCatalog s t) (hbatches : ∀ e ∈ t.batchEntries.rows, e.route ∈ s.routes) :
    t.routes ⊆ s.routes := by
  obtain ⟨-, keep, -, hentries, -⟩ := h.prunes
  refine routes_subset (fun r hr => ?_) (fun r hr => ?_) hbatches
  · rw [h.stagedBlobs] at hr
    exact route_of_staged hr
  · rw [hentries] at hr
    exact route_of_overlay (Table.mem_filter.mp hr).1

theorem KeepsWindow.routes (h : KeepsWindow s t) (hcatalog : KeepsCatalog s t) : t.routes ⊆ s.routes :=
  hcatalog.routes fun e he => route_of_batch (h.entries e he)

theorem claimBatch_routes {token : ℕ} {batch : Option FrozenBatch} (h : claimBatch token s = .ok (batch, t)) :
    ∀ e ∈ t.batchEntries.rows, e.route ∈ s.routes := by
  cases batch with
  | none =>
    rw [claimBatch_none h]
    exact fun e he => route_of_batch he
  | some batch =>
    obtain ⟨row, hfrozen, -⟩ := claimBatch_frozen h
    intro e he
    rw [hfrozen.entries, List.mem_append] at he
    rcases he with hold | hnew
    · exact route_of_batch hold
    · obtain ⟨r, hr, rfl⟩ := List.mem_map.mp hnew
      exact route_of_overlay (List.mem_filter.mp hr).1

theorem BatchMove.routes (h : BatchMove s t) : t.routes ⊆ s.routes := by
  have hcatalog := h.keepsCatalog
  cases h with
  | same h => exact (KeepsWindow.of_ledger h.1).routes hcatalog
  | dirty => exact hcatalog.routes fun e he => route_of_batch he
  | claim h => exact hcatalog.routes (claimBatch_routes h)
  | record h => exact (storePending_stored h).keepsWindow.routes hcatalog
  | fail id => exact (setBatchStatus_keepsWindow s id _).routes hcatalog

theorem SagaMove.routes (h : SagaMove acceptable s t) : t.routes ⊆ s.routes :=
  h.keepsWindow.routes h.keepsCatalog

theorem background_routes (digest : Bytes → String) (acceptable : RawPublication → Bool) (s : WriteRepository) (l : RepositoryLabel)
    (h : background l.op = true) : (repositoryStep digest acceptable s l).routes ⊆ s.routes := by
  have hadvances : Advances (fun s t : WriteRepository => t.routes ⊆ s.routes) (l.program digest acceptable) := by
    obtain ⟨op, now, fails, stop⟩ := l
    cases op with
    | staging op =>
      cases op with
      | blob op => exact advances_onBlobs (fun _ _ => List.Subset.refl _) _
      | acquireGeneration generation => exact fun s => AdvancesFrom.commit (List.Subset.refl _)
      | _ => simp [background] at h
    | batch op => exact Advances.mono (fun _ _ h => h.routes) (batch_advances fails now op)
    | saga op => exact Advances.mono (fun _ _ h => h.routes) (saga_advances acceptable fails now op)
    | reopen retries =>
      exact reopen_advances digest (fun _ _ h => (KeepsWindow.of_ledger h.1).routes (.of_catalog h.2))
        (fun _ => List.Subset.refl _) fails retries now
  have hmoves : ∀ {t}, Relation.ReflTransGen (fun s t : WriteRepository => t.routes ⊆ s.routes) s t →
      t.routes ⊆ s.routes := by
    intro t ht
    induction ht with
    | refl => exact List.Subset.refl _
    | tail _ hstep ih => exact List.Subset.trans hstep ih
  unfold repositoryStep
  split
  · exact hmoves (hadvances s).final
  · exact fun route hroute => hmoves ((hadvances s).crash _) hroute

end Background

section Overlay

variable {hashes : List String} {generation previous : ℕ}

theorem copyGeneration_routes (h : s.copyGeneration previous generation = .ok t) : t.routes ⊆ s.routes := by
  unfold copyGeneration at h
  split at h
  · cases h
  · next overlayEntries hentries =>
    split at h
    · cases h
    · cases h
      refine routes_subset (fun r hr => route_of_staged hr) (fun r hr => ?_) fun e he => route_of_batch he
      rw [Table.insertAll?_rows hentries, List.mem_append] at hr
      rcases hr with hold | hnew
      · exact route_of_overlay hold
      · obtain ⟨q, hq, rfl⟩ := List.mem_map.mp hnew
        exact route_of_overlay (s := s) (r := q) (List.mem_filter.mp hq).1

theorem commitStorePath_routes {hash : String} (h : commitStorePath generation hash s = .ok t) :
    t.routes ⊆ s.routes := by
  obtain ⟨n, row, narRow, -, hrow, hnarRow, rfl⟩ := commitStorePath_ok h
  refine routes_subset (fun r hr => route_of_staged hr) (fun r hr => ?_) fun e he => route_of_batch he
  rcases Table.mem_insertOrReplace.mp hr with ⟨hr, -⟩ | rfl
  · rcases Table.mem_insertOrReplace.mp hr with ⟨hr, -⟩ | rfl
    · exact route_of_overlay hr
    · exact route_of_staged (Table.find?_eq_some.mp hrow).1
  · exact route_of_staged (Table.find?_eq_some.mp hnarRow).1

theorem commitStorePaths_routes (h : hashes.foldlM (fun t hash => commitStorePath generation hash t) s = .ok t) :
    t.routes ⊆ s.routes := by
  induction hashes generalizing s with
  | nil =>
    obtain rfl : s = t := by simpa [pure, Except.pure] using h
    exact List.Subset.refl _
  | cons hash rest ih =>
    rw [List.foldlM_cons] at h
    cases hu : commitStorePath generation hash s with
    | error e => simp [hu, bind, Except.bind] at h
    | ok u =>
      simp only [hu, bind, Except.bind] at h
      exact List.Subset.trans (ih h) (commitStorePath_routes hu)

theorem commitOverlay_routes (hashes : List String) (s : WriteRepository) :
    (((commitOverlay hashes).run s).final s).routes ⊆ s.routes := by
  rw [commitOverlay, Program.bind_read_run]
  split
  · exact List.Subset.refl _
  · cases h : advanceOverlay hashes s with
    | error e =>
      rw [Program.transaction_run_error h]
      exact List.Subset.refl _
    | ok r =>
      obtain ⟨generation, t⟩ := r
      rw [Program.transaction_run_ok h]
      unfold advanceOverlay at h
      cases hcopy : s.copyGeneration s.currentGeneration (s.currentGeneration + 1) with
      | error e => simp [hcopy, bind, Except.bind] at h
      | ok u =>
        simp only [hcopy, bind, Except.bind] at h
        split at h
        · cases h
        · next v hfold =>
          cases h
          have hroutes := List.Subset.trans (commitStorePaths_routes hfold) (copyGeneration_routes hcopy)
          exact fun route hroute => hroutes hroute

end Overlay

end NixstrCache.Persistence.WriteRepository
