import NixstrCache.Nix.NarRoutes

/-!
The routes that come from uploads.

The handler takes a narinfo under the hash of a store path and a NAR under a name below `nar`.  No other route is
staged in any run, so none comes into the overlay or into a batch.
-/

namespace NixstrCache.Nix

open Durable KeyedTable Runs Persistence

/-- The routes that the handler takes uploads under. -/
inductive UploadRoute : String → Prop
  | narInfo {hash : String} (hhash : isStorePathHash hash = true) : UploadRoute (narInfoRoute hash)
  | nar {route : String} (hroute : isNarUploadRoute route = true) : UploadRoute route

namespace NarStaging

variable {env : NarEnv} {l : NarLabel} {start s : NarStaging} {u : NarUpload}

theorem BlobsOnly.routes {t : NarStaging} (h : BlobsOnly s t) :
    t.area.repository.routes = s.area.repository.routes := by
  obtain ⟨_, h⟩ := h
  rw [h]
  rfl

theorem BlobsOnly.routes_subset {t : NarStaging} (h : BlobsOnly s t) (route : String) :
    t.area.repository.routes ⊆ route :: s.area.repository.routes := by
  rw [h.routes]
  exact List.subset_cons_self _ _

theorem settle_routes : (s.settle env l u).area.repository.routes ⊆ u.route :: s.area.repository.routes := by
  have hsame := BlobsOnly.refl s
  unfold NarStaging.settle
  split
  · split
    · dsimp only
      split
      · exact ((hsame.setBlobs _).setUpload _).routes_subset _
      · exact ((hsame.setBlobs _).reject _).routes_subset _
    · exact (hsame.reject _).routes_subset _
  · dsimp only
    split
    · exact ((hsame.setBlobs _).reject _).routes_subset _
    split
    · exact ((hsame.setBlobs _).reject _).routes_subset _
    split
    · exact ((hsame.setBlobs _).reject _).routes_subset _
    · next stagedBlobs hinsert =>
      intro route hroute
      rcases WriteRepository.mem_routes.mp hroute with ⟨row, hrow, rfl⟩ | hentry
      · change row ∈ stagedBlobs.rows at hrow
        rw [(Table.insert?_eq_some.mp hinsert).2, List.mem_append, List.mem_singleton] at hrow
        rcases hrow with hrow | rfl
        · exact List.mem_cons_of_mem _ (WriteRepository.route_of_staged hrow)
        · exact List.mem_cons_self
      · exact List.mem_cons_of_mem _ (WriteRepository.mem_routes.mpr (Or.inr hentry))

/-- A step of an upload brings in no route but its own. -/
theorem advance_routes : (s.advance env l u).area.repository.routes ⊆ u.route :: s.area.repository.routes := by
  have hsame := BlobsOnly.refl s
  unfold NarStaging.advance
  split
  · exact (consume_blobsOnly s _).routes_subset _
  · split_ifs
    · exact (hsame.setUpload _).routes_subset _
    · exact (flush_blobsOnly s _).routes_subset _
  · exact (promoted_blobsOnly s _ _).routes_subset _
  · exact (consume_blobsOnly s _).routes_subset _
  · exact settle_routes
  · exact (hsame.reject _).routes_subset _
  · exact ((hsame.setBlobs _).reject _).routes_subset _
  · exact hsame.routes_subset _
  · exact hsame.routes_subset _

/-- Every route that the repository names is one of an upload. -/
def Uploaded (s : NarStaging) : Prop :=
  ∀ route ∈ s.area.repository.routes, UploadRoute route

theorem Uploaded.stage (h : Uploaded s) (hroutes : Routes env start s) (e : StagingArea.Event) :
    Uploaded (s.stage env e) := by
  have hstep : ∀ e, (∀ row, e ≠ .nar row) →
      ∀ route ∈ (s.area.step env.toStagingEnv e).repository.routes, UploadRoute route := by
    intro e hnar route hroute
    rcases (StagingArea.step_follows s.area hnar).routes route hroute with hold | ⟨u, hu, rfl⟩
    · exact h route hold
    · exact .narInfo (hroutes.hashes u hu)
  unfold NarStaging.stage
  split
  · exact h
  · next id hash body =>
    split_ifs
    · exact hstep (.put id hash body) (by simp)
    · exact h
  · next b =>
    dsimp only
    split_ifs
    all_goals exact hstep (.background b) (by simp)
  · next hnar _ _ => exact hstep _ hnar

theorem Uploaded.step (h : Uploaded s) (hroutes : Routes env start s) (l : NarLabel) : Uploaded (s.step env l) := by
  unfold NarStaging.step
  split
  · exact h.stage hroutes _
  · unfold reserveBody
    split_ifs <;> exact h
  · split_ifs <;> exact h
  · unfold NarStaging.put
    split_ifs
    · exact h
    · exact h
    · split <;> exact h
  · next route removes _ =>
    have hdiscard : ∀ route' ∈ (s.area.discard route removes).repository.routes, UploadRoute route' := by
      intro route' hroute
      rcases (StagingArea.discard_follows (s := s.area) route removes).routes route' hroute with hold | ⟨u, hu, rfl⟩
      · exact h route' hold
      · exact .narInfo (hroutes.hashes u hu)
    unfold discardRoute
    split
    · exact h
    · dsimp only
      split_ifs <;> exact hdiscard
  · split
    · exact h
    · next u hfound =>
      obtain ⟨id, -, hfind⟩ := Option.bind_eq_some_iff.mp hfound
      intro route hroute
      rcases List.mem_cons.mp (advance_routes hroute) with rfl | hold
      · exact .nar (hroutes.uploads u (Table.find?_eq_some.mp hfind).1).1
      · exact h route hold

/-- In every run the routes of the uploads under way, of the staged rows, of the overlay and of the batches are
routes of uploads. -/
theorem run_uploaded (env : NarEnv) (capacity : ℕ) (labels : List NarLabel) :
    let s := run (step env) (initial capacity) labels
    (∀ u ∈ s.nars.rows, UploadRoute u.route) ∧ (∀ u ∈ s.area.uploads.rows, UploadRoute u.route) ∧ Uploaded s := by
  have hstart : Uploaded (initial capacity) := by
    intro route hroute
    simp [WriteRepository.routes, initial, StagingArea.initial, WriteRepository.initial] at hroute
  obtain ⟨hroutes, -, huploaded⟩ := run_preserves
    (I := fun s => Routes env (initial capacity) s ∧ Cuts env s ∧ Uploaded s)
    (fun s l hs => ⟨hs.1.step hs.2.1 l, hs.2.1.step l, hs.2.2.step hs.1 l⟩) labels
    ⟨initial_routes env capacity, by simp [Cuts, initial], hstart⟩
  exact ⟨fun u hu => .nar (hroutes.uploads u hu).1, fun u hu => .narInfo (hroutes.hashes u hu), huploaded⟩

end NarStaging

end NixstrCache.Nix
