import NixstrCache.Nix.NarComponents
import NixstrCache.Nix.StagingRace
import NixstrCache.Persistence.RouteComponents
import NixstrCache.Persistence.StoredRoutes

/-!
The routes of staged NARs.

When the upload of a NAR is stored, the blob store has its pieces as the components of its route, no matter
whether this upload has committed them or an earlier one with the same content.  From then on nothing that the
daemon does takes them away or puts others in their place.
-/

namespace NixstrCache.Nix

open Durable KeyedTable Runs Persistence Chunks
open Persistence.WriteRepository (repositoryStep)

namespace StagingArea

variable {env : StagingEnv} {s t : StagingArea} {u : NarInfoUpload}

/-- A step of the narinfos, or of what runs besides: components stay, and new rows and routes are
those of narinfos. -/
structure Follows (s t : StagingArea) : Prop where
  keeps : s.repository.KeepsComponents t.repository
  rows : ∀ row ∈ t.repository.stagedBlobs.rows, row ∈ s.repository.stagedBlobs.rows ∨
    ∃ u ∈ s.uploads.rows, row.route = u.route
  uploads : ∀ u ∈ t.uploads.rows, isStorePathHash u.hash = true ∨ ∃ w ∈ s.uploads.rows, w.hash = u.hash
  routes : ∀ route ∈ t.repository.routes, route ∈ s.repository.routes ∨ ∃ u ∈ s.uploads.rows, route = u.route

theorem follows_of_rows (hblobs : t.repository.blobs = s.repository.blobs)
    (hrows : t.repository.stagedBlobs.rows ⊆ s.repository.stagedBlobs.rows)
    (hroutes : t.repository.routes ⊆ s.repository.routes)
    (huploads : ∀ u ∈ t.uploads.rows, ∃ w ∈ s.uploads.rows, w.hash = u.hash) : Follows s t := by
  refine ⟨?_, fun row hrow => Or.inl (hrows hrow), fun u hu => Or.inr (huploads u hu),
    fun route hroute => Or.inl (hroutes hroute)⟩
  rw [WriteRepository.KeepsComponents, hblobs]
  exact .refl _

theorem setPhase_hashes {id : ℕ} {phase : UploadPhase} (hsame : t.uploads = (s.setPhase id phase).uploads) :
    ∀ u ∈ t.uploads.rows, ∃ w ∈ s.uploads.rows, w.hash = u.hash := by
  intro u hu
  rw [hsame] at hu
  obtain ⟨w, hw, rfl⟩ := mem_setPhase.mp hu
  exact ⟨w, hw, by split_ifs <;> rfl⟩

theorem finish_hashes {id : ℕ} (hsub : ∀ u ∈ t.uploads.rows, u ∈ s.uploads.rows) (status : ℕ) :
    ∀ u ∈ (t.finish id status).uploads.rows, ∃ w ∈ s.uploads.rows, w.hash = u.hash :=
  fun u hu => ⟨u, hsub u (Table.mem_filter.mp hu).1, rfl⟩

theorem refl_hashes (s : StagingArea) : ∀ u ∈ s.uploads.rows, ∃ w ∈ s.uploads.rows, w.hash = u.hash :=
  fun u hu => ⟨u, hu, rfl⟩

theorem follows_refl (s : StagingArea) : Follows s s :=
  follows_of_rows rfl (List.Subset.refl _) (List.Subset.refl _) (refl_hashes s)

theorem insertRow_follows (hu : u ∈ s.uploads.rows) : Follows s (s.insertRow env u) := by
  unfold insertRow
  split_ifs
  · exact follows_of_rows rfl (List.Subset.refl _) (List.Subset.refl _) (finish_hashes (fun _ hu => hu) _)
  · split
    · exact follows_of_rows rfl (List.Subset.refl _) (List.Subset.refl _) (finish_hashes (fun _ hu => hu) _)
    · next stagedBlobs hinsert =>
      have hrows : ∀ row ∈ stagedBlobs.rows, row ∈ s.repository.stagedBlobs.rows ∨
          ∃ u ∈ s.uploads.rows, row.route = u.route := by
        intro row hrow
        rw [(Table.insert?_eq_some.mp hinsert).2, List.mem_append, List.mem_singleton] at hrow
        rcases hrow with hold | rfl
        · exact Or.inl hold
        · exact Or.inr ⟨u, hu, rfl⟩
      refine ⟨BlobStore.KeepsComponents.refl _, hrows, fun v hv => Or.inr (setPhase_hashes rfl v hv),
        fun route hroute => ?_⟩
      rcases WriteRepository.mem_routes.mp hroute with ⟨row, hrow, rfl⟩ | hentry
      · exact (hrows row hrow).imp_left WriteRepository.route_of_staged
      · exact Or.inl (WriteRepository.mem_routes.mpr (Or.inr hentry))

theorem discard_follows (route : String) (removes : Bool) : Follows s (s.discard route removes) := by
  obtain ⟨blobFiles, hdiscard, -⟩ := discard_eq s route removes
  rw [hdiscard]
  refine follows_of_rows rfl (List.filter_subset_self _) ?_ (refl_hashes s)
  exact WriteRepository.routes_subset
    (fun row hrow => WriteRepository.route_of_staged (List.mem_of_mem_filter hrow))
    (fun _ hentry => WriteRepository.route_of_overlay hentry) fun _ hentry => WriteRepository.route_of_batch hentry

theorem validate_follows (text : Bytes) (records removes : Bool) :
    Follows s (s.validate env u text records removes) := by
  have hrejected : ∀ status, Follows s ((s.discard u.route removes).finish u.id status) := by
    intro status
    obtain ⟨hkeeps, hrows, -, hroutes⟩ := discard_follows (s := s) u.route removes
    refine ⟨hkeeps, hrows, fun v hv => Or.inr (finish_hashes (fun w hw => ?_) status v hv), hroutes⟩
    rwa [discard_uploads] at hw
  unfold validate
  split
  · exact hrejected 503
  · next info _ =>
    split_ifs
    · exact hrejected 400
    · obtain ⟨repository, hrun, hrecorded⟩ :=
        WriteRepository.recordNarInfo_run u.route info s.repository
      obtain ⟨stagedNarInfos, stagedReferences, rfl⟩ := hrecorded.rest
      refine follows_of_rows ?_ ?_ ?_ (setPhase_hashes rfl)
      · rw [hrun]
        rfl
      · rw [hrun]
        exact List.Subset.refl _
      · rw [hrun]
        exact List.Subset.refl _
    · exact hrejected 503

theorem advance_follows (hu : u ∈ s.uploads.rows) (e : Event) : Follows s (s.advance env u e) := by
  have hphase : ∀ phase, Follows s (s.setPhase u.id phase) := fun phase =>
    follows_of_rows rfl (List.Subset.refl _) (List.Subset.refl _) (setPhase_hashes rfl)
  have hfinish : ∀ status, Follows s (s.finish u.id status) := fun status =>
    follows_of_rows rfl (List.Subset.refl _) (List.Subset.refl _) (finish_hashes (fun _ hu => hu) status)
  unfold advance
  split
  · split_ifs
    · unfold lookupRoute
      split
      · split_ifs
        · exact hphase _
        · exact hfinish _
      · exact hphase _
    · exact follows_refl s
  · split_ifs
    · exact follows_of_rows rfl (List.Subset.refl _) (List.Subset.refl _) (setPhase_hashes rfl)
    · exact follows_refl s
  · split_ifs
    · exact insertRow_follows hu
    · exact follows_refl s
  · split
    · unfold readText
      split
      · exact hfinish _
      · exact hphase _
    · exact follows_refl s
  · split
    · exact validate_follows _ _ _
    · exact follows_refl s
  · split_ifs
    · exact hfinish _
    · exact hfinish _
    · exact follows_refl s
  · split_ifs
    · exact hfinish _
    · exact follows_refl s
  · exact follows_refl s

theorem step_follows (s : StagingArea) {e : Event} (hnar : ∀ row, e ≠ .nar row) : Follows s (s.step env e) := by
  cases e with
  | put id hash body =>
    simp only [step, put]
    split_ifs with hhash
    · exact follows_of_rows rfl (List.Subset.refl _) (List.Subset.refl _) (refl_hashes s)
    · exact follows_of_rows rfl (List.Subset.refl _) (List.Subset.refl _) (refl_hashes s)
    · split
      · exact follows_refl s
      · next uploads hinsert =>
        refine ⟨BlobStore.KeepsComponents.refl _, fun row hrow => Or.inl hrow, fun u hu => ?_,
          fun route hroute => Or.inl hroute⟩
        rw [(Table.insert?_eq_some.mp hinsert).2, List.mem_append, List.mem_singleton] at hu
        rcases hu with hold | rfl
        · exact Or.inr ⟨u, hold, rfl⟩
        · exact Or.inl (by simpa using hhash)
  | nar row => exact absurd rfl (hnar row)
  | commitOverlay hashes =>
    have hkeeps := WriteRepository.commitOverlay_keeps hashes s.repository
    refine ⟨hkeeps, fun row hrow => Or.inl ?_, fun u hu => Or.inr ⟨u, hu, rfl⟩,
      fun route hroute => Or.inl (WriteRepository.commitOverlay_routes hashes s.repository hroute)⟩
    rw [← WriteRepository.commitOverlay_stagedBlobs hashes s.repository]
    exact hrow
  | background l =>
    simp only [step]
    split_ifs with hbackground
    · exact follows_refl s
    all_goals
      have hcatalog := WriteRepository.background_keepsCatalog env.digest env.acceptable s.repository l
        (by simpa using hbackground)
      have hkeeps := WriteRepository.repositoryStep_keeps env.digest env.acceptable s.repository l
      have hroutes := WriteRepository.background_routes env.digest env.acceptable s.repository l
        (by simpa using hbackground)
    · refine ⟨hkeeps, fun row hrow => Or.inl ?_, fun u hu => by simp at hu,
        fun route hroute => Or.inl (hroutes hroute)⟩
      rw [← hcatalog.stagedBlobs]
      exact hrow
    · refine ⟨hkeeps, fun row hrow => Or.inl ?_, fun u hu => Or.inr ⟨u, hu, rfl⟩,
        fun route hroute => Or.inl (hroutes hroute)⟩
      rw [← hcatalog.stagedBlobs]
      exact hrow
  | _ =>
    simp only [step]
    split
    · exact follows_refl s
    · next u hfound =>
      obtain ⟨id, -, hfind⟩ := Option.bind_eq_some_iff.mp hfound
      exact advance_follows (Table.find?_eq_some.mp hfind).1 _

end StagingArea

namespace NarStaging

variable {env : NarEnv} {l : NarLabel} {start s t : NarStaging} {u : NarUpload} {route digest : String} {size : ℕ}

theorem isNarRoute_of_upload (h : isNarUploadRoute route = true) : isNarRoute route = true :=
  (of_decide_eq_true h).1

/-- The components of the route are the pieces of a content with the digest and the size. -/
def Backed (env : NarEnv) (s : NarStaging) (route digest : String) (size : ℕ) : Prop :=
  ∃ pieces, Chunked fileChunkBytes pieces ∧ pieces ≠ [] ∧
    BlobStore.identities (s.blobs.routeComponents route) =
      pieces.map (fun piece => (env.digest piece, piece.length)) ∧
    digest = env.digest pieces.flatten ∧ size = pieces.flatten.length

theorem Backed.keeps (h : Backed env s route digest size) (hkeeps : s.blobs.KeepsComponents t.blobs) :
    Backed env t route digest size := by
  obtain ⟨pieces, hpieces, hfilled, hcomponents, hcontent⟩ := h
  refine ⟨pieces, hpieces, hfilled, ?_, hcontent⟩
  rw [hkeeps route, hcomponents]
  intro hnone
  rw [hnone] at hcomponents
  exact hfilled (List.map_eq_nil_iff.mp hcomponents.symm)

/-- What the rows and the uploads of NARs say about their routes, and that those of the start keep their
components. -/
structure Routes (env : NarEnv) (start s : NarStaging) : Prop where
  keeps : start.blobs.KeepsComponents s.blobs
  rows : ∀ row ∈ s.area.repository.stagedBlobs.rows, isNarRoute row.route = true →
    Backed env s row.route row.digest row.size
  uploads : ∀ u ∈ s.nars.rows, isNarUploadRoute u.route = true ∧
    (u.phase = .stored → Backed env s u.route (env.digest u.received) u.received.length)
  hashes : ∀ u ∈ s.area.uploads.rows, isStorePathHash u.hash = true

theorem Routes.of_keeps (h : Routes env start s) (hkeeps : s.blobs.KeepsComponents t.blobs)
    (hrows : ∀ row ∈ t.area.repository.stagedBlobs.rows, isNarRoute row.route = true →
      row ∈ s.area.repository.stagedBlobs.rows ∨ Backed env t row.route row.digest row.size)
    (huploads : ∀ u ∈ t.nars.rows, (∃ w ∈ s.nars.rows, w = u) ∨ isNarUploadRoute u.route = true ∧
      (u.phase = .stored → Backed env t u.route (env.digest u.received) u.received.length))
    (hhashes : ∀ u ∈ t.area.uploads.rows, isStorePathHash u.hash = true) : Routes env start t := by
  refine ⟨h.keeps.trans hkeeps, fun row hrow hroute => ?_, fun u hu => ?_, hhashes⟩
  · rcases hrows row hrow hroute with hold | hnew
    · exact (h.rows row hold hroute).keeps hkeeps
    · exact hnew
  · rcases huploads u hu with ⟨w, hw, rfl⟩ | hnew
    · exact ⟨(h.uploads w hw).1, fun hstored => ((h.uploads w hw).2 hstored).keeps hkeeps⟩
    · exact hnew

theorem Routes.setBlobs (h : Routes env start s) {blobs : BlobStore String Bytes}
    (hkeeps : s.blobs.KeepsComponents blobs) : Routes env start (s.setBlobs blobs) :=
  h.of_keeps hkeeps (fun _ hrow _ => Or.inl hrow) (fun u hu => Or.inl ⟨u, hu, rfl⟩) h.hashes

theorem Routes.answer (h : Routes env start s) (id status : ℕ) : Routes env start (s.answer id status) :=
  h.of_keeps (.refl _) (fun _ hrow _ => Or.inl hrow)
    (fun u hu => Or.inl ⟨u, (Table.mem_filter.mp hu).1, rfl⟩) h.hashes

theorem Routes.setUpload (h : Routes env start s) (hroute : isNarUploadRoute u.route = true)
    (hstored : u.phase = .stored → Backed env s u.route (env.digest u.received) u.received.length) :
    Routes env start (s.setUpload u) := by
  refine h.of_keeps (.refl _) (fun _ hrow _ => Or.inl hrow) (fun v hv => ?_) h.hashes
  rcases mem_setUpload hv with rfl | hold
  · exact Or.inr ⟨hroute, hstored⟩
  · exact Or.inl ⟨v, hold, rfl⟩

theorem final_keeps {α : Type} {m : BlobStore.StoreProgram String Bytes α}
    (h : Advances BlobStore.KeepsComponents m) (s : BlobStore String Bytes) :
    s.KeepsComponents ((m.run s).final s) :=
  BlobStore.keepsComponents_of_moves (h s).final

theorem releaseOwner_keeps (fails : String → Option String) (now : ℕ) (owner : Owner) :
    Advances BlobStore.KeepsComponents
      (BlobStore.releaseOwner fails now owner : BlobStore.StoreProgram String Bytes Unit) :=
  BlobStore.advances_of_table fun _ => BlobStore.releaseOwner_table fails now owner

theorem Routes.reject (h : Routes env start s) (status : ℕ) : Routes env start (s.reject l u status) := by
  unfold NarStaging.reject
  exact (h.setBlobs (final_keeps (releaseOwner_keeps l.fails l.now _) _)).answer _ _

theorem Routes.flush (h : Routes env start s) (hroute : isNarUploadRoute u.route = true) (rest : Option Bytes) :
    Routes env start (s.flush l u rest) := by
  unfold NarStaging.flush
  have hkeeps : s.blobs.KeepsComponents
      (((BlobStore.reserve l.fails l.token u.buffered.length l.now).run s.blobs).final s.blobs) :=
    final_keeps (BlobStore.advances_of_table fun _ =>
      BlobStore.reserve_table l.fails l.now l.token u.buffered.length) _
  dsimp only
  split
  · exact (h.setBlobs hkeeps).setUpload hroute fun hstored => by cases hstored
  · exact (h.setBlobs hkeeps).reject _

theorem Routes.consume (h : Routes env start s) (hroute : isNarUploadRoute u.route = true) (value : Bytes) :
    Routes env start (s.consume env l u value) := by
  unfold NarStaging.consume
  split_ifs
  · exact h.setUpload hroute fun hstored => by cases hstored
  dsimp only
  split_ifs
  · exact h.reject _
  · refine h.flush ?_ _
    exact hroute
  · exact h.setUpload hroute fun hstored => by cases hstored

theorem Routes.promoted (h : Routes env start s) (hroute : isNarUploadRoute u.route = true) (token : String)
    (rest : Option Bytes) : Routes env start (s.promoted env l u token rest) := by
  unfold NarStaging.promoted
  have hpromoted := final_keeps (BlobStore.advances_of_table fun _ => BlobStore.promote_table l.now
    env.digest List.length u.buffered .write (some (.upload u.owner)) token) s.blobs
  have hkeeps := hpromoted.trans (u := (((BlobStore.promote env.digest List.length u.buffered .write
    (some (.upload u.owner)) token l.now).run s.blobs).final s.blobs).dropReservation token) fun _ _ => rfl
  dsimp only
  split
  · exact (h.setBlobs hkeeps).setUpload hroute fun hstored => by cases hstored
  · exact (h.setBlobs hkeeps).reject _
  · exact (h.setBlobs hkeeps).reject _

theorem piecesOf_sorted (digest : Bytes → String) (pieces : List Bytes) :
    (piecesOf digest pieces).Pairwise fun a b => a.index ≤ b.index := by
  rw [List.pairwise_iff_getElem]
  intro i j hi hj hlt
  simp only [piecesOf, List.getElem_mapIdx]
  omega

theorem identities_piecesOf (digest : Bytes → String) (pieces : List Bytes) :
    BlobStore.identities (piecesOf digest pieces) = pieces.map fun piece => (digest piece, piece.length) := by
  refine List.ext_getElem (by simp [BlobStore.identities, piecesOf]) fun i _ _ => ?_
  simp [BlobStore.identities, piecesOf]

theorem Routes.settle (h : Routes env start s) (hroute : isNarUploadRoute u.route = true)
    (hcut : Cut env { u with phase := .stored }) : Routes env start (s.settle env l u) := by
  obtain ⟨pieces, hreceived, hcomponents, hbuffered, hpieces⟩ := hcut
  unfold NarStaging.settle
  split
  · next existing hfound =>
    have hreleased := final_keeps (releaseOwner_keeps l.fails l.now (.upload u.owner)) s.blobs
    split
    · next hsame =>
      dsimp only
      split
      · refine (h.setBlobs hreleased).setUpload hroute fun _ => ?_
        obtain ⟨hrow, hkey⟩ := Table.find?_eq_some.mp hfound
        have hbacked := h.rows existing hrow (hkey ▸ isNarRoute_of_upload hroute)
        rw [hkey, hsame.1, hsame.2] at hbacked
        exact hbacked.keeps hreleased
      · exact (h.setBlobs hreleased).reject _
    · exact h.reject _
  · have hkeeps := final_keeps
      (BlobStore.commitRoute_keeps l.fails l.now u.route u.received.length u.components (.upload u.owner)) s.blobs
    dsimp only
    split
    · exact (h.setBlobs hkeeps).reject _
    · next hcommitted =>
      split
      · exact (h.setBlobs hkeeps).reject _
      · next first rest hfirst =>
        split
        · exact (h.setBlobs hkeeps).reject _
        · next stagedBlobs hinsert =>
          -- The components of the route are those of the upload now.
          have hsorted : u.components.Pairwise fun a b => a.index ≤ b.index := by
            rw [show u.components = _ from hcomponents]
            exact piecesOf_sorted _ _
          have hidentities := BlobStore.commitRoute_identities l.fails l.now hsorted hcommitted
          have hcontent : u.received = pieces.flatten := by
            rw [show u.received = _ from hreceived, show u.buffered = [] from hbuffered, List.append_nil]
          have hfilled : pieces ≠ [] := by
            rintro rfl
            rw [show u.components = _ from hcomponents] at hfirst
            cases hfirst
          have hbacked : Backed env (s.setBlobs (((BlobStore.commitRoute l.fails l.now u.route u.received.length
              u.components (.upload u.owner)).run s.blobs).final s.blobs)) u.route (env.digest u.received)
              u.received.length := by
            refine ⟨pieces, hpieces, hfilled, ?_, by rw [hcontent], by rw [hcontent]⟩
            rw [← identities_piecesOf, ← show u.components = _ from hcomponents]
            exact hidentities
          refine Routes.setUpload (h.of_keeps hkeeps (fun row hrow hrowRoute => ?_)
            (fun v hv => Or.inl ⟨v, hv, rfl⟩) h.hashes) hroute fun _ => hbacked
          change row ∈ stagedBlobs.rows at hrow
          rw [(Table.insert?_eq_some.mp hinsert).2, List.mem_append, List.mem_singleton] at hrow
          rcases hrow with hold | rfl
          · exact Or.inl hold
          · exact Or.inr hbacked

theorem Routes.advance (h : Routes env start s) (hroute : isNarUploadRoute u.route = true) (hcut : Cut env u) :
    Routes env start (s.advance env l u) := by
  unfold NarStaging.advance
  split
  · exact h.consume hroute _
  · split_ifs
    · exact h.setUpload hroute fun hstored => by cases hstored
    · exact h.flush hroute _
  · exact h.promoted hroute _ _
  · exact h.consume hroute _
  · next hphase =>
    obtain ⟨pieces, hreceived, hcomponents, hat⟩ := hcut
    rw [hphase] at hat
    exact h.settle hroute ⟨pieces, hreceived, hcomponents, hat.1, hat.2⟩
  · exact h.reject _
  · next token _ _ _ =>
    have hkeeps : s.blobs.KeepsComponents (s.blobs.dropReservation token) := fun _ _ => rfl
    exact (h.setBlobs hkeeps).reject _
  · exact h.answer _ _
  · exact h

theorem Routes.follow (h : Routes env start s) (hfollows : s.area.Follows t.area)
    (hnars : ∀ u ∈ t.nars.rows, u ∈ s.nars.rows) : Routes env start t := by
  obtain ⟨hkeeps, hrows, huploads, -⟩ := hfollows
  refine h.of_keeps hkeeps (fun row hrow hroute => ?_) (fun u hu => Or.inl ⟨u, hnars u hu, rfl⟩) fun u hu => ?_
  · rcases hrows row hrow with hold | ⟨u, hu, hsame⟩
    · exact Or.inl hold
    · rw [hsame, NarInfoUpload.route, isNarRoute_narInfoRoute (h.hashes u hu)] at hroute
      cases hroute
  · rcases huploads u hu with hvalid | ⟨w, hw, hsame⟩
    · exact hvalid
    · exact hsame ▸ h.hashes w hw

theorem Routes.stage (h : Routes env start s) (e : StagingArea.Event) : Routes env start (s.stage env e) := by
  have hfollows : ∀ e, (∀ row, e ≠ .nar row) → s.area.Follows (s.area.step env.toStagingEnv e) :=
    fun e hnar => StagingArea.step_follows s.area hnar
  unfold NarStaging.stage
  split
  · exact h
  · next id hash body =>
    split_ifs
    · exact h.follow (hfollows (.put id hash body) (by simp)) fun _ hu => hu
    · exact h
  · next b =>
    dsimp only
    split_ifs
    · exact h.follow (hfollows (.background b) (by simp)) fun _ hu => by simp at hu
    · exact h.follow (hfollows (.background b) (by simp)) fun _ hu => hu
  · next hnar _ _ => exact h.follow (hfollows _ hnar) fun _ hu => hu

theorem Routes.step (h : Routes env start s) (hcuts : Cuts env s) (l : NarLabel) : Routes env start (s.step env l) := by
  unfold NarStaging.step
  split
  · exact h.stage _
  · unfold reserveBody
    split_ifs
    · exact h
    · exact h.follow (StagingArea.follows_of_rows rfl (List.Subset.refl _) (List.Subset.refl _) (StagingArea.refl_hashes s.area))
        fun _ hu => hu
    · exact h.follow (StagingArea.follows_refl s.area) fun _ hu => hu
  · split_ifs
    · exact h.follow (StagingArea.follows_of_rows rfl (List.Subset.refl _) (List.Subset.refl _) (StagingArea.refl_hashes s.area))
        fun _ hu => hu
    · exact h
  · next id route owner =>
    unfold NarStaging.put
    split_ifs with hroute
    · exact h.answer _ _
    · exact h
    · split
      · exact h
      · next nars hinsert =>
        refine h.of_keeps (.refl _) (fun _ hrow _ => Or.inl hrow) (fun u hu => ?_) h.hashes
        change u ∈ nars.rows at hu
        rw [(Table.insert?_eq_some.mp hinsert).2, List.mem_append, List.mem_singleton] at hu
        rcases hu with hold | rfl
        · exact Or.inl ⟨u, hold, rfl⟩
        · refine Or.inr ⟨?_, fun hstored => by cases hstored⟩
          simpa using hroute
  · next route removes _ =>
    have hdiscard := StagingArea.discard_follows (s := s.area) route removes
    unfold discardRoute
    split
    · exact h
    · dsimp only
      split_ifs
      · exact h.follow hdiscard fun _ hu => hu
      · exact (h.follow (t := { s with area := s.area.discard route removes }) hdiscard fun _ hu => hu).setBlobs
          fun _ _ => rfl
  · split
    · exact h
    · next u hfound =>
      obtain ⟨id, -, hfind⟩ := Option.bind_eq_some_iff.mp hfound
      have hu := (Table.find?_eq_some.mp hfind).1
      exact h.advance (h.uploads u hu).1 (hcuts u hu)

section Results

variable {capacity : ℕ} {labels later : List NarLabel}

theorem initial_routes (env : NarEnv) (capacity : ℕ) : Routes env (initial capacity) (initial capacity) := by
  refine ⟨.refl _, ?_, ?_, ?_⟩
  all_goals
    intro x hx
    simp [initial, StagingArea.initial, WriteRepository.initial] at hx

theorem run_routes (h : Routes env start s) (hcuts : Cuts env s) (labels : List NarLabel) :
    Routes env start (run (step env) s labels) ∧ Cuts env (run (step env) s labels) :=
  run_preserves (I := fun s => Routes env start s ∧ Cuts env s)
    (fun _ l hs => ⟨hs.1.step hs.2 l, hs.2.step l⟩) labels ⟨h, hcuts⟩

theorem stored_backed (hu : u ∈ (run (step env) (initial capacity) labels).nars.rows) (hended : u.phase = .stored)
    (later : List NarLabel) : Backed env (run (step env) (initial capacity) (labels ++ later)) u.route
      (env.digest u.received) u.received.length := by
  obtain ⟨hroutes, hcuts⟩ := run_routes (initial_routes env capacity) (by simp [Cuts, initial]) labels
  have hstart : Routes env (run (step env) (initial capacity) labels) (run (step env) (initial capacity) labels) :=
    ⟨.refl _, hroutes.rows, hroutes.uploads, hroutes.hashes⟩
  rw [run_append]
  exact ((hroutes.uploads u hu).2 hended).keeps (run_routes hstart hcuts later).1.keeps

/-- When the upload of a NAR has been stored, the pieces of its body are the components of its route, whoever has
committed them, and they are from then on: after any further uploads, publications, evictions, discards, stops
and new openings of the store. -/
theorem route_components_last (hu : u ∈ (run (step env) (initial capacity) labels).nars.rows)
    (hended : u.phase = .stored) (hunique : ∀ bytes, env.digest bytes = env.digest u.received → bytes = u.received)
    (later : List NarLabel) : ∃ pieces, Chunked fileChunkBytes pieces ∧ pieces.flatten = u.received ∧
      BlobStore.identities ((run (step env) (initial capacity) (labels ++ later)).blobs.routeComponents u.route) =
        pieces.map fun piece => (env.digest piece, piece.length) := by
  obtain ⟨pieces, hpieces, -, hcomponents, hdigest, -⟩ := stored_backed hu hended later
  exact ⟨pieces, hpieces, hunique _ hdigest.symm, hcomponents⟩

def sampleEnv : NarEnv where
  toStagingEnv := StagingArea.sampleEnv
  storeRoot := ""

def sampleStored : NarUpload :=
  ⟨1, "nar/n", "o", [], [1, 2], [⟨0, StagingArea.sampleDigest [1, 2], 2⟩], .stored⟩

def sampleLabels : List NarLabel :=
  [.put 1 "nar/n" "o", .chunk 1 [1], .chunk 1 [2], .done 1, .promote 1, .resume 1].map fun event =>
    ⟨event, 0, "t", fun _ => none⟩

/-- The row of the route is discarded, and the process starts anew. -/
def sampleLater : List NarLabel :=
  [.discard "nar/n" true, .staging (.background ⟨.reopen fun _ => none, 1, fun _ => none, none⟩)].map fun event =>
    ⟨event, 1, "t", fun _ => none⟩

theorem route_components_last_sample : ∃ pieces : List Bytes, pieces.flatten = [1, 2] ∧
    BlobStore.identities ((run (step sampleEnv) (initial 100) (sampleLabels ++ sampleLater)).blobs.routeComponents
      "nar/n") = pieces.map fun piece => (StagingArea.sampleDigest piece, piece.length) := by
  have hu : sampleStored ∈ (run (step sampleEnv) (initial 100) sampleLabels).nars.rows := by decide +kernel
  obtain ⟨pieces, -, hflatten, hcomponents⟩ := route_components_last hu rfl
    (fun _ hsame => StagingArea.sampleDigest_injective hsame) sampleLater
  exact ⟨pieces, hflatten, hcomponents⟩

end Results

end NarStaging

end NixstrCache.Nix
