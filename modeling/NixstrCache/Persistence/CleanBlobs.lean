import NixstrCache.Persistence.BlobReconcile

/-!
Stores that an opening leaves as they are.

While every removal succeeds, the operations of uploads keep each ready row together with its file
and leave no tombstone.  The reconcile pass of an opening then finds nothing to do.
-/

namespace NixstrCache.Persistence.BlobStore

open Durable KeyedTable

variable {Hash Content : Type} [LinearOrder Hash]

structure View.Clean (length : Content → ℕ) (v : View Hash Content) : Prop where
  sound : v.Sound length
  ready : ∀ r, v.row = some r → r.state = .ready
  paired : v.row.isSome = v.file.isSome
  tombstone : v.tombstone = none

def Clean (length : Content → ℕ) (s : BlobStore Hash Content) : Prop :=
  Each (fun _ => View.Clean length) s

abbrev EndsClean {α : Type} (length : Content → ℕ) (P : BlobStore Hash Content → Prop)
    (m : StoreProgram Hash Content α) : Prop :=
  Triple P m (fun _ => True) fun _ => Clean length

section Operations

variable {length : Content → ℕ} {s t : BlobStore Hash Content} {now : ℕ}

def succeeding : Hash → Option String :=
  fun _ => none

theorem Clean.sound (h : s.Clean length) : s.SoundUnder length fun _ _ _ => True :=
  fun x => ⟨(h x).sound, trivial⟩

theorem Clean.of_sound (h : s.Clean length) (ht : t.SoundUnder length fun _ _ _ => True)
    (hrow : ∀ x, (t.view x).row = (s.view x).row) (hfile : ∀ x, (t.view x).file = (s.view x).file)
    (htombstone : ∀ x, (t.view x).tombstone = (s.view x).tombstone) : t.Clean length := by
  intro x
  refine ⟨(ht x).1, ?_, ?_, ?_⟩
  · rw [hrow]
    exact (h x).ready
  · rw [hrow, hfile]
    exact (h x).paired
  · rw [htombstone]
    exact (h x).tombstone

theorem clean_empty (length : Content → ℕ) (capacity : ℕ) :
    (empty capacity : BlobStore Hash Content).Clean length :=
  fun x => ⟨sound_empty length capacity x, fun r hr => by simp [view, row?, empty] at hr, rfl, rfl⟩

theorem Clean.dropLeases (h : s.Clean length) : s.dropLeases.Clean length :=
  h.of_sound (dropLeases_sound h.sound) (fun _ => rfl) (fun _ => rfl) fun _ => rfl

theorem Clean.removeOwnerAll (h : s.Clean length) {o : Owner} (ho : o.isRoute = false) :
    (s.removeOwnerAll o).Clean length :=
  h.of_sound (removeOwnerAll_sound h.sound ho fun _ _ _ _ => trivial) (fun _ => rfl) (fun _ => rfl)
    fun _ => rfl

theorem Clean.free (h : s.Clean length) {x : Hash} (howned : s.owned x = false) :
    ¬(s.view x).components.Nonempty := by
  rintro ⟨c, hc⟩
  have howners : (s.view x).owners.Nonempty := ⟨_, (h x).sound.routed c hc⟩
  rw [← owned_iff, howned] at howners
  cases howners

omit [LinearOrder Hash] in
variable (now) in
theorem deleteView_clean {v : View Hash Content} (h : v.Clean length) {x : Hash}
    (hfree : ¬v.components.Nonempty) (hleases : v.leases = 0) :
    ∃ w, deleteView now succeeding x v = some w ∧ w.Clean length ∧ w.owners = ∅ := by
  have hfree' : ¬v.deleting.components.Nonempty := hfree
  have hclean : ∀ w : View Hash Content, w.row = none → w.file = none → w.owners = ∅ →
      w.leases = 0 → w.components = v.components → w.tombstone = none → w.Clean length := by
    intro w hrow hfile howners hlease hcomponents htombstone
    have hdead : ¬w.Live := by
      rintro (ho | hl | hc)
      · simp [howners] at ho
      · omega
      · exact hfree (hcomponents ▸ hc)
    refine ⟨⟨fun hlive => absurd hlive hdead, ?_, ?_⟩, ?_, ?_, htombstone⟩
    · intro r f hr
      simp [hrow] at hr
    · intro c hc
      exact absurd ⟨c, hcomponents ▸ hc⟩ hfree
    · intro r hr
      simp [hrow] at hr
    · rw [hrow, hfile]
      rfl
  unfold deleteView
  cases hfile : v.file with
  | none =>
    have hnone : v.deleting.file = none := hfile
    refine ⟨v.deleting.withoutRow, ?_, ?_, rfl⟩
    · simp only [removeView, hnone, if_neg hfree']
    · exact hclean _ rfl hfile rfl hleases rfl h.tombstone
  | some f =>
    have hsome : v.deleting.file.isSome = true := by
      rw [show v.deleting.file = v.file from rfl, hfile]
      rfl
    rw [removeView_removed succeeding now hsome rfl hfree']
    exact ⟨_, rfl, hclean _ rfl rfl rfl hleases rfl rfl, rfl⟩

variable (now) in
theorem delete_clean (hs : s.Clean length) {h : Hash} (howned : s.owned h = false)
    (hleased : s.leased h = false) :
    let m : StoreProgram Hash Content Unit := delete succeeding now h
    (m.run s).result = .ok () ∧ ((m.run s).final s).Clean length ∧
      ∀ x, s.owned x = false → ((m.run s).final s).owned x = false := by
  have hleases : s.leases h = 0 := by
    simpa [leased] using hleased
  obtain ⟨w, hw, hclean, howners⟩ := deleteView_clean now (hs h) (hs.free howned) hleases
  obtain ⟨hok, hviews⟩ := (delete_acts succeeding now h s).2 w hw
  refine ⟨hok, ?_, ?_⟩
  · exact each_update hs hclean hviews
  · intro x hx
    by_contra hne
    rw [Bool.not_eq_false, owned_iff, hviews] at hne
    split_ifs at hne with hxh
    · simp [howners] at hne
    · rw [← owned_iff, hx] at hne
      cases hne

theorem deleteIfUnownedWrite_clean (h : Hash) :
    EndsClean length (Clean length)
      (deleteIfUnownedWrite succeeding now h : StoreProgram Hash Content Unit) := by
  refine fun s hs => ⟨fun _ _ => trivial, fun a ha => ?_⟩
  unfold deleteIfUnownedWrite at ha ⊢
  rw [Program.bind_read_run] at ha ⊢
  split_ifs at ha ⊢ with hleased howned
  · exact hs
  · exact hs
  · split
    · split
      · exact (delete_clean now hs (Bool.not_eq_true _ ▸ howned) (Bool.not_eq_true _ ▸ hleased)).2.1
      · exact hs
    · exact hs

theorem releaseOwner_clean {o : Owner} (ho : o.isRoute = false) :
    EndsClean length (Clean length)
      (releaseOwner succeeding now o : StoreProgram Hash Content Unit) := by
  unfold releaseOwner
  refine Triple.bind (R := fun _ => Clean length) (Triple.read fun s hs => hs) fun s => ?_
  refine Triple.bind (R := fun _ => Clean length)
    (Triple.commit (fun _ _ => trivial) fun t ht => ht.removeOwnerAll ho) fun _ => ?_
  exact Triple.forEach (J := fun _ => Clean length) (fun h _ => deleteIfUnownedWrite_clean h) _

/-- The loop of `#makeSpace` over blobs without owners. -/
theorem evict_clean (required : ℕ) (hashes : List Hash) :
    EndsClean length (fun s => s.Clean length ∧ ∀ h ∈ hashes, s.owned h = false)
      (evict succeeding now required hashes : StoreProgram Hash Content Unit) := by
  induction hashes with
  | nil => exact Triple.pure _ fun s hs => hs.1
  | cons h rest ih =>
    rintro s ⟨hs, hunowned⟩
    obtain ⟨hh, hrest⟩ := List.forall_mem_cons.mp hunowned
    refine ⟨fun _ _ => trivial, ?_⟩
    unfold evict
    rw [Program.bind_read_run]
    split_ifs with hleased
    · exact (ih s ⟨hs, hrest⟩).2
    · obtain ⟨hok, hclean, howned⟩ := delete_clean now hs hh (Bool.not_eq_true _ ▸ hleased)
      intro a ha
      rw [Program.bind_final hok]
      rw [Program.bind_run_ok hok] at ha
      rw [Program.bind_read_run] at ha ⊢
      split_ifs at ha ⊢ with hfits
      · exact hclean
      · exact (ih _ ⟨hclean, fun x hx => howned x (hrest x hx)⟩).2 a ha

theorem reserve_clean (token : String) (bytes : ℕ) :
    EndsClean length (Clean length)
      (reserve succeeding token bytes now : StoreProgram Hash Content Unit) := by
  refine Triple.bind (R := fun _ => Clean length) (Triple.read fun s hs => hs) fun s => ?_
  split_ifs
  · exact Triple.throw _
  refine Triple.atomically fun t ht => ⟨fun _ _ => trivial, fun a ha => ⟨trivial, ?_⟩⟩
  have hinner : EndsClean length (Clean length)
      (makeSpace succeeding now bytes >>= fun _ => insertReservation token bytes now :
        StoreProgram Hash Content Unit) := by
    refine Triple.bind (R := fun _ => Clean length) ?_ fun _ => ?_
    · refine Triple.bind (R := fun a u => Clean length u ∧ a = u) (Triple.read fun u hu => ⟨hu, rfl⟩)
        fun u => ?_
      split_ifs
      · exact Triple.pure _ fun v hv => hv.1
      · refine (evict_clean bytes u.evictable).mono ?_ (fun _ _ => trivial) fun _ _ hv => hv
        rintro v ⟨hv, rfl⟩
        exact ⟨hv, fun h hh => u.evictable_unowned hh⟩
    · refine Triple.transaction fun u b v hu hv => ⟨trivial, ?_⟩
      split_ifs at hv
      split at hv
      · cases hv
      · cases hv
        exact hu
  exact (hinner t ht).2 a ha

theorem releaseReservation_clean (token : String) :
    EndsClean length (Clean length)
      (releaseReservation token : StoreProgram Hash Content Unit) :=
  Triple.commit (fun _ _ => trivial) fun _ hs => hs

theorem recordReady_size {size : ℕ} {origin : BlobOrigin} {h : Hash} {r : CatalogRow Hash}
    (hr : s.row? h = some r) (ht : s.recordReady h size origin now = .ok t) : r.size = size := by
  by_contra hsize
  simp [recordReady, hr, hsize] at ht

theorem linkFile_length (hs : s.Clean length) {h : Hash} {content : Content} {origin : BlobOrigin}
    (ht : (s.linkFile h content).recordReady h (length content) origin now = .ok t) :
    ∃ f, ((s.linkFile h content).view h).file = some f ∧ length f.content = length content := by
  rw [view_linkFile, if_pos rfl]
  cases hfile : (s.view h).file with
  | none => exact ⟨_, rfl, rfl⟩
  | some f =>
    have hrow : (s.view h).row.isSome = true := by
      rw [(hs h).paired, hfile]
      rfl
    obtain ⟨r, hr⟩ := Option.isSome_iff_exists.mp hrow
    refine ⟨f, rfl, ((hs h).sound.size r f hr hfile).trans ?_⟩
    exact recordReady_size (s := s.linkFile h content) hr ht

theorem promote_clean (digest : Content → Hash) (content : Content) (origin : BlobOrigin)
    (owner : Option Owner) (token : String) :
    EndsClean length (Clean length) (promote digest length content origin owner token now) := by
  refine Triple.bind (R := fun _ u => ∃ s, s.Clean length ∧ u = s.linkFile (digest content) content)
    (Triple.commit (fun _ _ => trivial) fun s hs => ⟨s, hs, rfl⟩) fun _ => ?_
  refine Triple.bind (R := fun _ => Clean length)
    (Triple.transaction fun u a t hu ht => ⟨trivial, ?_⟩)
    fun _ => Triple.bind (R := fun _ => Clean length) (Triple.read fun _ hs => hs)
      fun _ => Triple.pure _ fun _ hs => hs
  obtain ⟨s, hs, rfl⟩ := hu
  split at ht
  · cases ht
  · rename_i v hv
    obtain ⟨f, hf, hlength⟩ := linkFile_length hs hv
    obtain ⟨r, hready, hsize, hview⟩ := recordReady_view now hv
    have hs' := (hs (digest content)).sound
    have hsame : ∀ x, x ≠ digest content →
        (s.linkFile (digest content) content).view x = s.view x := by
      intro x hx
      rw [view_linkFile, if_neg hx]
    have hlinked : ((s.linkFile (digest content) content).view (digest content)).tombstone = none := by
      rw [view_linkFile, if_pos rfl]
      exact (hs _).tombstone
    have hrouted : ∀ c ∈ ((s.linkFile (digest content) content).view (digest content)).components,
        Owner.route c.route ∈
          ((s.linkFile (digest content) content).view (digest content)).owners := by
      rw [view_linkFile, if_pos rfl]
      exact hs'.routed
    have hclean : ∀ owners : Set Owner,
        ((s.linkFile (digest content) content).view (digest content)).owners ⊆ owners →
        View.Clean length { (s.linkFile (digest content) content).view (digest content) with
          row := some r
          owners := owners } := by
      intro owners howners
      refine ⟨⟨fun _ => ⟨⟨r, rfl, hready⟩, by rw [hf]; rfl⟩, ?_, fun c hc => howners (hrouted c hc)⟩,
        ?_, ?_, hlinked⟩
      · intro q g hq hg
        cases hq
        obtain rfl : f = g := Option.some.inj (hf.symm.trans hg)
        exact hlength.trans hsize.symm
      · intro q hq
        cases hq
        exact hready
      · rw [hf]
        rfl
    have hothers : ∀ x, x ≠ digest content → View.Clean length (v.view x) := by
      intro x hx
      rw [hview, if_neg hx, hsame x hx]
      exact hs x
    cases ht
    intro x
    rw [view_dropReservation]
    cases owner with
    | none =>
      by_cases hx : x = digest content
      · subst hx
        simp only
        rw [hview, if_pos rfl]
        exact hclean _ subset_rfl
      · exact hothers x hx
    | some o =>
      simp only
      rw [view_addOwner]
      split_ifs with hx
      · rw [hview, if_pos rfl]
        exact hclean _ (Set.subset_insert _ _)
      · exact hothers x hx

theorem insertComponents_rest {route : String} {o : Owner} {components : List (RouteComponent Hash)}
    (ht : insertComponents route o components s = .ok t) :
    t.db.catalog = s.db.catalog ∧ t.files = s.files ∧ t.db.tombstones = s.db.tombstones := by
  induction components generalizing s with
  | nil =>
    cases ht
    exact ⟨rfl, rfl, rfl⟩
  | cons item rest ih =>
    unfold insertComponents at ht
    split_ifs at ht
    split at ht
    · cases ht
    · have hrest := ih ht
      exact hrest

theorem commitRoute_clean {o : Owner} (ho : o.isRoute = false) (route : String) (size : ℕ)
    (components : List (RouteComponent Hash)) :
    EndsClean length (Clean length)
      (commitRoute succeeding now route size components o : StoreProgram Hash Content Unit) := by
  refine Triple.bind (R := fun _ => Clean length) (Triple.read fun s hs => hs) fun s => ?_
  dsimp only
  split
  · split
    · exact Triple.throw _
    · exact releaseOwner_clean ho
  · refine Triple.transaction fun s a t hs ht => ⟨trivial, ?_⟩
    unfold insertRoute at ht
    split at ht
    · cases ht
    · rename_i u hu
      split at ht
      · cases ht
      · cases ht
        have hsound := insertComponents_sound hs.sound (fun _ _ _ _ _ => trivial) hu
        obtain ⟨hcatalog, hfiles, htombstones⟩ := insertComponents_rest hu
        refine (Clean.of_sound (t := u) hs hsound ?_ ?_ ?_).removeOwnerAll ho
        · intro x
          simp only [view, row?, hcatalog]
        · intro x
          simp only [view, file?, hfiles]
        · intro x
          simp only [view, htombstones]

end Operations

section Opening

variable {length : Content → ℕ} {s : BlobStore Hash Content}

theorem reconcileView_clean (digest : Content → Hash) (fails retries : Hash → Option String)
    (now : ℕ) {v : View Hash Content} (h : v.Clean length) :
    reconcileView digest length fails retries now v = some v := by
  have hlater : laterView digest length retries now v = some v := by
    unfold laterView slotted
    rw [h.tombstone]
    simp only [Option.bind_some]
    cases hfile : v.file with
    | none => rfl
    | some f =>
      have hrow : v.row.isSome = true := by
        rw [h.paired, hfile]
        rfl
      obtain ⟨r, hr⟩ := Option.isSome_iff_exists.mp hrow
      simp [fileView, hr, h.ready r hr]
  unfold reconcileView
  rw [slotted]
  cases hrow : v.row with
  | none => exact hlater
  | some r =>
    have hfile : v.file.isSome = true := by
      rw [← h.paired, hrow]
      rfl
    obtain ⟨f, hf⟩ := Option.isSome_iff_exists.mp hfile
    have hsize := h.sound.size r f hrow hf
    simp [rowView, hf, hsize, h.ready r hrow, hlater]

theorem reconcile_clean (digest : Content → Hash) (fails retries : Hash → Option String) (now : ℕ)
    (hs : s.Clean length) :
    ((reconcile digest length fails retries now).run s).result = .ok () ∧
      (((reconcile digest length fails retries now).run s).final s).Clean length := by
  have hsweep := reconcile_sweeps digest length fails retries now s
  have hok : ((reconcile digest length fails retries now).run s).result = .ok () := by
    rw [hsweep.ok]
    intro x
    rw [reconcileView_clean digest fails retries now (hs x)]
    rfl
  refine ⟨hok, fun x => ?_⟩
  have hcell := hsweep.cells hok x
  rw [reconcileView_clean digest fails retries now (hs x)] at hcell
  rw [← Option.some.inj hcell]
  exact hs x

end Opening

end NixstrCache.Persistence.BlobStore
