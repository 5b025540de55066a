import NixstrCache.Lib.Cells
import NixstrCache.Persistence.LiveBlobs

/-!
Totality of the reconcile pass.

The three passes of `reconcile` walk the rows, the tombstones and the files, and each of them treats
the blobs independently of one another.  So the pass as a whole succeeds exactly when the
composition of the three partial functions on views succeeds for every blob.  The composition is
computed case by case: `Repairable` is its domain, written as a condition on the row, the file, the
route references and the tombstone of a blob and on the removals that fail.
-/

namespace NixstrCache.Persistence.BlobStore

open Durable KeyedTable

variable {Hash Content : Type} [LinearOrder Hash]

section Passes

variable (digest : Content → Hash) (length : Content → ℕ) (fails retries : Hash → Option String)
  (now : ℕ)

open scoped Classical in
/-- What `#delete` does to the view of its blob after it has marked the row. -/
noncomputable def removeView (fails : Hash → Option String) (x : Hash) (v : View Hash Content) :
    Option (View Hash Content) :=
  match v.file with
  | none => if v.components.Nonempty then none else some v.withoutRow
  | some _ =>
    match fails x with
    | none =>
      if v.components.Nonempty then
        some { v.withoutFile with tombstone := some ⟨x, now, "Error: FOREIGN KEY constraint failed"⟩ }
      else some { v.withoutFile.withoutRow with tombstone := none }
    | some message => some { v with tombstone := some ⟨x, now, message⟩ }

/-- `#delete` on the view of its blob. -/
noncomputable def deleteView (fails : Hash → Option String) (x : Hash) (v : View Hash Content) :
    Option (View Hash Content) :=
  removeView now fails x v.deleting

open scoped Classical in
noncomputable def rowView (row : CatalogRow Hash) (v : View Hash Content) :
    Option (View Hash Content) :=
  match v.file with
  | none => if v.components.Nonempty then none else some v.withoutRow
  | some file =>
    if length file.content ≠ row.size then
      if v.components.Nonempty then none else some v.withoutFile.withoutRow
    else if row.state = .deleting then deleteView now fails row.hash v
    else some v

def fileView (file : BlobFile Hash Content) (v : View Hash Content) : Option (View Hash Content) :=
  if v.row.any (fun r => r.state = .ready) then some v
  else if digest file.content ≠ file.name then some v.withoutFile
  else
    match v.row with
    | none => some { v with row := some ⟨file.name, length file.content, .remote, now, .ready⟩ }
    | some _ => none

omit [LinearOrder Hash] in
theorem removeView_removed {v : View Hash Content} {x : Hash} (hf : v.file.isSome = true)
    (hx : fails x = none) (hc : ¬v.components.Nonempty) :
    removeView now fails x v = some { v.withoutFile.withoutRow with tombstone := none } := by
  obtain ⟨f, hf⟩ := Option.isSome_iff_exists.mp hf
  simp only [removeView, hf, hx, if_neg hc]

omit [LinearOrder Hash] in
theorem removeView_stuck {v : View Hash Content} {x : Hash} (hf : v.file.isSome = true)
    (hx : fails x = none) (hc : v.components.Nonempty) :
    removeView now fails x v =
      some { v.withoutFile with tombstone := some ⟨x, now, "Error: FOREIGN KEY constraint failed"⟩ } := by
  obtain ⟨f, hf⟩ := Option.isSome_iff_exists.mp hf
  simp only [removeView, hf, hx, if_pos hc]

omit [LinearOrder Hash] in
theorem removeView_failed {v : View Hash Content} {x : Hash} {f : BlobFile Hash Content}
    {message : String} (hf : v.file = some f) (hx : fails x = some message) :
    removeView now fails x v = some { v with tombstone := some ⟨x, now, message⟩ } := by
  simp only [removeView, hf, hx]

omit [LinearOrder Hash] in
theorem removeView_missing {v : View Hash Content} {x : Hash} (hf : v.file = none)
    (hc : v.components.Nonempty) : removeView now fails x v = none := by
  simp only [removeView, hf, if_pos hc]

theorem delete_acts (x : Hash) :
    ActsOn view (delete fails now x : StoreProgram Hash Content Unit) x
      (deleteView now fails x) := by
  intro s
  unfold delete
  refine ActsAt.commit_bind (e := removeView now fails x) (fun y => s.view_setState x y .deleting)
    (ActsAt.read_bind ?_) rfl
  generalize s.setState x .deleting = t
  split
  · rename_i hr
    obtain ⟨hfile, hfails⟩ := removal_removed t x hr
    split
    · rename_i href
      rw [referenced_iff] at href
      exact ActsAt.commit_bind (e := fun v => some { v with
          tombstone := some ⟨x, now, "Error: FOREIGN KEY constraint failed"⟩ }) (t.view_removeFile x)
        (ActsAt.commit (fun y => view_setTombstone _ x y now _) rfl)
        (removeView_stuck fails now hfile hfails href)
    · rename_i href
      rw [referenced_iff] at href
      refine ActsAt.commit_bind (e := fun v => some { v.withoutRow with tombstone := none })
        (t.view_removeFile x) (ActsAt.commit_bind (e := fun v => some { v with tombstone := none })
          (view_deleteRow _ x) (ActsAt.commit (view_clearTombstone _ x) rfl) rfl) ?_
      exact removeView_removed fails now hfile hfails href
  · rename_i hr
    have hfile := removal_notFound t x hr
    split
    · rename_i href
      rw [referenced_iff] at href
      exact ActsAt.throw (by simp only [removeView, hfile, if_pos href])
    · rename_i href
      rw [referenced_iff] at href
      exact ActsAt.commit (t.view_deleteRow x) (by simp only [removeView, hfile, if_neg href])
  · rename_i message hr
    obtain ⟨hfile, hfails⟩ := removal_failed t x hr
    obtain ⟨f, hf⟩ := Option.isSome_iff_exists.mp hfile
    exact ActsAt.commit (fun y => t.view_setTombstone x y now message)
      (by simp only [removeView, hf, hfails])

theorem quarantine_acts (x : Hash) {s : BlobStore Hash Content} {f : View Hash Content →
    Option (View Hash Content)}
    (hstuck : (s.view x).components.Nonempty → f (s.view x) = none)
    (hfree : ¬(s.view x).components.Nonempty →
      f (s.view x) = some (s.view x).withoutFile.withoutRow) :
    ActsAt view (quarantine x : StoreProgram Hash Content Unit) x f s := by
  unfold quarantine
  by_cases hc : (s.view x).components.Nonempty
  · refine ActsAt.commit_bind (e := fun _ => none) (s.view_removeFile x) (ActsAt.read_bind ?_)
      (hstuck hc)
    have href : (s.removeFile x).referenced x = true := s.referenced_iff x |>.mpr hc
    rw [if_pos href]
    exact ActsAt.throw rfl
  · refine ActsAt.commit_bind (e := fun v => some v.withoutRow) (s.view_removeFile x)
      (ActsAt.read_bind ?_) (hfree hc)
    have href : ¬(s.removeFile x).referenced x = true := fun h => hc (s.referenced_iff x |>.mp h)
    rw [if_neg href]
    refine ActsAt.commit (view_deleteRow _ x) ?_
    rfl

theorem reconcileRow_acts (row : CatalogRow Hash) :
    ActsOn view (reconcileRow length fails now row : StoreProgram Hash Content Unit) row.hash
      (rowView length fails now row) := by
  intro s
  unfold reconcileRow
  refine ActsAt.read_bind ?_
  split
  · rename_i hfile
    change (s.view row.hash).file = none at hfile
    split
    · rename_i href
      rw [referenced_iff] at href
      exact ActsAt.throw (by simp only [rowView, hfile, if_pos href])
    · rename_i href
      rw [referenced_iff] at href
      exact ActsAt.commit (s.view_deleteRow row.hash) (by simp only [rowView, hfile, if_neg href])
  · rename_i file hfile
    change (s.view row.hash).file = some file at hfile
    split
    · rename_i hsize
      refine quarantine_acts row.hash (fun hc => ?_) fun hc => ?_
      · simp only [rowView, hfile, if_pos hsize, if_pos hc]
      · simp only [rowView, hfile, if_pos hsize, if_neg hc]
    · rename_i hsize
      split
      · rename_i hstate
        have hview : rowView length fails now row (s.view row.hash) =
            deleteView now fails row.hash (s.view row.hash) := by
          simp only [rowView, hfile, if_neg hsize, if_pos hstate]
        have hacts := delete_acts fails now row.hash s
        unfold ActsAt at hacts ⊢
        rw [hview]
        exact hacts
      · rename_i hstate
        exact ActsAt.pure (by simp only [rowView, hfile, if_neg hsize, if_neg hstate])

theorem reconcileFile_acts (file : BlobFile Hash Content) :
    ActsOn view (reconcileFile digest length now file : StoreProgram Hash Content Unit) file.name
      (fileView digest length now file) := by
  intro s
  unfold reconcileFile
  have hhas : s.has file.name = (s.view file.name).row.any fun r => r.state = .ready := rfl
  refine ActsAt.read_bind ?_
  split
  · rename_i h
    exact ActsAt.pure (by simp only [fileView, hhas ▸ h, if_true])
  rename_i h
  split
  · rename_i hdigest
    exact ActsAt.commit (s.view_removeFile file.name)
      (by simp only [fileView, if_neg (hhas ▸ h), if_pos hdigest])
  · rename_i hdigest
    have hname : ¬digest file.content ≠ file.name := hdigest
    cases hinsert : s.db.catalog.insert? ⟨file.name, length file.content, .remote, now, .ready⟩ with
    | none =>
      obtain ⟨r, hr, hkey⟩ := Table.insert?_eq_none.mp hinsert
      have hrow : (s.view file.name).row = some r := Table.find?_eq_some.mpr ⟨hr, hkey⟩
      refine ActsAt.transaction_error (by rw [hinsert]) ?_
      rw [fileView, if_neg (hhas ▸ h), if_neg hname, hrow]
    | some catalog =>
      have hrow : (s.view file.name).row = none :=
        Table.find?_eq_none.mpr (Table.insert?_eq_some.mp hinsert).1
      refine ActsAt.transaction_ok (by rw [hinsert]) (fun x => ?_)
        (show fileView digest length now file (s.view file.name) = some { s.view file.name with
          row := some ⟨file.name, length file.content, .remote, now, .ready⟩ } from ?_)
      · have hview : view { s with db := { s.db with catalog := catalog } } x =
            { s.view x with row := catalog.find? x } := rfl
        rw [hview, Table.find?_insert? hinsert]
        split_ifs with hx hx' hx'
        · subst hx
          rfl
        · exact absurd hx.symm hx'
        · exact absurd hx'.symm hx
        · rfl
      · rw [fileView, if_neg (hhas ▸ h), if_neg hname, hrow]

noncomputable def laterView (v : View Hash Content) : Option (View Hash Content) :=
  (slotted View.tombstone (fun t => deleteView now retries t.hash) v).bind
    (slotted View.file (fileView digest length now))

/-- The three passes of `reconcile` on one view. -/
noncomputable def reconcileView (v : View Hash Content) : Option (View Hash Content) :=
  (slotted View.row (rowView length fails now) v).bind (laterView digest length retries now)

theorem reconcile_sweeps (s : BlobStore Hash Content) :
    Sweeps view (reconcile digest length fails retries now)
      (reconcileView digest length fails retries now) s := by
  have hslot : ∀ {ρ : Type} {key : ρ → Hash} (t : Table key) (x : Hash) (r : ρ),
      t.find? x = some r ↔ r ∈ t.rows ∧ key r = x := fun t x r => Table.find?_eq_some
  unfold reconcile reconcileView laterView
  refine Sweeps.commit_bind (fun _ => rfl) (Sweeps.read_bind (Sweeps.bind ?_ (Sweeps.read_bind
    (Sweeps.bind ?_ (Sweeps.read_bind ?_)))))
  · exact forEach_sweeps s.db.catalog.unique
      (fun row _ => reconcileRow_acts length fails now row) fun x r => hslot _ x r
  · generalize ((Program.forEach _ _).run _).final _ = t
    have hperm : (t.db.tombstones.rows.insertionSort fun a b => a.hash ≤ b.hash).Perm
        t.db.tombstones.rows := List.perm_insertionSort _ _
    refine forEach_sweeps ((hperm.map TombstoneRow.hash).nodup_iff.mpr t.db.tombstones.unique)
      (fun row _ => delete_acts retries now row.hash) fun x r => ?_
    rw [hperm.mem_iff]
    exact hslot _ x r
  · generalize ((Program.forEach _ _).run _).final _ = u
    exact forEach_sweeps u.files.unique
      (fun file _ => reconcileFile_acts digest length now file) fun x f => hslot _ x f

/-- The blob can be repaired.  A blob that a route refers to must have its file, and a row on its
way out must not lose the file without the row: not through a route reference that keeps the row,
and not through removals that keep failing while the last pass still finds the file. -/
def Repairable (s : BlobStore Hash Content) (x : Hash) : Prop :=
  match s.row? x, s.file? x with
  | none, _ => True
  | some _, none => s.referenced x = false
  | some r, some f =>
    if length f.content ≠ r.size then s.referenced x = false
    else
      match r.state with
      | .deleting => (s.referenced x = true → (fails x).isSome = true) ∧
          (digest f.content = x → fails x = none ∨ retries x = none)
      | .ready => s.db.tombstones.has x = true → digest f.content = x → retries x = none

instance (s : BlobStore Hash Content) (x : Hash) :
    Decidable (Repairable digest length fails retries s x) := by
  unfold Repairable
  split
  · infer_instance
  · infer_instance
  · split
    · infer_instance
    · split <;> infer_instance

/-- Every ready row has a file of exactly its size, and every file whose content has the digest it
is named by has exactly one row. -/
def Restored (s : BlobStore Hash Content) : Prop :=
  (∀ r ∈ s.db.catalog.rows, r.state = .ready →
    ∃ f, s.file? r.hash = some f ∧ length f.content = r.size) ∧
  ∀ f ∈ s.files.rows, digest f.content = f.name → ∃! r, r ∈ s.db.catalog.rows ∧ r.hash = f.name

/-- Route components refer to rows of the catalog, as their foreign key demands. -/
def ComponentsInCatalog (s : BlobStore Hash Content) : Prop :=
  ∀ c ∈ s.db.components.rows, s.db.catalog.has c.hash = true

def View.Backed (v : View Hash Content) : Prop :=
  ∀ r, v.row = some r → r.state = .ready → ∃ f, v.file = some f ∧ length f.content = r.size

/-- What `Restored` says about one view. -/
def View.Restored (v : View Hash Content) : Prop :=
  v.Backed length ∧ ∀ f, v.file = some f → digest f.content = f.name → v.row.isSome = true

theorem restored_of_views {s : BlobStore Hash Content}
    (h : ∀ x, View.Restored digest length (s.view x)) : Restored digest length s := by
  refine ⟨fun r hr hready => (h r.hash).1 r (Table.find?_key hr) hready, fun f hf hdigest => ?_⟩
  obtain ⟨r, hr⟩ := Option.isSome_iff_exists.mp ((h f.name).2 f (Table.find?_key hf) hdigest)
  obtain ⟨hmem, hkey⟩ := Table.find?_eq_some.mp (show s.db.catalog.find? f.name = some r from hr)
  refine ⟨r, ⟨hmem, hkey⟩, ?_⟩
  rintro q ⟨hq, hqkey⟩
  exact Table.eq_of_key hq hmem (hqkey.trans hkey.symm)

section OneView

variable {digest length fails retries now} {s : BlobStore Hash Content} {x : Hash}

theorem fileView_restored {f : BlobFile Hash Content} {v w : View Hash Content}
    (hfile : v.file = some f)
    (hsize : ∀ r, v.row = some r → r.state = .ready → length f.content = r.size)
    (hw : fileView digest length now f v = some w) : View.Restored digest length w := by
  unfold fileView at hw
  split at hw
  · rename_i hready
    cases hw
    obtain ⟨r, hr, hstate⟩ := (Option.any_eq_true _ _).mp hready
    refine ⟨fun q hq hqstate => ⟨f, hfile, hsize q hq hqstate⟩, fun g _ _ => by rw [hr]; rfl⟩
  · rename_i hunready
    split at hw
    · cases hw
      refine ⟨fun q hq hqstate => ?_, fun g hg => by simp [View.withoutFile] at hg⟩
      change v.row = some q at hq
      simp [hq, hqstate] at hunready
    · split at hw
      · cases hw
        refine ⟨fun q hq _ => ⟨f, hfile, ?_⟩, fun g _ _ => rfl⟩
        cases hq
        rfl
      · cases hw

theorem slotted_file_rowless {v : View Hash Content} (hrow : v.row = none) :
    (slotted View.file (fileView digest length now) v).isSome = true := by
  unfold slotted
  split
  · rfl
  · simp only [fileView, hrow, Option.any_none, Bool.false_eq_true, if_false]
    split <;> rfl

theorem laterView_rowless {v : View Hash Content} (hrow : v.row = none)
    (hfree : ¬v.components.Nonempty) :
    (laterView digest length retries now v).isSome = true := by
  have hremove : ∀ (t : TombstoneRow Hash) (w : View Hash Content), w.row = none →
      ¬w.components.Nonempty → ∃ u, removeView now retries t.hash w = some u ∧ u.row = none := by
    intro t w hw hc
    unfold removeView
    split
    · exact ⟨_, if_neg hc, rfl⟩
    · split
      · exact ⟨_, if_neg hc, rfl⟩
      · exact ⟨_, rfl, hw⟩
  unfold laterView
  rw [slotted]
  split
  · exact slotted_file_rowless hrow
  · rename_i t _
    obtain ⟨u, hu, hurow⟩ := hremove t v.deleting (by simp [View.deleting, hrow]) hfree
    rw [deleteView, hu]
    exact slotted_file_rowless hurow

/-- A tombstone whose file is still there: the removal is tried again, and the last pass stumbles
over the row when it fails. -/
theorem laterView_retry {v : View Hash Content} {t : TombstoneRow Hash} {f : BlobFile Hash Content}
    {r : CatalogRow Hash} (htomb : v.tombstone = some t) (hfile : v.file = some f)
    (hrow : v.row = some r) : (laterView digest length retries now v).isSome = true ↔
      (digest f.content = f.name → retries t.hash = none) := by
  have hslot : slotted View.tombstone (fun t => deleteView now retries t.hash) v =
      removeView now retries t.hash v.deleting := by
    simp only [slotted, htomb, deleteView]
  have hdeleting : v.deleting.file = some f := hfile
  unfold laterView
  rw [hslot]
  cases hretry : retries t.hash with
  | none =>
    refine iff_of_true ?_ fun _ => rfl
    simp only [removeView, hdeleting, hretry]
    split <;> rfl
  | some message =>
    rw [removeView_failed retries now hdeleting hretry, Option.bind_some]
    have hunready : ¬(v.deleting.row.any fun q => q.state = .ready) = true := by
      simp [View.deleting, hrow]
    simp only [slotted, hdeleting, fileView, if_neg hunready]
    by_cases hdigest : digest f.content = f.name
    · simp [hdigest, View.deleting, hrow]
    · simp [hdigest]

theorem laterView_stuck {v : View Hash Content} {t : TombstoneRow Hash}
    (htomb : v.tombstone = some t) (hfile : v.file = none) (hc : v.components.Nonempty) :
    laterView digest length retries now v = none := by
  have hdeleting : v.deleting.file = none := hfile
  have hremove := removeView_missing retries now (x := t.hash) hdeleting hc
  simp only [laterView, slotted, htomb, deleteView, hremove, Option.bind_none]

theorem laterView_clean {v : View Hash Content} {f : BlobFile Hash Content} {r : CatalogRow Hash}
    (htomb : v.tombstone = none) (hfile : v.file = some f) (hrow : v.row = some r)
    (hready : r.state = .ready) : laterView digest length retries now v = some v := by
  simp only [laterView, slotted, htomb, Option.bind_some, hfile, fileView, hrow, Option.any_some,
    hready, decide_true, if_true]

theorem deleting_isSome {r : CatalogRow Hash} {f : BlobFile Hash Content}
    (hrow : s.row? x = some r) (hfile : s.file? x = some f) :
    ((removeView now fails x (s.view x).deleting).bind
        (laterView digest length retries now)).isSome = true ↔
      (s.referenced x = true → (fails x).isSome = true) ∧
        (digest f.content = x → fails x = none ∨ retries x = none) := by
  have hname : f.name = x := (Table.find?_eq_some.mp hfile).2
  have hview : (s.view x).deleting.file = some f := hfile
  rw [referenced_iff]
  have hcomponents : (s.view x).components = (s.view x).deleting.components := rfl
  rw [hcomponents]
  cases hfails : fails x with
  | none =>
    by_cases hc : (s.view x).deleting.components.Nonempty
    · have hstuck : laterView digest length retries now { (s.view x).deleting.withoutFile with
          tombstone := some ⟨x, now, "Error: FOREIGN KEY constraint failed"⟩ } = none :=
        laterView_stuck rfl rfl hc
      rw [removeView_stuck fails now (by rw [hview]; rfl) hfails hc, Option.bind_some, hstuck]
      simp [hc]
    · rw [removeView_removed fails now (by rw [hview]; rfl) hfails hc, Option.bind_some]
      exact iff_of_true (laterView_rowless rfl hc) ⟨fun h => absurd h hc, fun _ => Or.inl rfl⟩
  | some message =>
    have hrow' : (s.view x).deleting.row = some { r with state := .deleting } := by
      simp [View.deleting, show (s.view x).row = some r from hrow]
    have hretry : (laterView digest length retries now { (s.view x).deleting with
        tombstone := some ⟨x, now, message⟩ }).isSome = true ↔
        (digest f.content = f.name → retries x = none) :=
      laterView_retry (v := { (s.view x).deleting with tombstone := some ⟨x, now, message⟩ })
        (t := ⟨x, now, message⟩) rfl hview hrow'
    rw [removeView_failed fails now hview hfails, Option.bind_some, hretry, hname]
    simp

theorem reconcileView_isSome (hforeign : s.ComponentsInCatalog) :
    (reconcileView digest length fails retries now (s.view x)).isSome = true ↔
      Repairable digest length fails retries s x := by
  have href : s.referenced x = false ↔ ¬(s.view x).components.Nonempty := by
    rw [← Bool.not_eq_true, referenced_iff]
  unfold Repairable reconcileView
  cases hrow : s.row? x with
  | none =>
    refine iff_of_true ?_ trivial
    have hfree : ¬(s.view x).components.Nonempty := by
      rintro ⟨c, hc, rfl⟩
      have hcat := hforeign c hc
      rw [Table.has] at hcat
      rw [show s.db.catalog.find? c.hash = none from hrow] at hcat
      cases hcat
    rw [slotted, show (s.view x).row = none from hrow]
    exact laterView_rowless hrow hfree
  | some r =>
    have hx : r.hash = x := (Table.find?_eq_some.mp hrow).2
    rw [slotted, show (s.view x).row = some r from hrow]
    have hv : ∀ f, s.file? x = some f → f.name = x := fun f hf => (Table.find?_eq_some.mp hf).2
    cases hfile : s.file? x with
    | none =>
      have hview : (s.view x).file = none := hfile
      simp only [rowView, hview]
      rw [href]
      by_cases hc : (s.view x).components.Nonempty
      · rw [if_pos hc]
        exact iff_of_false (by simp) (not_not.mpr hc)
      · rw [if_neg hc]
        exact iff_of_true (laterView_rowless rfl hc) hc
    | some f =>
      have hview : (s.view x).file = some f := hfile
      have hname := hv f hfile
      simp only [rowView, hview]
      by_cases hsize : length f.content ≠ r.size
      · rw [if_pos hsize, if_pos hsize, href]
        by_cases hc : (s.view x).components.Nonempty
        · rw [if_pos hc]
          exact iff_of_false (by simp) (not_not.mpr hc)
        · rw [if_neg hc]
          exact iff_of_true (laterView_rowless rfl hc) hc
      · rw [if_neg hsize, if_neg hsize]
        cases hstate : r.state with
        | deleting =>
          rw [if_pos rfl, hx, deleteView]
          exact deleting_isSome hrow hfile
        | ready =>
          rw [if_neg (by decide), Option.bind_some]
          cases htomb : s.db.tombstones.find? x with
          | none =>
            have hview' : (s.view x).tombstone = none := htomb
            rw [laterView_clean hview' hview hrow hstate, Table.has, htomb]
            simp
          | some t =>
            have ht : t.hash = x := (Table.find?_eq_some.mp htomb).2
            rw [laterView_retry (show (s.view x).tombstone = some t from htomb) hview hrow, Table.has,
              htomb, ht, hname]
            simp

omit [LinearOrder Hash] in
theorem removeView_backed {v w : View Hash Content}
    (hv : ∀ r, v.row = some r → r.state ≠ .ready) (hw : removeView now fails x v = some w) :
    w.Backed length := by
  have hunready : ∀ u : View Hash Content, u.row = v.row ∨ u.row = none → u.Backed length := by
    rintro u (hu | hu) r hr hready
    · exact absurd hready (hv r (hu ▸ hr))
    · rw [hu] at hr
      cases hr
  unfold removeView at hw
  split at hw
  · split at hw
    · cases hw
    · cases hw
      exact hunready _ (Or.inr rfl)
  · split at hw
    · split at hw
      · cases hw
        exact hunready _ (Or.inl rfl)
      · cases hw
        exact hunready _ (Or.inr rfl)
    · cases hw
      exact hunready _ (Or.inl rfl)

omit [LinearOrder Hash] in
theorem deleteView_backed {v w : View Hash Content} (hw : deleteView now fails x v = some w) :
    w.Backed length := by
  refine removeView_backed (fun r hr => ?_) hw
  obtain ⟨q, -, rfl⟩ := Option.map_eq_some_iff.mp hr
  simp

omit [LinearOrder Hash] in
theorem slotted_row_backed {v w : View Hash Content}
    (hw : slotted View.row (rowView length fails now) v = some w) : w.Backed length := by
  have hrowless : ∀ u : View Hash Content, u.row = none → u.Backed length := fun u hu r hr => by
    rw [hu] at hr
    cases hr
  unfold slotted at hw
  split at hw
  · rename_i hrow
    cases hw
    exact hrowless v hrow
  · rename_i row hrow
    unfold rowView at hw
    split at hw
    · split at hw
      · cases hw
      · cases hw
        exact hrowless _ rfl
    · rename_i f hfile
      split at hw
      · split at hw
        · cases hw
        · cases hw
          exact hrowless _ rfl
      · rename_i hsize
        split at hw
        · exact deleteView_backed hw
        · cases hw
          intro r hr _
          obtain rfl : row = r := Option.some.inj (hrow.symm.trans hr)
          exact ⟨f, hfile, not_not.mp hsize⟩

theorem reconcileView_restored {v w : View Hash Content}
    (hw : reconcileView digest length fails retries now v = some w) :
    View.Restored digest length w := by
  obtain ⟨v₁, hv₁, hlater⟩ := Option.bind_eq_some_iff.mp hw
  obtain ⟨v₂, hv₂, hlast⟩ := Option.bind_eq_some_iff.mp hlater
  have hbacked : v₂.Backed length := by
    unfold slotted at hv₂
    split at hv₂
    · cases hv₂
      exact slotted_row_backed hv₁
    · exact deleteView_backed hv₂
  unfold slotted at hlast
  split at hlast
  · rename_i hfile
    cases hlast
    exact ⟨hbacked, fun f hf => by rw [hfile] at hf; cases hf⟩
  · rename_i f hfile
    refine fileView_restored hfile (fun r hr hready => ?_) hlast
    obtain ⟨g, hg, hsize⟩ := hbacked r hr hready
    rwa [Option.some.inj (hfile.symm.trans hg)]

end OneView

/-- The pass ends without an error and restores the store exactly when every blob can be repaired. -/
theorem reconcile_restores_iff (s : BlobStore Hash Content) (hforeign : s.ComponentsInCatalog) :
    (((reconcile digest length fails retries now).run s).result = .ok () ∧
        (((reconcile digest length fails retries now).run s).final s).Restored digest length) ↔
      ∀ x, Repairable digest length fails retries s x := by
  have hsweep := reconcile_sweeps digest length fails retries now s
  have hok : ((reconcile digest length fails retries now).run s).result = .ok () ↔
      ∀ x, Repairable digest length fails retries s x := by
    rw [hsweep.ok]
    exact forall_congr' fun x => reconcileView_isSome hforeign
  rw [← hok]
  refine and_iff_left_of_imp fun h => restored_of_views digest length fun x => ?_
  exact reconcileView_restored (hsweep.cells h x)

end Passes

section Instances

/-- A store that has admitted one blob and committed it as a route. -/
def committedRoute : BlobStore ℕ (List ℕ) :=
  Runs.run (blobStep radixDigest List.length) (empty 100)
    [⟨.promote [7, 1] .write (some (.upload "a")) "t", 1, fun _ => none, none⟩,
      ⟨.commitRoute "nar/x" 2 [⟨0, radixDigest [7, 1], 2⟩] (.upload "a"), 2, fun _ => none, none⟩]

theorem committedRoute_rows : committedRoute.db.catalog.rows =
    [⟨radixDigest [7, 1], 2, .write, 1, .ready⟩] := by
  decide

theorem reconcile_restores_iff_committed :
    ((reconcile radixDigest List.length (fun _ => none) (fun _ => none) 3).run
        committedRoute).result = .ok () ∧
      (((reconcile radixDigest List.length (fun _ => none) (fun _ => none) 3).run
        committedRoute).final committedRoute).Restored radixDigest List.length := by
  refine (reconcile_restores_iff radixDigest List.length (fun _ => none) (fun _ => none) 3
    committedRoute (by unfold ComponentsInCatalog; decide)).mpr fun x => ?_
  by_cases hx : x = radixDigest [7, 1]
  · subst hx
    decide
  · have hrow : committedRoute.row? x = none := by
      refine Table.find?_eq_none.mpr fun r hr hkey => hx ?_
      rw [committedRoute_rows, List.mem_singleton] at hr
      rw [← hkey, hr]
    unfold Repairable
    rw [hrow]
    trivial

/-- Once the file of a committed route is gone, the store cannot be opened any more. -/
theorem lost_file_stops_reconcile :
    ¬(((reconcile radixDigest List.length (fun _ => none) (fun _ => none) 3).run
          (committedRoute.removeFile (radixDigest [7, 1]))).result = .ok () ∧
        (((reconcile radixDigest List.length (fun _ => none) (fun _ => none) 3).run
            (committedRoute.removeFile (radixDigest [7, 1]))).final
          (committedRoute.removeFile (radixDigest [7, 1]))).Restored radixDigest List.length) := by
  rintro ⟨hok, -⟩
  revert hok
  decide

end Instances

end NixstrCache.Persistence.BlobStore
