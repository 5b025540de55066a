import Mathlib.Data.Set.Basic
import NixstrCache.Persistence.BlobStore

/-!
The store seen one blob at a time.

The view of a hash collects everything the state says about it: its row, its file, its owners, its
leases, the route components that refer to it and its tombstone.  Every statement changes the view
of one hash only or changes all views in the same way, so an invariant that speaks about each view
on its own is preserved by an operation as soon as the few views the operation touches keep it.
-/

namespace NixstrCache.Persistence.BlobStore

open Durable KeyedTable

@[ext]
structure View (Hash Content : Type) where
  row : Option (CatalogRow Hash)
  file : Option (BlobFile Hash Content)
  owners : Set Owner
  leases : ℕ
  components : Set (ComponentRow Hash)
  tombstone : Option (TombstoneRow Hash)

variable {Hash Content : Type} [LinearOrder Hash]

def view (s : BlobStore Hash Content) (x : Hash) : View Hash Content where
  row := s.row? x
  file := s.file? x
  owners := {o | ⟨o, x⟩ ∈ s.db.owners.rows}
  leases := s.leases x
  components := {c | c ∈ s.db.components.rows ∧ c.hash = x}
  tombstone := s.db.tombstones.find? x

namespace View

variable (v : View Hash Content)

def withoutRow : View Hash Content :=
  { v with row := none, owners := ∅ }

def withoutFile : View Hash Content :=
  { v with file := none }

def deleting : View Hash Content :=
  { v with row := v.row.map fun r => { r with state := .deleting } }

def Live : Prop :=
  v.owners.Nonempty ∨ 0 < v.leases ∨ v.components.Nonempty

end View

section Statements

variable (s : BlobStore Hash Content) (h x : Hash)

theorem owned_iff : s.owned x = true ↔ (s.view x).owners.Nonempty := by
  simp only [owned, view, List.any_eq_true, decide_eq_true_eq, Set.Nonempty, Set.mem_ofPred_eq]
  constructor
  · rintro ⟨r, hr, rfl⟩
    exact ⟨r.owner, hr⟩
  · rintro ⟨o, ho⟩
    exact ⟨_, ho, rfl⟩

theorem referenced_iff : s.referenced x = true ↔ (s.view x).components.Nonempty := by
  simp [referenced, view, Set.Nonempty]

theorem leased_iff : s.leased x = true ↔ 0 < (s.view x).leases := by
  simp [leased, view]

theorem has_iff : s.has x = true ↔ ∃ r, (s.view x).row = some r ∧ r.state = .ready := by
  simp [has, view, Option.any_eq_true]

theorem mem_ownedBy {o : Owner} : x ∈ s.ownedBy o ↔ o ∈ (s.view x).owners := by
  simp only [ownedBy, List.mem_map, List.mem_filter, decide_eq_true_eq, view, Set.mem_ofPred_eq]
  constructor
  · rintro ⟨r, ⟨hr, rfl⟩, rfl⟩
    exact hr
  · exact fun h => ⟨_, ⟨h, rfl⟩, rfl⟩

@[simp]
theorem view_setState (st : BlobState) : (s.setState h st).view x =
    if x = h then { s.view h with row := (s.view h).row.map fun r => { r with state := st } }
    else s.view x := by
  have hrow : (s.setState h st).row? x =
      if x = h then (s.row? h).map (fun r => { r with state := st }) else s.row? x :=
    Table.find?_updateAt _ _ _ (fun r => by split <;> rfl) _
  unfold view
  rw [hrow]
  split_ifs with hx
  · subst hx
    rfl
  · rfl

@[simp]
theorem view_touch (now : ℕ) : (s.touch h now).view x =
    if x = h then { s.view h with row := (s.view h).row.map fun r => { r with lastAccessed := now } }
    else s.view x := by
  have hrow : (s.touch h now).row? x =
      if x = h then (s.row? h).map (fun r => { r with lastAccessed := now }) else s.row? x :=
    Table.find?_updateAt _ _ _ (fun r => by split <;> rfl) _
  unfold view
  rw [hrow]
  split_ifs with hx
  · subst hx
    rfl
  · rfl

@[simp]
theorem view_deleteRow : (s.deleteRow h).view x =
    if x = h then (s.view h).withoutRow else s.view x := by
  have hrow : (s.deleteRow h).row? x = if x = h then none else s.row? x :=
    Table.find?_filter_ne _ _ _
  have howners : (s.deleteRow h).db.owners = s.db.owners.filter fun r => r.hash ≠ h := rfl
  unfold view
  rw [hrow, howners]
  split_ifs with hx
  · subst hx
    ext <;> simp [View.withoutRow, deleteRow, file?]
  · ext <;> simp [hx, deleteRow, file?]

@[simp]
theorem view_setTombstone (now : ℕ) (lastError : String) :
    (s.setTombstone h now lastError).view x =
      if x = h then { s.view h with tombstone := some ⟨h, now, lastError⟩ } else s.view x := by
  have htomb : (s.setTombstone h now lastError).db.tombstones.find? x =
      if h = x then some ⟨h, now, lastError⟩ else s.db.tombstones.find? x :=
    Table.find?_insertOrReplace _ _ _
  unfold view
  rw [htomb]
  split_ifs with hx hx' hx'
  · subst hx
    rfl
  · exact absurd hx.symm hx'
  · exact absurd hx'.symm hx
  · rfl

@[simp]
theorem view_clearTombstone : (s.clearTombstone h).view x =
    if x = h then { s.view h with tombstone := none } else s.view x := by
  have htomb : (s.clearTombstone h).db.tombstones.find? x =
      if x = h then none else s.db.tombstones.find? x :=
    Table.find?_filter_ne _ _ _
  unfold view
  rw [htomb]
  split_ifs with hx
  · subst hx
    rfl
  · rfl

@[simp]
theorem view_removeFile : (s.removeFile h).view x =
    if x = h then (s.view h).withoutFile else s.view x := by
  have hfile : (s.removeFile h).file? x = if x = h then none else s.file? x :=
    Table.find?_filter_ne _ _ _
  unfold view
  rw [hfile]
  split_ifs with hx
  · subst hx
    rfl
  · rfl

@[simp]
theorem view_linkFile (content : Content) : (s.linkFile h content).view x =
    if x = h then { s.view h with file := (s.view h).file.or (some ⟨h, content⟩) }
    else s.view x := by
  have hfile : (s.linkFile h content).file? x =
      (s.file? x).or (if h = x then some ⟨h, content⟩ else none) :=
    Table.find?_insertOrIgnore _ _ _
  unfold view
  rw [hfile]
  split_ifs with hx hx' hx'
  · subst hx
    rfl
  · exact absurd hx.symm hx'
  · exact absurd hx'.symm hx
  · rw [Option.or_none]
    rfl

@[simp]
theorem view_addOwner (owner : Owner) : (s.addOwner h owner).view x =
    if x = h then { s.view h with owners := insert owner (s.view h).owners } else s.view x := by
  have howner : ∀ o, ⟨o, x⟩ ∈ (s.addOwner h owner).db.owners.rows ↔
      ⟨o, x⟩ ∈ s.db.owners.rows ∨ o = owner ∧ x = h := by
    intro o
    simp only [addOwner, Table.mem_insertOrIgnore, OwnerRow.mk.injEq]
    constructor
    · rintro (hold | ⟨hnew, -⟩)
      · exact Or.inl hold
      · exact Or.inr hnew
    · rintro (hold | ⟨rfl, rfl⟩)
      · exact Or.inl hold
      · by_cases hmem : ∃ q ∈ s.db.owners.rows, q.key = (⟨o, x⟩ : OwnerRow Hash).key
        · obtain ⟨q, hq, hkey⟩ := hmem
          have hqe : q = ⟨o, x⟩ := by
            cases q
            simpa [OwnerRow.key] using hkey
          exact Or.inl (hqe ▸ hq)
        · push Not at hmem
          exact Or.inr ⟨⟨rfl, rfl⟩, hmem⟩
  unfold view
  simp only [howner]
  split_ifs with hx
  · subst hx
    ext <;> simp [addOwner, row?, file?, or_comm]
  · ext <;> simp [addOwner, row?, file?, hx]

@[simp]
theorem view_removeOwner (owner : Owner) : (s.removeOwner h owner).view x =
    if x = h then { s.view h with owners := (s.view h).owners \ {owner} } else s.view x := by
  unfold view
  split_ifs with hx
  · subst hx
    ext <;> simp [removeOwner, row?, file?]
  · ext <;> simp [removeOwner, row?, file?, hx]

@[simp]
theorem view_removeOwnerAll (owner : Owner) : (s.removeOwnerAll owner).view x =
    { s.view x with owners := (s.view x).owners \ {owner} } := by
  unfold view
  ext <;> simp [removeOwnerAll, row?, file?]

@[simp]
theorem view_copyOwner (source target : Owner) : (s.copyOwner source target).view x =
    { s.view x with owners := {o | o ∈ (s.view x).owners ∨
      o = target ∧ source ∈ (s.view x).owners} } := by
  have howner : ∀ o, ⟨o, x⟩ ∈ (s.copyOwner source target).db.owners.rows ↔
      ⟨o, x⟩ ∈ s.db.owners.rows ∨ o = target ∧ ⟨source, x⟩ ∈ s.db.owners.rows := by
    intro o
    have hkeys := Table.has_insertAllOrIgnore (t := s.db.owners)
      (k := (o, x))
      (l := (s.ownedBy source).map fun h => ⟨target, h⟩)
    have hrow : ∀ t : Table (OwnerRow.key : OwnerRow Hash → Owner × Hash), t.has (o, x) = true ↔ ⟨o, x⟩ ∈ t.rows := by
      intro t
      rw [Table.has_iff]
      constructor
      · rintro ⟨⟨p, q⟩, hr, hk⟩
        obtain ⟨rfl, rfl⟩ := Prod.mk.injEq .. ▸ hk
        exact hr
      · exact fun hr => ⟨_, hr, rfl⟩
    rw [hrow, hrow] at hkeys
    refine hkeys.trans (or_congr Iff.rfl ?_)
    have hsource := s.mem_ownedBy x (o := source)
    simp only [List.mem_map, OwnerRow.key]
    constructor
    · rintro ⟨_, ⟨y, hy, rfl⟩, hk⟩
      obtain ⟨rfl, rfl⟩ := Prod.mk.injEq .. ▸ hk
      exact ⟨rfl, hsource.mp hy⟩
    · rintro ⟨rfl, hmem⟩
      exact ⟨_, ⟨x, hsource.mpr hmem, rfl⟩, rfl⟩
  unfold view
  simp only [howner]
  rfl

@[simp]
theorem view_setLease (count : ℕ) : (s.setLease h count).view x =
    if x = h then { s.view h with leases := count } else s.view x := by
  unfold view
  split_ifs with hx
  · subst hx
    ext <;> simp [setLease, row?, file?]
  · ext <;> simp [setLease, row?, file?, hx]

@[simp]
theorem view_dropReservation (token : String) : (s.dropReservation token).view x = s.view x :=
  rfl

theorem removal_removed {fails : Hash → Option String} (hr : s.removal fails x = .removed) :
    (s.view x).file.isSome ∧ fails x = none := by
  unfold removal at hr
  simp only [view]
  split at hr
  · cases hr
  · split at hr
    · simp_all
    · cases hr

theorem removal_failed {fails : Hash → Option String} {message : String}
    (hr : s.removal fails x = .failed message) :
    (s.view x).file.isSome ∧ fails x = some message := by
  unfold removal at hr
  simp only [view]
  split at hr
  · cases hr
  · split at hr
    · cases hr
    · simp_all

theorem removal_notFound {fails : Hash → Option String} (hr : s.removal fails x = .notFound) :
    (s.view x).file = none := by
  unfold removal at hr
  simp only [view]
  split at hr
  · assumption
  · split at hr <;> cases hr

end Statements

def Each (G : Hash → View Hash Content → Prop) (s : BlobStore Hash Content) : Prop :=
  ∀ x, G x (s.view x)

theorem each_update {G : Hash → View Hash Content → Prop} {s t : BlobStore Hash Content} {h : Hash}
    {v : View Hash Content} (hs : Each G s) (hv : G h v)
    (ht : ∀ x, t.view x = if x = h then v else s.view x) : Each G t := by
  intro x
  rw [ht]
  split_ifs with hx
  · subst hx
    exact hv
  · exact hs x

structure Deletable (G : View Hash Content → Prop) : Prop where
  deleting : ∀ v, G v → G v.deleting
  file : ∀ v, G v → G v.withoutFile
  row : ∀ v, G v → G v.withoutRow
  tombstone : ∀ v t, G v → G { v with tombstone := t }

/-- `#delete` touches one view only. -/
theorem delete_each {G : Hash → View Hash Content → Prop} {h : Hash} (hG : Deletable (G h))
    (fails : Hash → Option String) (now : ℕ) : Preserves (Each G) (delete fails now h) := by
  have hrow : Preserves (Each G) (Program.commit fun s => s.deleteRow h : StoreProgram Hash Content Unit) :=
    Preserves.commit fun s hs => each_update hs (hG.row _ (hs h)) (s.view_deleteRow h)
  have htomb : ∀ e, Preserves (Each G)
      (Program.commit fun s => s.setTombstone h now e : StoreProgram Hash Content Unit) := fun e =>
    Preserves.commit fun s hs =>
      each_update hs (hG.tombstone _ _ (hs h)) fun x => s.view_setTombstone h x now e
  unfold delete
  refine Preserves.bind (Preserves.commit fun s hs =>
    each_update hs (hG.deleting _ (hs h)) fun x => s.view_setState h x .deleting) fun _ => ?_
  refine Preserves.bind Preserves.read fun s => ?_
  split
  · refine Preserves.bind (Preserves.commit fun s hs =>
      each_update hs (hG.file _ (hs h)) (s.view_removeFile h)) fun _ => ?_
    split
    · exact htomb _
    · exact Preserves.bind hrow fun _ => Preserves.commit fun s hs =>
        each_update hs (hG.tombstone _ _ (hs h)) (s.view_clearTombstone h)
  · split
    · exact Preserves.throw _
    · exact hrow
  · exact htomb _

end NixstrCache.Persistence.BlobStore
