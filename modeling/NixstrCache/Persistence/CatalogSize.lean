import NixstrCache.Persistence.Admissions

/-!
What the operations on the catalog owe to its size.

An admission looks its entry up in the first page of the inventory, and the sweep after a transfer goes
through that page.  A blob is on the page when few enough ready blobs have a smaller hash.
-/

namespace NixstrCache.Persistence

open Durable KeyedTable Program BlobStore

section Pages

variable {ρ κ : Type} [LinearOrder κ] {key : ρ → κ}

theorem mem_take_iff {rows : List ρ} (hsorted : rows.Pairwise fun a b => key a < key b) {r : ρ}
    (hr : r ∈ rows) (n : ℕ) :
    r ∈ rows.take n ↔ (rows.filter fun a => key a < key r).length < n := by
  obtain ⟨before, after, rfl⟩ := List.append_of_mem hr
  obtain ⟨-, hafter, hbefore⟩ := List.pairwise_append.mp hsorted
  have hlater := (List.pairwise_cons.mp hafter).1
  have hfilter : ((before ++ r :: after).filter fun a => key a < key r) = before := by
    rw [List.filter_append, List.filter_eq_self.mpr, List.filter_eq_nil_iff.mpr, List.append_nil]
    · refine List.forall_mem_cons.mpr ⟨by simp, fun a ha => ?_⟩
      simpa using (hlater a ha).le
    · exact fun a ha => by simpa using hbefore a ha r List.mem_cons_self
  rw [hfilter, List.take_append, List.mem_append]
  constructor
  · rintro (hmem | hmem)
    · exact absurd (hbefore r (List.mem_of_mem_take hmem) r List.mem_cons_self) (lt_irrefl _)
    · by_contra hle
      rw [Nat.sub_eq_zero_of_le (not_lt.mp hle)] at hmem
      simp at hmem
  · intro hlt
    obtain ⟨k, hk⟩ := Nat.exists_eq_add_of_lt hlt
    refine Or.inr ?_
    rw [show n - before.length = k + 1 by omega, List.take_succ_cons]
    exact List.mem_cons_self

end Pages

namespace BlobStore

variable {Hash Content : Type} [LinearOrder Hash]
variable {s t : BlobStore Hash Content} {h x : Hash}

section Inventory

/-- How many ready blobs have a smaller hash. -/
def rank (s : BlobStore Hash Content) (h : Hash) : ℕ :=
  (s.readyRows.filter fun r => r.hash < h).length

def ownerCount (s : BlobStore Hash Content) (h : Hash) : ℕ :=
  (s.db.owners.rows.filter fun o => o.hash = h).length

def page (s : BlobStore Hash Content) : List (CatalogRow Hash) :=
  (s.readyRows.insertionSort fun a b => a.hash ≤ b.hash).take inventoryLimit

theorem readyRows_sorted (s : BlobStore Hash Content) :
    (s.readyRows.insertionSort fun a b => a.hash ≤ b.hash).Pairwise fun a b => a.hash < b.hash := by
  have hunique : (s.readyRows.map CatalogRow.hash).Nodup :=
    s.db.catalog.unique.sublist (List.filter_sublist.map _)
  have hdistinct : ((s.readyRows.insertionSort fun a b => a.hash ≤ b.hash).map CatalogRow.hash).Nodup :=
    ((List.perm_insertionSort _ _).map _).nodup_iff.mpr hunique
  have hsorted := List.pairwise_insertionSort (fun a b : CatalogRow Hash => a.hash ≤ b.hash) s.readyRows
  exact (hsorted.and (List.pairwise_map.mp hdistinct)).imp fun h => lt_of_le_of_ne h.1 h.2

theorem mem_page {r : CatalogRow Hash} (hr : r ∈ s.readyRows) :
    r ∈ s.page ↔ s.rank r.hash < inventoryLimit := by
  have hmem : r ∈ s.readyRows.insertionSort fun a b => a.hash ≤ b.hash := (List.mem_insertionSort _).mpr hr
  rw [page, mem_take_iff s.readyRows_sorted hmem, rank,
    ((List.perm_insertionSort _ s.readyRows).filter _).length_eq]

theorem entry_eq {r : CatalogRow Hash} (hr : r ∈ s.readyRows) :
    s.entry r.hash = if s.rank r.hash < inventoryLimit then
        some ⟨r.hash, r.size, r.origin, r.lastAccessed, s.ownerCount r.hash⟩
      else none := by
  have hentry : s.entry r.hash = (s.page.find? fun other => other.hash = r.hash).map fun other =>
      ⟨other.hash, other.size, other.origin, other.lastAccessed, s.ownerCount other.hash⟩ := by
    rw [entry, inventory, List.find?_map]
    rfl
  rw [hentry]
  split_ifs with hrank
  · have hmem := (mem_page hr).mpr hrank
    have hsome : (s.page.find? fun other => other.hash = r.hash).isSome :=
      List.find?_isSome.mpr ⟨r, hmem, by simp⟩
    obtain ⟨found, hfound⟩ := Option.isSome_iff_exists.mp hsome
    have hkey : found.hash = r.hash := by simpa using List.find?_some hfound
    have hrow : found ∈ s.readyRows :=
      (List.mem_insertionSort _).mp (List.mem_of_mem_take (List.mem_of_find?_eq_some hfound))
    obtain rfl := Table.eq_of_key (List.mem_of_mem_filter hrow) (List.mem_of_mem_filter hr) hkey
    rw [hfound, Option.map_some]
  · rw [Option.map_eq_none_iff, List.find?_eq_none]
    intro other hother hkey
    have hrow : other ∈ s.readyRows := (List.mem_insertionSort _).mp (List.mem_of_mem_take hother)
    have hsame := Table.eq_of_key (List.mem_of_mem_filter hrow) (List.mem_of_mem_filter hr)
      (by simpa using hkey)
    exact hrank ((mem_page hr).mp (hsame ▸ hother))

end Inventory

section Recording

variable {size now : ℕ} {origin : BlobOrigin}

theorem rank_update {f : CatalogRow Hash → CatalogRow Hash} {rows : List (CatalogRow Hash)}
    (hhash : ∀ r, (f r).hash = r.hash) (hother : ∀ r, r.hash ≠ h → f r = r) :
    (((rows.map f).filter fun r => r.state = .ready).filter fun r => r.hash < h).length =
      ((rows.filter fun r => r.state = .ready).filter fun r => r.hash < h).length := by
  rw [List.filter_filter, List.filter_filter, List.filter_map, List.length_map]
  congr 1
  refine List.filter_congr fun r _ => ?_
  rw [Function.comp_apply, hhash]
  by_cases hlt : r.hash < h
  · rw [hother r hlt.ne]
  · simp [hlt]

theorem recordReady_ready (hrecord : s.recordReady h size origin now = .ok t) :
    (∃ r ∈ t.readyRows, r.hash = h ∧ r.size = size) ∧ t.rank h = s.rank h := by
  unfold recordReady at hrecord
  split at hrecord
  · cases hrecord
    refine ⟨⟨⟨h, size, origin, now, .ready⟩, ?_, rfl, rfl⟩, ?_⟩
    · exact List.mem_filter.mpr ⟨Table.mem_insertOrReplace.mpr (Or.inr rfl), rfl⟩
    · have hnew : ([⟨h, size, origin, now, .ready⟩] : List (CatalogRow Hash)).filter
          (fun r => r.hash < h && r.state = .ready) = [] := by simp
      rw [rank, rank, readyRows, readyRows, Table.insertOrReplace]
      simp only [List.filter_append, List.filter_filter, List.length_append]
      rw [hnew, List.length_nil, Nat.add_zero]
      congr 1
      refine List.filter_congr fun r _ => ?_
      by_cases hlt : r.hash < h
      · simp [hlt, hlt.ne]
      · simp [hlt]
  · next existing hexisting =>
    by_cases hsize : existing.size = size
    · rw [if_neg (not_not_intro hsize)] at hrecord
      cases hrecord
      obtain ⟨hmem, hkey⟩ := Table.find?_eq_some.mp hexisting
      constructor
      · refine ⟨_, List.mem_filter.mpr ⟨List.mem_map_of_mem hmem, ?_⟩, ?_, ?_⟩
        · rw [if_pos hkey]
          rfl
        · rw [if_pos hkey]
          exact hkey
        · rw [if_pos hkey]
          exact hsize
      · refine rank_update (fun r => ?_) fun r hr => if_neg hr
        split <;> rfl
    · rw [if_pos hsize] at hrecord
      cases hrecord

variable {digest : Content → Hash} {length : Content → ℕ}

theorem promote_entry {content : Content} {owner : Option Owner} {token : String}
    {result : Option (BlobInventoryEntry Hash)}
    (hresult : ((promote digest length content origin owner token now).run s).result = .ok result) :
    ∃ r ∈ (((promote digest length content origin owner token now).run s).final s).readyRows,
      r.hash = digest content ∧ r.size = length content ∧
      result = if s.rank (digest content) < inventoryLimit then
          some ⟨r.hash, r.size, r.origin, r.lastAccessed,
            (((promote digest length content origin owner token now).run s).final s).ownerCount r.hash⟩
        else none := by
  rw [promote_run] at hresult ⊢
  cases hrecord : (s.linkFile (digest content) content).recordReady (digest content) (length content)
      origin now with
  | error e => simp [hrecord] at hresult
  | ok u =>
    simp only [hrecord, Except.ok.injEq] at hresult ⊢
    obtain ⟨⟨r, hr, hkey, hsize⟩, hrank⟩ := recordReady_ready hrecord
    have hrows : (u.recorded (digest content) owner token).readyRows = u.readyRows := by
      cases owner <;> rfl
    have hfinal : (u.recorded (digest content) owner token).rank (digest content) =
        s.rank (digest content) := by
      rw [rank, hrows]
      exact hrank
    refine ⟨r, hrows.symm ▸ hr, hkey, hsize, ?_⟩
    have hentry := entry_eq (s := u.recorded (digest content) owner token) (hrows.symm ▸ hr)
    rw [hkey, hfinal] at hentry
    rw [← hresult, hentry, hkey]
    rfl

end Recording

section Sweeping

variable {u : BlobStore Hash Content} {fails : Hash → Option String} {now : ℕ}

def droppable (s : BlobStore Hash Content) (x : Hash) : Bool :=
  !s.leased x && !s.owned x && (s.row? x).any fun r => r.origin = .write

/-- A droppable blob that is still served. -/
def abandoned (s : BlobStore Hash Content) (x : Hash) : Bool :=
  s.droppable x && s.has x

theorem droppable_congr (h : s.view x = t.view x) : s.droppable x = t.droppable x := by
  have howned : s.owned x = t.owned x := by rw [Bool.eq_iff_iff, owned_iff, owned_iff, h]
  have hleased : s.leased x = t.leased x := by rw [Bool.eq_iff_iff, leased_iff, leased_iff, h]
  have hrow : s.row? x = t.row? x := congrArg View.row h
  rw [droppable, droppable, howned, hleased, hrow]

theorem abandoned_congr (h : s.view x = t.view x) : s.abandoned x = t.abandoned x := by
  have hrow : s.row? x = t.row? x := congrArg View.row h
  rw [abandoned, abandoned, droppable_congr h, has, has, hrow]

theorem stuck_congr (h : s.view x = t.view x) : s.stuck x = t.stuck x := by
  have hreferenced : s.referenced x = t.referenced x := by
    rw [Bool.eq_iff_iff, referenced_iff, referenced_iff, h]
  have hfile : s.file? x = t.file? x := congrArg View.file h
  rw [stuck, stuck, hreferenced, hfile]

theorem has_eq_false (h : ∀ r ∈ s.readyRows, r.hash ≠ x) : s.has x = false := by
  rw [Bool.eq_false_iff, ne_eq, has, Option.any_eq_true]
  rintro ⟨r, hr, hready⟩
  obtain ⟨hmem, hkey⟩ := Table.find?_eq_some.mp hr
  exact h r (List.mem_filter.mpr ⟨hmem, hready⟩) hkey

theorem delete_view (fails : Hash → Option String) (now : ℕ) (t : BlobStore Hash Content) {y : Hash}
    (hx : x ≠ y) :
    (((delete fails now y : StoreProgram Hash Content Unit).run t).final t).view x = t.view x := by
  have hother : Deletable fun v : View Hash Content => y ≠ y → v = t.view y :=
    ⟨fun _ _ h => absurd rfl h, fun _ _ h => absurd rfl h, fun _ _ h => absurd rfl h,
      fun _ _ _ h => absurd rfl h⟩
  have hkept := (delete_each (G := fun z v => z ≠ y → v = t.view z) hother fails now).final
    (s := t) fun _ _ => rfl
  exact hkept x hx

theorem delete_has (fails : Hash → Option String) (now : ℕ) (t : BlobStore Hash Content) (y : Hash) :
    (((delete fails now y : StoreProgram Hash Content Unit).run t).final t).has y = false := by
  refine has_eq_false ?_
  cases hstuck : t.stuck y with
  | false =>
    rw [(delete_evicted fails now hstuck).2.ready]
    exact fun r hr => by simpa using (List.mem_filter.mp hr).2
  | true =>
    simp only [stuck, Bool.and_eq_true, Option.isNone_iff_eq_none] at hstuck
    have hremoval : (t.setState y .deleting).removal fails y = .notFound := by
      have hfile : (t.setState y .deleting).file? y = none := hstuck.1
      simp [removal, hfile]
    have hreferenced : (t.setState y .deleting).referenced y = true := hstuck.2
    rw [delete, bind_commit_run, bind_read_run, hremoval]
    simp only [hreferenced, if_true]
    change ∀ r ∈ (t.setState y .deleting).readyRows, r.hash ≠ y
    rw [setState_readyRows]
    exact fun r hr => by simpa using (List.mem_filter.mp hr).2

theorem deleteIfUnownedWrite_cases (fails : Hash → Option String) (now : ℕ)
    (t : BlobStore Hash Content) (y : Hash) :
    let outcome := (deleteIfUnownedWrite fails now y : StoreProgram Hash Content Unit).run t
    t.droppable y = false ∧ outcome.result = .ok () ∧ outcome.final t = t ∨
      t.droppable y = true ∧ (outcome.final t).has y = false ∧
        (∀ x, x ≠ y → (outcome.final t).view x = t.view x) ∧
        if t.stuck y then ∃ e, outcome.result = .error e else outcome.result = .ok () := by
  intro outcome
  have hrun : outcome = if t.droppable y then (delete fails now y).run t else ⟨[], .ok ()⟩ := by
    change (deleteIfUnownedWrite fails now y : StoreProgram Hash Content Unit).run t = _
    rw [deleteIfUnownedWrite, bind_read_run, droppable]
    cases t.leased y with
    | true => rfl
    | false =>
      cases t.owned y with
      | true => rfl
      | false =>
        cases t.row? y with
        | none => rfl
        | some r =>
          simp only [Bool.false_eq_true, if_false, Bool.not_false, Bool.and_self, Option.any_some,
            Bool.true_and, decide_eq_true_eq]
          split_ifs <;> rfl
  cases hdrop : t.droppable y with
  | false =>
    rw [hdrop, if_neg Bool.false_ne_true] at hrun
    rw [hrun]
    exact Or.inl ⟨rfl, rfl, rfl⟩
  | true =>
    rw [hdrop, if_pos rfl] at hrun
    rw [hrun]
    refine Or.inr ⟨rfl, delete_has fails now t y, fun x hx => delete_view fails now t hx, ?_⟩
    cases hstuck : t.stuck y with
    | true => exact (delete_stuck fails now hstuck).1
    | false => exact (delete_evicted fails now hstuck).1

/-- What a sweep in the order of the hashes leaves behind: the blobs that it does not go through, and
those after the first one that it is stuck at. -/
theorem sweep_abandoned (fails : Hash → Option String) (now : ℕ) {hashes : List Hash}
    (hsorted : hashes.Pairwise (· < ·)) (t : BlobStore Hash Content) (x : Hash) :
    (((Program.forEach hashes fun y =>
        (deleteIfUnownedWrite fails now y : StoreProgram Hash Content Unit)).run t).final t).abandoned x =
      true ↔ t.abandoned x = true ∧ (x ∈ hashes → ∃ y ∈ hashes, y < x ∧ t.droppable y = true ∧ t.stuck y = true) := by
  induction hashes generalizing t with
  | nil => exact ⟨fun h => ⟨h, fun hx => by cases hx⟩, And.left⟩
  | cons y rest ih =>
    obtain ⟨hfirst, hrest⟩ := List.pairwise_cons.mp hsorted
    have hleast : ∀ z ∈ y :: rest, ¬z < y :=
      List.forall_mem_cons.mpr ⟨lt_irrefl y, fun z hz => (hfirst z hz).not_gt⟩
    change (((deleteIfUnownedWrite fails now y >>= fun _ => Program.forEach rest fun y =>
      (deleteIfUnownedWrite fails now y : StoreProgram Hash Content Unit)).run t).final t).abandoned x =
        true ↔ _
    rcases deleteIfUnownedWrite_cases fails now t y with
      ⟨hdrop, hok, hfinal⟩ | ⟨hdrop, hhas, hothers, hresult⟩
    · rw [bind_final hok, hfinal, ih hrest t]
      refine and_congr_right fun habandoned => ?_
      have hne : x ≠ y := by
        rintro rfl
        simp [abandoned, hdrop] at habandoned
      simp [hne, hdrop]
    · have hgone : ∀ z : BlobStore Hash Content, z.has y = false → z.abandoned y = false := by
        intro z hz
        rw [abandoned, hz, Bool.and_false]
      cases hstuck : t.stuck y with
      | true =>
        rw [hstuck, if_pos rfl] at hresult
        obtain ⟨e, he⟩ := hresult
        rw [bind_run_error he]
        change (((deleteIfUnownedWrite fails now y : StoreProgram Hash Content Unit).run t).final
          t).abandoned x = true ↔ _
        rcases eq_or_ne x y with rfl | hne
        · rw [hgone _ hhas]
          refine ⟨fun h => absurd h Bool.false_ne_true, fun h => ?_⟩
          obtain ⟨z, hz, hlt, -⟩ := h.2 List.mem_cons_self
          exact absurd hlt (hleast z hz)
        · rw [abandoned_congr (hothers x hne)]
          refine ⟨fun h => ⟨h, fun hx => ?_⟩, And.left⟩
          have hx := (List.mem_cons.mp hx).resolve_left hne
          exact ⟨y, List.mem_cons_self, hfirst x hx, hdrop, hstuck⟩
      | false =>
        rw [hstuck, if_neg Bool.false_ne_true] at hresult
        rw [bind_final hresult, ih hrest]
        rcases eq_or_ne x y with rfl | hne
        · rw [hgone _ hhas]
          refine ⟨fun h => absurd h.1 Bool.false_ne_true, fun h => ?_⟩
          obtain ⟨z, hz, hlt, -⟩ := h.2 List.mem_cons_self
          exact absurd hlt (hleast z hz)
        · rw [abandoned_congr (hothers x hne)]
          refine and_congr_right fun _ => ?_
          have hsame : ∀ z ∈ rest, (((deleteIfUnownedWrite fails now y :
              StoreProgram Hash Content Unit).run t).final t).view z = t.view z :=
            fun z hz => hothers z (hfirst z hz).ne'
          simp only [List.mem_cons, hne, false_or, exists_eq_or_imp, hstuck, Bool.false_eq_true, and_false]
          refine imp_congr_right fun _ => exists_congr fun z => and_congr_right fun hz => ?_
          rw [droppable_congr (hsame z hz), stuck_congr (hsame z hz)]

end Sweeping

section Transfer

variable {source target : Owner} {hashes : List Hash} {o : Owner}

def handedOver (source target : Owner) (owners : Set Owner) : Set Owner :=
  {o | (o ∈ owners ∨ o = target ∧ source ∈ owners) ∧ o ≠ source}

theorem handedOver_twice (source target : Owner) (owners : Set Owner) :
    handedOver source target (handedOver source target owners) = handedOver source target owners := by
  ext o
  simp only [handedOver, Set.mem_ofPred_eq]
  tauto

structure SameBlobs (s t : BlobStore Hash Content) : Prop where
  catalog : t.db.catalog = s.db.catalog
  components : t.db.components = s.db.components
  files : t.files = s.files
  leases : t.leases = s.leases

omit [LinearOrder Hash] in
theorem SameBlobs.refl (s : BlobStore Hash Content) : SameBlobs s s :=
  ⟨rfl, rfl, rfl, rfl⟩

omit [LinearOrder Hash] in
theorem SameBlobs.trans {u : BlobStore Hash Content} (hst : SameBlobs s t) (htu : SameBlobs t u) :
    SameBlobs s u :=
  ⟨htu.catalog.trans hst.catalog, htu.components.trans hst.components, htu.files.trans hst.files,
    htu.leases.trans hst.leases⟩

theorem moveOwner_same (s : BlobStore Hash Content) (h : Hash) (source target : Owner) :
    SameBlobs s ((if h ∈ s.ownedBy source then s.addOwner h target else s).removeOwner h source) := by
  split_ifs <;> exact ⟨rfl, rfl, rfl, rfl⟩

theorem moveOwner_owners (s : BlobStore Hash Content) (h x : Hash) (source target : Owner) :
    (((if h ∈ s.ownedBy source then s.addOwner h target else s).removeOwner h source).view x).owners =
      if x = h then handedOver source target (s.view x).owners else (s.view x).owners := by
  rw [view_removeOwner]
  split_ifs with hx howned howned
  · subst hx
    have hsource := (mem_ownedBy s x).mp howned
    ext o
    simp only [view_addOwner, if_true, handedOver, Set.mem_sdiff, Set.mem_insert_iff,
      Set.mem_singleton_iff, Set.mem_ofPred_eq, hsource, and_true, or_comm]
  · subst hx
    have hsource : source ∉ (s.view x).owners := fun h => howned ((mem_ownedBy s x).mpr h)
    ext o
    simp only [handedOver, Set.mem_sdiff, Set.mem_singleton_iff, Set.mem_ofPred_eq, hsource, and_false,
      or_false]
  · rw [view_addOwner, if_neg hx]
  · rfl

theorem transferred_same (s : BlobStore Hash Content) (source target : Owner)
    (hashes : Option (List Hash)) : SameBlobs s (s.transferred source target hashes) := by
  cases hashes with
  | none => exact ⟨rfl, rfl, rfl, rfl⟩
  | some hashes =>
    induction hashes generalizing s with
    | nil => exact .refl s
    | cons h rest ih => exact (moveOwner_same s h source target).trans (ih _)

theorem transferred_owners (s : BlobStore Hash Content) (source target : Owner)
    (hashes : Option (List Hash)) (x : Hash) :
    ((s.transferred source target hashes).view x).owners =
      if hashes.all (x ∈ ·) then handedOver source target (s.view x).owners else (s.view x).owners := by
  cases hashes with
  | none =>
    rw [transferred, view_removeOwnerAll, view_copyOwner, Option.all_none, if_pos rfl]
    rfl
  | some hashes =>
    induction hashes generalizing s with
    | nil => simp [transferred]
    | cons h rest ih =>
      refine (ih _).trans ?_
      rw [moveOwner_owners]
      by_cases hx : x = h
      · by_cases hrest : x ∈ rest
        · simp [hx, hx ▸ hrest, handedOver_twice]
        · simp [hx, hx ▸ hrest]
      · simp [hx]

/-- A ready blob from a client without a lease that a transfer leaves without an owner. -/
structure Abandons (s : BlobStore Hash Content) (source target : Owner) (hashes : Option (List Hash))
    (x : Hash) : Prop where
  row : ∃ r ∈ s.readyRows, r.hash = x ∧ r.origin = .write
  lease : s.leases x = 0
  owners : ∀ o, ⟨o, x⟩ ∈ s.db.owners.rows →
    o = source ∧ source = target ∧ ∀ listed, hashes = some listed → x ∈ listed

theorem handedOver_empty (owners : Set Owner) : handedOver source target owners = ∅ ↔
    ∀ o ∈ owners, o = source ∧ source = target := by
  rw [Set.eq_empty_iff_forall_notMem]
  simp only [handedOver, Set.mem_ofPred_eq]
  constructor
  · intro h o ho
    have hsource : o = source := by
      by_contra hne
      exact h o ⟨Or.inl ho, hne⟩
    refine ⟨hsource, ?_⟩
    by_contra hne
    exact h target ⟨Or.inr ⟨rfl, hsource ▸ ho⟩, Ne.symm hne⟩
  · rintro h o ⟨ho | ⟨rfl, hsource⟩, hne⟩
    · exact hne (h o ho).1
    · exact hne (h source hsource).2.symm

theorem abandoned_iff (s : BlobStore Hash Content) (x : Hash) : s.abandoned x = true ↔
    (∃ r ∈ s.readyRows, r.hash = x ∧ r.origin = .write) ∧ s.leases x = 0 ∧ (s.view x).owners = ∅ := by
  have hrow : ((s.row? x).any (fun r => r.origin = .write) && s.has x) = true ↔
      ∃ r ∈ s.readyRows, r.hash = x ∧ r.origin = .write := by
    rw [has]
    constructor
    · intro h
      cases hfound : s.row? x with
      | none => simp [hfound] at h
      | some r =>
        rw [hfound, Option.any_some, Option.any_some, Bool.and_eq_true] at h
        obtain ⟨hmem, hkey⟩ := Table.find?_eq_some.mp hfound
        exact ⟨r, List.mem_filter.mpr ⟨hmem, h.2⟩, hkey, by simpa using h.1⟩
    · rintro ⟨r, hr, hkey, horigin⟩
      obtain ⟨hmem, hready⟩ := List.mem_filter.mp hr
      have hfound : s.row? x = some r := Table.find?_eq_some.mpr ⟨hmem, hkey⟩
      rw [hfound, Option.any_some, Option.any_some, Bool.and_eq_true]
      exact ⟨by simpa using horigin, hready⟩
  have howned : s.owned x = false ↔ (s.view x).owners = ∅ := by
    rw [← Set.not_nonempty_iff_eq_empty, ← owned_iff, Bool.not_eq_true]
  have hleased : s.leased x = false ↔ s.leases x = 0 := by simp [leased]
  rw [abandoned, droppable, Bool.and_assoc, Bool.and_eq_true, hrow, Bool.and_eq_true, Bool.not_eq_true',
    Bool.not_eq_true', howned, hleased]
  tauto

theorem transferred_abandoned (s : BlobStore Hash Content) (source target : Owner)
    (hashes : Option (List Hash)) (x : Hash) :
    (s.transferred source target hashes).abandoned x = true ↔ s.Abandons source target hashes x := by
  have hsame := transferred_same s source target hashes
  have hrows : (s.transferred source target hashes).readyRows = s.readyRows := by
    rw [readyRows, hsame.catalog]
    rfl
  have howners : ((s.transferred source target hashes).view x).owners = ∅ ↔
      ∀ o, ⟨o, x⟩ ∈ s.db.owners.rows → o = source ∧ source = target ∧
        ∀ listed, hashes = some listed → x ∈ listed := by
    have hlisted : hashes.all (x ∈ ·) = true ↔ ∀ listed, hashes = some listed → x ∈ listed := by
      cases hashes <;> simp
    rw [transferred_owners]
    split_ifs with hall
    · rw [handedOver_empty]
      exact forall₂_congr fun o _ => ⟨fun h => ⟨h.1, h.2, hlisted.mp hall⟩, fun h => ⟨h.1, h.2.1⟩⟩
    · rw [Set.eq_empty_iff_forall_notMem]
      refine forall_congr' fun o => ⟨fun h ho => absurd ho h, fun h ho => hall ?_⟩
      exact hlisted.mpr (h ho).2.2
  rw [abandoned_iff, hrows, hsame.leases, howners]
  exact ⟨fun h => ⟨h.1, h.2.1, h.2.2⟩, fun h => ⟨h.row, h.lease, h.owners⟩⟩

omit [LinearOrder Hash] in
theorem forEach_map {α β : Type} (g : α → β) (xs : List α) (f : β → StoreProgram Hash Content Unit) :
    Program.forEach (xs.map g) f = Program.forEach xs fun x => f (g x) := by
  induction xs with
  | nil => rfl
  | cons x xs ih =>
    rw [List.map_cons, Program.forEach, Program.forEach, ih]

theorem inventory_hashes (s : BlobStore Hash Content) :
    (s.inventory inventoryLimit).map BlobInventoryEntry.hash = s.page.map CatalogRow.hash := by
  rw [inventory, List.map_map]
  rfl

theorem page_sorted (s : BlobStore Hash Content) : (s.page.map CatalogRow.hash).Pairwise (· < ·) :=
  List.pairwise_map.mpr (s.readyRows_sorted.sublist (List.take_sublist _ _))

theorem mem_page_hashes (hx : s.abandoned x = true) :
    x ∈ s.page.map CatalogRow.hash ↔ s.rank x < inventoryLimit := by
  obtain ⟨⟨r, hr, rfl, -⟩, -⟩ := (abandoned_iff s x).mp hx
  rw [← mem_page hr]
  constructor
  · intro h
    obtain ⟨other, hother, hkey⟩ := List.mem_map.mp h
    have hrow : other ∈ s.readyRows := (List.mem_insertionSort _).mp (List.mem_of_mem_take hother)
    exact Table.eq_of_key (List.mem_of_mem_filter hrow) (List.mem_of_mem_filter hr) hkey ▸ hother
  · exact List.mem_map_of_mem

theorem rank_mono (s : BlobStore Hash Content) {y : Hash} (h : y ≤ x) : s.rank y ≤ s.rank x := by
  refine (List.monotone_filter_right _ fun r hr => ?_).length_le
  simp only [decide_eq_true_eq] at hr ⊢
  exact hr.trans_le h

/-- A transfer and its sweep leave no abandoned blob exactly when every one is on the first page, and
no smaller one stops the sweep. -/
theorem transferOwner_abandoned (fails : Hash → Option String) (now : ℕ) (s : BlobStore Hash Content)
    (source target : Owner) (hashes : Option (List Hash)) :
    (∀ x, (((transferOwner fails now source target hashes).run s).final s).abandoned x = false) ↔
      ∀ x, s.Abandons source target hashes x → s.rank x < inventoryLimit ∧
        ∀ y, y < x → s.Abandons source target hashes y → s.stuck y = false := by
  set t := s.transferred source target hashes with ht
  have hrun : (((transferOwner fails now source target hashes).run s).final s) =
      (((Program.forEach (t.page.map CatalogRow.hash) fun y =>
        (deleteIfUnownedWrite fails now y : StoreProgram Hash Content Unit)).run t).final t) := by
    rw [← inventory_hashes, forEach_map, transferOwner, bind_final (a := PUnit.unit) rfl, sweepWrites,
      bind_read_run]
    rfl
  have hsame := transferred_same s source target hashes
  have hrank : ∀ x, t.rank x = s.rank x := fun x => by
    rw [rank, readyRows, ht, hsame.catalog]
    rfl
  have hstuck : ∀ x, t.stuck x = s.stuck x := fun x => by
    rw [stuck, file?, referenced, ht, hsame.files, hsame.components]
    rfl
  rw [hrun]
  simp only [Bool.eq_false_iff, ne_eq, sweep_abandoned fails now t.page_sorted t, not_and,
    ← transferred_abandoned, ← ht]
  refine forall₂_congr fun x hx => ?_
  rw [← hrank, ← mem_page_hashes hx, Classical.not_imp]
  refine and_congr_right fun hpage => ?_
  push Not
  constructor
  · intro h y hlt hy hstuck'
    have hrank' := (t.rank_mono hlt.le).trans_lt ((mem_page_hashes hx).mp hpage)
    refine h y ((mem_page_hashes hy).mpr hrank') hlt ?_ ((hstuck y).trans hstuck')
    exact (Bool.and_eq_true _ _ ▸ hy).1
  · intro h y hy hlt hdrop hstuck'
    refine h y hlt ?_ ((hstuck y).symm.trans hstuck')
    obtain ⟨r, hr, rfl⟩ := List.mem_map.mp hy
    have hrow : r ∈ t.readyRows := (List.mem_insertionSort _).mp (List.mem_of_mem_take hr)
    obtain ⟨hmem, hready⟩ := List.mem_filter.mp hrow
    have hfound : t.row? r.hash = some r := Table.find?_eq_some.mpr ⟨hmem, rfl⟩
    rw [abandoned, hdrop, has, hfound]
    exact hready

end Transfer

end BlobStore

namespace Admissions

variable {Hash : Type} [LinearOrder Hash]

/-- An admission that succeeds returns the entry of its blob exactly when fewer ready blobs than the
inventory lists have a smaller hash.  A transfer leaves no abandoned blob exactly when every one is
that early, and none before it lacks its file while a route refers to it. -/
theorem catalog_size_matters (digest : List UInt8 → Hash) :
    (∀ (s : Admissions Hash) (l : AdmissionLabel Hash) (a : Admission Hash) (content : List UInt8)
        (result : Option (BlobInventoryEntry Hash)), s.promoted digest l = some (a, content) →
      (s.promotion digest l a content).result = .ok result →
        ((∃ e, result = some e ∧ e.hash = digest content ∧ e.size = content.length ∧
          e.owners = ((s.promotion digest l a content).final s.store).ownerCount (digest content)) ↔
            s.store.rank (digest content) < inventoryLimit)) ∧
      ∀ (s : BlobStore Hash (List UInt8)) (fails : Hash → Option String) (now : ℕ)
        (source target : Owner) (hashes : Option (List Hash)),
        (∀ x, (((transferOwner fails now source target hashes).run s).final s).abandoned x = false) ↔
          ∀ x, s.Abandons source target hashes x → s.rank x < inventoryLimit ∧
            ∀ y, y < x → s.Abandons source target hashes y → s.stuck y = false := by
  refine ⟨fun s l a content result _ hresult => ?_, fun s fails now source target hashes =>
    transferOwner_abandoned fails now s source target hashes⟩
  obtain ⟨r, -, hkey, hsize, hentry⟩ := promote_entry hresult
  constructor
  · rintro ⟨e, rfl, -⟩
    by_contra hrank
    rw [if_neg hrank] at hentry
    cases hentry
  · intro hrank
    rw [if_pos hrank] at hentry
    exact ⟨_, hentry, hkey, hsize, hkey ▸ rfl⟩

def ending (store : BlobStore ℕ (List UInt8)) (content : List UInt8) : Admissions ℕ :=
  ⟨store, [⟨"a", content.length, .remote, none, .streaming none content⟩], [], [], false⟩

def done : AdmissionLabel ℕ :=
  ⟨.done "a", 0, fun _ => none⟩

def twoBlobs : BlobStore ℕ (List UInt8) where
  db := { (BlobStore.empty 0 : BlobStore ℕ (List UInt8)).db with
    catalog := ⟨[⟨0, 0, .write, 0, .ready⟩, ⟨2, 2, .write, 0, .ready⟩], by decide⟩
    owners := ⟨[⟨.batch 1, 0⟩], by decide⟩ }
  files := ⟨[⟨0, []⟩, ⟨2, [1, 1]⟩], by decide⟩
  leases := fun _ => 0
  capacity := 5

theorem catalog_size_matters_two :
    (∃ e, ((ending twoBlobs [7]).promotion List.length done
        ⟨"a", 1, .remote, none, .streaming none [7]⟩ [7]).result = .ok (some e) ∧ e.hash = 1) ∧
      let t := ((transferOwner (fun _ => none) 0 (.batch 1) (.saga 1) none).run twoBlobs).final twoBlobs
      (∀ x, t.abandoned x = false) ∧ t.has 0 = true ∧ t.has 2 = false := by
  have hmatters := catalog_size_matters (List.length : List UInt8 → ℕ)
  refine ⟨?_, ?_, by decide +kernel, by decide +kernel⟩
  · obtain ⟨e, he, hhash, -⟩ := (hmatters.1 (ending twoBlobs [7]) done
      ⟨"a", 1, .remote, none, .streaming none [7]⟩ [7] (some ⟨1, 1, .remote, 0, 0⟩) (by decide +kernel)
      (by decide +kernel)).mpr (by decide +kernel)
    cases he
    exact ⟨_, by decide +kernel, hhash⟩
  · refine (hmatters.2 _ _ _ _ _ _).mpr fun x _ => ⟨?_, fun y _ _ => ?_⟩
    · have hfew : twoBlobs.rank x ≤ 2 := List.length_filter_le _ _
      exact hfew.trans_lt (by decide)
    · simp [stuck, referenced, twoBlobs, BlobStore.empty, Table.empty]

/-- A catalog of ready blobs under the numbers below `n`. -/
def crowded (n : ℕ) : BlobStore ℕ (List UInt8) :=
  { (BlobStore.empty (2 * n) : BlobStore ℕ (List UInt8)) with
    db := { (BlobStore.empty 0 : BlobStore ℕ (List UInt8)).db with
      catalog := ⟨(List.range n).map fun h => ⟨h, h, .remote, 0, .ready⟩, by
        rw [List.map_map]
        exact (List.map_id _).symm ▸ List.nodup_range⟩ } }

theorem crowded_rows (n : ℕ) : (crowded n).readyRows =
    (List.range n).map fun h => ⟨h, h, .remote, 0, .ready⟩ := by
  refine List.filter_eq_self.mpr fun r hr => ?_
  obtain ⟨h, -, rfl⟩ := List.mem_map.mp hr
  rfl

theorem crowded_rank (n : ℕ) : (crowded n).rank n = n := by
  rw [rank, crowded_rows, List.filter_eq_self.mpr, List.length_map, List.length_range]
  intro r hr
  obtain ⟨h, hh, rfl⟩ := List.mem_map.mp hr
  simpa using List.mem_range.mp hh

theorem crowded_row (n : ℕ) : (crowded n).row? n = none := by
  refine Table.find?_eq_none.mpr fun r hr hkey => ?_
  obtain ⟨h, hh, rfl⟩ := List.mem_map.mp hr
  exact absurd hkey (List.mem_range.mp hh).ne

theorem crowded_admission {content : List UInt8} (hlength : inventoryLimit ≤ content.length) :
    let s := ending (crowded content.length) content
    let a : Admission ℕ := ⟨"a", content.length, .remote, none, .streaming none content⟩
    s.promoted List.length done = some (a, content) ∧
      (s.promotion List.length done a content).result = .ok none ∧
      ((s.promotion List.length done a content).final s.store).has content.length = true := by
  intro s a
  refine ⟨by simp [promoted, done, find?, s, ending, a], ?_⟩
  have hrow : ((crowded content.length).linkFile content.length content).row? content.length = none :=
    crowded_row content.length
  have hrun : s.promotion List.length done a content = _ :=
    promote_run (crowded content.length) content .remote none "a" 0
  rw [recordReady, hrow] at hrun
  have hok := congrArg Outcome.result hrun
  obtain ⟨r, hr, hkey, -, hentry⟩ := promote_entry hok
  have hrank : ¬s.store.rank content.length < inventoryLimit :=
    (crowded_rank content.length).symm ▸ not_lt.mpr hlength
  rw [if_neg hrank] at hentry
  obtain ⟨hmem, hready⟩ := List.mem_filter.mp hr
  refine ⟨hok.trans (congrArg Except.ok hentry), ?_⟩
  have hfound := Table.find?_eq_some.mpr ⟨hmem, hkey⟩
  rw [has, row?]
  exact (congrArg (Option.any _) hfound).trans hready

/-- With ten thousand ready blobs of smaller hashes an admission stores its blob and does not return its
entry. -/
theorem admission_behind_crowd : ∃ (s : Admissions ℕ) (a : Admission ℕ) (content : List UInt8),
    s.store = crowded 10000 ∧ s.promoted List.length done = some (a, content) ∧
      (s.promotion List.length done a content).result = .ok none ∧
      ((s.promotion List.length done a content).final s.store).has 10000 = true := by
  obtain ⟨content, hlength⟩ : ∃ content : List UInt8, content.length = 10000 :=
    ⟨List.replicate 10000 0, List.length_replicate⟩
  rw [← hlength]
  exact ⟨_, _, content, rfl, crowded_admission hlength.ge⟩

end Admissions

end NixstrCache.Persistence
