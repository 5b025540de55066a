import Mathlib.Algebra.Order.BigOperators.Group.List
import Mathlib.Algebra.Order.Group.Nat
import NixstrCache.Persistence.LiveBlobs

/-!
What a reservation leaves behind when it fails.

A reservation that does not fit evicts blobs inside its transaction.  The rollback brings the rows
back, and not the files that have been removed by then.  The eviction is followed here candidate by
candidate: which blobs it gets to, what it frees, and where it gives up.
-/

namespace NixstrCache.Persistence.BlobStore

open Durable KeyedTable Program

variable {Hash Content : Type} [LinearOrder Hash]

section Candidates

variable (s : BlobStore Hash Content)

def evictees : List Hash :=
  s.evictable.filter fun h => ¬s.leased h

/-- The file is missing and a route component keeps the row. -/
def stuck (h : Hash) : Bool :=
  (s.file? h).isNone && s.referenced h

/-- An eviction for the bytes gets to the blob. -/
def Reached (required : ℕ) (h : Hash) : Prop :=
  ∃ before after, s.evictees = before ++ h :: after ∧ s.fitsWithout before required = false ∧
    ∀ b ∈ before, s.stuck b = false

theorem fits_eq (required : ℕ) : s.fits required = s.fitsWithout [] required := by
  simp only [fits, fitsWithout, List.not_mem_nil, not_false_eq_true, decide_true, List.filter_true]
  rfl

theorem fitsWithout_mono {hs hs' : List Hash} (h : hs ⊆ hs') {required : ℕ}
    (hfits : s.fitsWithout hs required = true) : s.fitsWithout hs' required = true := by
  simp only [fitsWithout, decide_eq_true_eq] at *
  have hsub : ((s.readyRows.filter fun r => r.hash ∉ hs').map CatalogRow.size).sum ≤
      ((s.readyRows.filter fun r => r.hash ∉ hs).map CatalogRow.size).sum := by
    apply List.Sublist.sum_le_sum
    · apply List.Sublist.map
      apply List.monotone_filter_right
      intro r hr
      simp only [decide_eq_true_eq] at *
      exact fun hmem => hr (h hmem)
    · intro n _
      exact Nat.zero_le n
  omega

theorem mem_evictees {h : Hash} (hh : h ∈ s.evictees) : ∃ r ∈ s.readyRows, r.hash = h := by
  have hmem := (List.mem_filter.mp hh).1
  simp only [evictable, List.mem_map] at hmem
  obtain ⟨r, hr, rfl⟩ := hmem
  have hr := (List.mem_filter.mp ((List.mem_insertionSort _).mp hr))
  simp only [decide_eq_true_eq] at hr
  exact ⟨r, List.mem_filter.mpr ⟨hr.1, by simpa using hr.2.1⟩, rfl⟩

end Candidates

section Eviction

variable {s t u : BlobStore Hash Content} {fails : Hash → Option String} {required : ℕ}

/-- What is left once an eviction has gone through the blobs. -/
structure Evicted (fails : Hash → Option String) (s : BlobStore Hash Content) (hs : List Hash)
    (t : BlobStore Hash Content) : Prop where
  files : ∀ x, t.file? x = if x ∈ hs ∧ fails x = none then none else s.file? x
  leases : t.leases = s.leases
  capacity : t.capacity = s.capacity
  reservations : t.db.reservations = s.db.reservations
  components : t.db.components = s.db.components
  ready : t.readyRows = s.readyRows.filter fun r => r.hash ∉ hs

theorem Evicted.refl (fails : Hash → Option String) (s : BlobStore Hash Content) :
    Evicted fails s [] s :=
  ⟨by simp, rfl, rfl, rfl, rfl, by simp⟩

theorem Evicted.snoc {hs : List Hash} {h : Hash} (ht : Evicted fails s hs t)
    (hu : Evicted fails t [h] u) : Evicted fails s (hs ++ [h]) u where
  files x := by
    rw [hu.files, ht.files]
    by_cases hx : x ∈ hs ∧ fails x = none
    · simp [hx.1, hx.2]
    · by_cases hxh : x = h ∧ fails x = none
      · simp [hxh.1, hxh.1 ▸ hxh.2]
      · rw [if_neg (by simpa using hxh), if_neg hx, if_neg]
        rintro ⟨hmem, hfails⟩
        rcases List.mem_append.mp hmem with hmem | hmem
        · exact hx ⟨hmem, hfails⟩
        · exact hxh ⟨by simpa using hmem, hfails⟩
  leases := hu.leases.trans ht.leases
  capacity := hu.capacity.trans ht.capacity
  reservations := hu.reservations.trans ht.reservations
  components := hu.components.trans ht.components
  ready := by
    rw [hu.ready, ht.ready, List.filter_filter]
    apply List.filter_congr
    intro r _
    by_cases h1 : r.hash ∈ hs <;> by_cases h2 : r.hash = h <;> simp [h1, h2]

theorem Evicted.fits {hs : List Hash} (ht : Evicted fails s hs t) :
    t.fits required = s.fitsWithout hs required := by
  simp only [BlobStore.fits, fitsWithout, reservedBytes, ht.reservations, ht.capacity, ← ht.ready]
  rfl

theorem Evicted.leased {hs : List Hash} (ht : Evicted fails s hs t) (h : Hash) :
    t.leased h = s.leased h := by
  simp only [BlobStore.leased, ht.leases]

theorem Evicted.referenced {hs : List Hash} (ht : Evicted fails s hs t) (h : Hash) :
    t.referenced h = s.referenced h := by
  simp only [BlobStore.referenced, ht.components]

theorem setState_readyRows (s : BlobStore Hash Content) (h : Hash) :
    (s.setState h .deleting).readyRows = s.readyRows.filter fun r => r.hash ≠ h := by
  simp only [readyRows, setState, Table.update_rows, List.filter_map, List.filter_filter]
  rw [List.map_congr_left (g := id)]
  · rw [List.map_id]
    apply List.filter_congr
    intro r _
    simp only [Function.comp_apply]
    by_cases hr : r.hash = h <;> simp [hr]
  · intro r hr
    have hr := (List.mem_filter.mp hr).2
    simp only [Function.comp_apply, decide_eq_true_eq] at hr
    by_cases hh : r.hash = h
    · simp [hh] at hr
    · simp [hh]

theorem deleteRow_readyRows (s : BlobStore Hash Content) (h : Hash) :
    (s.deleteRow h).readyRows = s.readyRows.filter fun r => r.hash ≠ h := by
  simp only [readyRows, deleteRow, Table.filter_rows, List.filter_filter]
  apply List.filter_congr
  intro r _
  rw [Bool.and_comm]

theorem setState_evicted (s : BlobStore Hash Content) {h : Hash}
    (hfile : fails h ≠ none ∨ s.file? h = none) :
    Evicted fails s [h] (s.setState h .deleting) where
  files x := by
    change s.file? x = _
    split_ifs with hx
    · obtain ⟨hx, hfails⟩ := hx
      obtain rfl : x = h := by simpa using hx
      exact hfile.resolve_left (not_not_intro hfails)
    · rfl
  leases := rfl
  capacity := rfl
  reservations := rfl
  components := rfl
  ready := by simpa using setState_readyRows s h

theorem Evicted.deleteRow {h : Hash} (ht : Evicted fails s [h] t) :
    Evicted fails s [h] (t.deleteRow h) where
  files := ht.files
  leases := ht.leases
  capacity := ht.capacity
  reservations := ht.reservations
  components := ht.components
  ready := by
    rw [deleteRow_readyRows, ht.ready, List.filter_filter]
    apply List.filter_congr
    intro r _
    simp

theorem removeFile_evicted (s : BlobStore Hash Content) {h : Hash} (hfails : fails h = none) :
    Evicted fails s [h] ((s.setState h .deleting).removeFile h) where
  files x := by
    have hfile : ((s.setState h .deleting).removeFile h).file? x =
        if x = h then none else s.file? x := Table.find?_filter_ne _ _ _
    rw [hfile]
    by_cases hx : x = h
    · simp [hx, hfails]
    · simp [hx]
  leases := rfl
  capacity := rfl
  reservations := rfl
  components := rfl
  ready := (setState_readyRows s h).trans (by simp)

theorem delete_evicted (fails : Hash → Option String) (now : ℕ) {h : Hash} (hstuck : t.stuck h = false) :
    ((delete fails now h : StoreProgram Hash Content Unit).run t).result = .ok () ∧
      Evicted fails t [h]
        (((delete fails now h : StoreProgram Hash Content Unit).run t).final t) := by
  rw [delete, bind_commit_run, bind_read_run]
  cases hremoval : (t.setState h .deleting).removal fails h with
  | removed =>
    have hfails := (removal_removed _ _ hremoval).2
    have hremoved := removeFile_evicted t hfails
    simp only [bind_commit_run]
    split_ifs
    · exact ⟨rfl, hremoved.files, hremoved.leases, hremoved.capacity, hremoved.reservations,
        hremoved.components, hremoved.ready⟩
    · have hdeleted := hremoved.deleteRow
      exact ⟨rfl, hdeleted.files, hdeleted.leases, hdeleted.capacity, hdeleted.reservations,
        hdeleted.components, hdeleted.ready⟩
  | notFound =>
    have hfile : t.file? h = none := removal_notFound _ _ hremoval
    have hreferenced : t.referenced h = false := by simpa [stuck, hfile] using hstuck
    change (t.setState h .deleting).referenced h = false at hreferenced
    simp only [hreferenced, Bool.false_eq_true, if_false]
    exact ⟨rfl, (setState_evicted t (Or.inr hfile)).deleteRow⟩
  | failed message =>
    have hfails := (removal_failed _ _ hremoval).2
    have hkept : Evicted fails t [h] (t.setState h .deleting) :=
      setState_evicted t (Or.inl (by simp [hfails]))
    exact ⟨rfl, hkept.files, hkept.leases, hkept.capacity, hkept.reservations, hkept.components,
      hkept.ready⟩

theorem delete_stuck (fails : Hash → Option String) (now : ℕ) {h : Hash} (hstuck : t.stuck h = true) :
    (∃ e, ((delete fails now h : StoreProgram Hash Content Unit).run t).result = .error e) ∧
      (((delete fails now h : StoreProgram Hash Content Unit).run t).final t).files = t.files ∧
      (((delete fails now h : StoreProgram Hash Content Unit).run t).final t).capacity =
        t.capacity := by
  simp only [stuck, Bool.and_eq_true, Option.isNone_iff_eq_none] at hstuck
  have hremoval : (t.setState h .deleting).removal fails h = .notFound := by
    have hfile : (t.setState h .deleting).file? h = none := hstuck.1
    simp [removal, hfile]
  have hreferenced : (t.setState h .deleting).referenced h = true := hstuck.2
  rw [delete, bind_commit_run, bind_read_run, hremoval]
  simp only [hreferenced, if_true]
  exact ⟨⟨_, rfl⟩, rfl, rfl⟩

theorem evictees_nodup (s : BlobStore Hash Content) : s.evictees.Nodup := by
  have hrows : (s.db.catalog.rows.map CatalogRow.hash).Nodup := s.db.catalog.unique
  refine List.Nodup.filter _ ?_
  refine ((List.perm_insertionSort _ _).map _).nodup_iff.mpr ?_
  exact hrows.sublist (List.filter_sublist.map _)

/-- How an eviction ends: it goes through a part of the candidates, all of them reached, and stops
where the bytes fit or after the last candidate, or it fails at a stuck one. -/
inductive EvictionEnd (fails : Hash → Option String) (s : BlobStore Hash Content) (required : ℕ) :
    Except Failure Unit → BlobStore Hash Content → Prop
  | through {t : BlobStore Hash Content} (visited rest : List Hash) (hsplit : s.evictees = visited ++ rest)
      (hreached : ∀ h ∈ visited, s.Reached required h) (hstuck : ∀ h ∈ visited, s.stuck h = false)
      (hrest : rest = [] ∨ s.fitsWithout visited required = true) (ht : Evicted fails s visited t) :
      EvictionEnd fails s required (.ok ()) t
  | stopped {t : BlobStore Hash Content} {e : Failure} (visited : List Hash) (h : Hash) (rest : List Hash)
      (hsplit : s.evictees = visited ++ h :: rest) (hreached : ∀ g ∈ visited, s.Reached required g)
      (hh : s.Reached required h) (hstuck : s.stuck h = true)
      (ht : ∀ x, t.file? x = if x ∈ visited ∧ fails x = none then none else s.file? x)
      (hcapacity : t.capacity = s.capacity) : EvictionEnd fails s required (.error e) t

theorem evict_end (now : ℕ) (hashes : List Hash) {visited : List Hash} (ht : Evicted fails s visited t)
    (hfits : t.fits required = false) (hreached : ∀ h ∈ visited, s.Reached required h)
    (hstuck : ∀ h ∈ visited, s.stuck h = false)
    (hsplit : s.evictees = visited ++ hashes.filter fun h => ¬s.leased h) :
    EvictionEnd fails s required
      ((evict fails now required hashes : StoreProgram Hash Content Unit).run t).result
      (((evict fails now required hashes : StoreProgram Hash Content Unit).run t).final t) := by
  induction hashes generalizing visited t with
  | nil => exact .through visited [] (by simpa using hsplit) hreached hstuck (Or.inl rfl) ht
  | cons h hashes ih =>
    simp only [evict]
    rw [bind_read_run]
    by_cases hleased : s.leased h = true
    · rw [if_pos (by rw [ht.leased]; exact hleased)]
      exact ih ht hfits hreached hstuck (by simpa [hleased] using hsplit)
    · rw [if_neg (by rw [ht.leased]; exact hleased)]
      have hsplit : s.evictees = visited ++ h :: hashes.filter fun h => ¬s.leased h := by
        simpa [hleased] using hsplit
      have hh : s.Reached required h := ⟨visited, _, hsplit, ht.fits ▸ hfits, hstuck⟩
      have hnew : h ∉ visited := by
        have hnodup := hsplit ▸ s.evictees_nodup
        exact fun hmem => List.disjoint_of_nodup_append hnodup hmem List.mem_cons_self
      have hstuck' : t.stuck h = s.stuck h := by
        simp only [stuck, ht.files, hnew, false_and, if_false, ht.referenced]
      cases hs : s.stuck h with
      | true =>
        obtain ⟨⟨e, he⟩, hfiles, hcapacity⟩ := delete_stuck fails now (hstuck'.trans hs)
        rw [bind_run_error he]
        refine .stopped visited h _ hsplit hreached hh hs (fun x => ?_) (hcapacity.trans ht.capacity)
        rw [← ht.files]
        exact congrArg (fun files => Table.find? files x) hfiles
      | false =>
        obtain ⟨hok, hevicted⟩ := delete_evicted fails now (hstuck'.trans hs)
        have hu := ht.snoc hevicted
        have hreached' : ∀ g ∈ visited ++ [h], s.Reached required g := by
          intro g hg
          rcases List.mem_append.mp hg with hg | hg
          · exact hreached g hg
          · exact List.mem_singleton.mp hg ▸ hh
        have hstuckAll : ∀ g ∈ visited ++ [h], s.stuck g = false := by
          intro g hg
          rcases List.mem_append.mp hg with hg | hg
          · exact hstuck g hg
          · exact List.mem_singleton.mp hg ▸ hs
        have hsplit' : s.evictees = (visited ++ [h]) ++ hashes.filter fun h => ¬s.leased h := by
          rw [hsplit]
          simp
        rw [bind_final hok, bind_run_ok hok, bind_read_run]
        split_ifs with hfit
        · exact .through _ _ hsplit' hreached' hstuckAll (Or.inr (hu.fits ▸ hfit)) hu
        · exact ih hu (by simpa using hfit) hreached' hstuckAll hsplit'

theorem reached_of_split {visited rest : List Hash} {h : Hash} (hsplit : s.evictees = visited ++ rest)
    (hh : s.Reached required h) : h ∈ visited ∨ s.fitsWithout visited required = false ∧
      ∃ before after, rest = before ++ h :: after ∧ ∀ b ∈ before, s.stuck b = false := by
  obtain ⟨before, after, hbefore, hfits, hstuck⟩ := hh
  rcases List.append_eq_append_iff.mp (hsplit.symm.trans hbefore) with
    ⟨middle, rfl, hrest⟩ | ⟨middle, rfl, hrest⟩
  · refine Or.inr ⟨?_, middle, after, hrest, fun b hb => hstuck b (List.mem_append_right _ hb)⟩
    by_contra hfit
    have hfit := s.fitsWithout_mono (List.subset_append_left visited middle)
      (Bool.eq_true_of_not_eq_false hfit)
    rw [hfits] at hfit
    cases hfit
  · cases middle with
    | nil =>
      refine Or.inr ⟨by simpa using hfits, [], after, by simpa using hrest.symm, by simp⟩
    | cons g middle =>
      obtain ⟨rfl, -⟩ := List.cons_eq_cons.mp hrest
      exact Or.inl (by simp)

namespace EvictionEnd

variable {r : Except Failure Unit} {e : Failure}

theorem files (h : EvictionEnd fails s required r t) : ∃ visited : List Hash,
    (∀ g ∈ visited, s.Reached required g) ∧
      (∀ g, s.Reached required g → g ∈ visited ∨ s.stuck g = true) ∧
      ∀ x, t.file? x = if x ∈ visited ∧ fails x = none then none else s.file? x := by
  cases h with
  | through visited rest hsplit hreached hstuck hrest ht =>
    refine ⟨visited, hreached, fun g hg => Or.inl ?_, ht.files⟩
    rcases reached_of_split hsplit hg with hg | ⟨hfits, before, after, hrest', -⟩
    · exact hg
    · rcases hrest with rfl | hfit
      · simp at hrest'
      · rw [hfits] at hfit
        cases hfit
  | stopped visited h rest hsplit hreached hh hstuck ht hcapacity =>
    refine ⟨visited, hreached, fun g hg => ?_, ht⟩
    rcases reached_of_split hsplit hg with hg | ⟨-, before, after, hrest, hbefore⟩
    · exact Or.inl hg
    · cases before with
      | nil =>
        obtain ⟨rfl, -⟩ := List.cons_eq_cons.mp hrest
        exact Or.inr hstuck
      | cons b before =>
        obtain ⟨rfl, -⟩ := List.cons_eq_cons.mp hrest
        rw [hbefore h List.mem_cons_self] at hstuck
        cases hstuck

theorem fits (h : EvictionEnd fails s required (.ok ()) t) :
    t.fits required = s.fitsWithout s.evictees required := by
  cases h with
  | through visited rest hsplit hreached hstuck hrest ht =>
    rw [ht.fits]
    rcases hrest with rfl | hfit
    · rw [hsplit, List.append_nil]
    · rw [hfit, s.fitsWithout_mono (hsplit ▸ List.subset_append_left visited rest) hfit]

theorem capacity (h : EvictionEnd fails s required r t) : t.capacity = s.capacity := by
  cases h with
  | through visited rest hsplit hreached hstuck hrest ht => exact ht.capacity
  | stopped visited h rest hsplit hreached hh hstuck ht hcapacity => exact hcapacity

theorem reservations (h : EvictionEnd fails s required (.ok ()) t) :
    t.db.reservations = s.db.reservations := by
  cases h with
  | through visited rest hsplit hreached hstuck hrest ht => exact ht.reservations

theorem error (h : EvictionEnd fails s required (.error e) t) :
    ∃ g, s.Reached required g ∧ s.stuck g = true := by
  cases h with
  | stopped visited h rest hsplit hreached hh hstuck ht hcapacity => exact ⟨h, hh, hstuck⟩

theorem ok (h : EvictionEnd fails s required (.ok ()) t) {g : Hash} (hg : s.Reached required g) :
    s.stuck g = false := by
  cases h with
  | through visited rest hsplit hreached hstuck hrest ht =>
    rcases reached_of_split hsplit hg with hg | ⟨hfits, before, after, hrest', -⟩
    · exact hstuck g hg
    · rcases hrest with rfl | hfit
      · simp at hrest'
      · rw [hfits] at hfit
        cases hfit

end EvictionEnd

theorem makeSpace_end (fails : Hash → Option String) (now required : ℕ)
    (s : BlobStore Hash Content) : EvictionEnd fails s required
      ((makeSpace fails now required : StoreProgram Hash Content Unit).run s).result
      (((makeSpace fails now required : StoreProgram Hash Content Unit).run s).final s) := by
  rw [makeSpace, bind_read_run]
  split_ifs with hfits
  · exact .through [] s.evictees rfl (by simp) (by simp) (Or.inr (s.fits_eq required ▸ hfits))
      (.refl fails s)
  · exact evict_end now s.evictable (.refl fails s) (by simpa using hfits) (by simp) (by simp) rfl

end Eviction

section Reservations

variable (length : Content → ℕ)

/-- `reserve` with the check of its argument: `Number.isSafeInteger(bytes)` and no negative number. -/
def reserveBytes (fails : Hash → Option String) (token : String) (bytes : ℤ) (now : ℕ) :
    StoreProgram Hash Content Unit :=
  if bytes < 0 ∨ 2 ^ 53 - 1 < bytes then Program.throw (.rangeError "invalid blob reservation")
  else reserve fails token bytes.toNat now

/-- The argument passes the checks of `reserve`. -/
def reservable (s : BlobStore Hash Content) (bytes : ℤ) : Bool :=
  0 ≤ bytes ∧ bytes ≤ 2 ^ 53 - 1 ∧ bytes ≤ s.capacity

/-- What forbids a reservation: its argument, a deletion that fails on the way, too little to evict,
or a token in use. -/
def Refused (s : BlobStore Hash Content) (token : String) (bytes : ℤ) : Prop :=
  s.reservable bytes = false ∨ (∃ h, s.Reached bytes.toNat h ∧ s.stuck h = true) ∨
    s.fitsWithout s.evictees bytes.toNat = false ∨ s.db.reservations.has token = true

/-- The file of the row is there with the recorded size. -/
def readable (s : BlobStore Hash Content) (r : CatalogRow Hash) : Bool :=
  (s.file? r.hash).any fun f => length f.content = r.size

/-- Every ready blob is still ready and readable, and the usage is the same. -/
structure Kept (s t : BlobStore Hash Content) : Prop where
  ready : ∀ r ∈ s.readyRows, r ∈ t.readyRows ∧ t.readable length r = true
  readyBytes : t.readyBytes = s.readyBytes
  reservedBytes : t.reservedBytes = s.reservedBytes
  capacity : t.capacity = s.capacity

variable {length : Content → ℕ} {s t : BlobStore Hash Content} {fails : Hash → Option String}
  {token : String} {now : ℕ}

def reserving (fails : Hash → Option String) (token : String) (bytes now : ℕ) :
    StoreProgram Hash Content Unit :=
  makeSpace fails now bytes >>= fun _ => insertReservation token bytes now

omit [LinearOrder Hash] in
theorem insertReservation_error (now : ℕ) {bytes : ℕ}
    (h : t.fits bytes = false ∨ t.db.reservations.has token = true) :
    ∃ e, (insertReservation token bytes now : StoreProgram Hash Content Unit).run t =
      ⟨[], .error e⟩ := by
  by_cases hfits : t.fits bytes = true
  · have hused : t.db.reservations.has token = true := h.resolve_left (by simp [hfits])
    have hinsert : t.db.reservations.insert? ⟨token, bytes, now⟩ = none :=
      Table.insert?_eq_none.mpr (Table.has_iff.mp hused)
    refine ⟨.uniqueConstraint, transaction_run_error ?_⟩
    simp only [hfits, if_true, hinsert]
  · exact ⟨_, transaction_run_error (if_neg hfits)⟩

omit [LinearOrder Hash] in
theorem insertReservation_ok {bytes : ℕ} (hfits : t.fits bytes = true)
    (hunused : t.db.reservations.has token = false) :
    ((insertReservation token bytes now : StoreProgram Hash Content Unit).run t).result =
      .ok () := by
  cases hinsert : t.db.reservations.insert? ⟨token, bytes, now⟩ with
  | none =>
    have hused := Table.has_iff.mpr (Table.insert?_eq_none.mp hinsert)
    rw [hunused] at hused
    cases hused
  | some reservations =>
    rw [insertReservation, transaction_run_ok]
    simp only [hfits, if_true, hinsert]
    rfl

theorem reserving_cases (fails : Hash → Option String) (token : String) (bytes now : ℕ)
    (s : BlobStore Hash Content) :
    (((reserving fails token bytes now).run s).result = .ok () ∧
        (∀ h, s.Reached bytes h → s.stuck h = false) ∧
        s.fitsWithout s.evictees bytes = true ∧ s.db.reservations.has token = false) ∨
      ∃ e, ((reserving fails token bytes now).run s).result = .error e ∧
        ((reserving fails token bytes now).run s).final s =
          ((makeSpace fails now bytes).run s).final s ∧
        ((∃ h, s.Reached bytes h ∧ s.stuck h = true) ∨ s.fitsWithout s.evictees bytes = false ∨
          s.db.reservations.has token = true) := by
  have hend := makeSpace_end fails now bytes s
  unfold reserving
  cases hspace : ((makeSpace fails now bytes : StoreProgram Hash Content Unit).run s).result with
  | error e =>
    rw [hspace] at hend
    rw [bind_run_error hspace]
    exact Or.inr ⟨e, rfl, rfl, Or.inl hend.error⟩
  | ok a =>
    rw [hspace] at hend
    rw [bind_final hspace, bind_run_ok hspace]
    by_cases hrefused : s.fitsWithout s.evictees bytes = false ∨ s.db.reservations.has token = true
    · have hrefused' := hrefused
      rw [← hend.fits, ← hend.reservations] at hrefused'
      obtain ⟨e, he⟩ := insertReservation_error now hrefused'
      rw [he]
      exact Or.inr ⟨e, rfl, rfl, Or.inr hrefused⟩
    · push Not at hrefused
      obtain ⟨hfits, hunused⟩ := hrefused
      have hfits : s.fitsWithout s.evictees bytes = true := by simpa using hfits
      have hunused : s.db.reservations.has token = false := by simpa using hunused
      exact Or.inl ⟨insertReservation_ok (by rw [hend.fits, hfits])
        (by rw [hend.reservations, hunused]), fun h hh => hend.ok hh, hfits, hunused⟩

/-- A state with the rows of `s` keeps what `s` has exactly if the files are readable. -/
theorem kept_rollback_iff : Kept length s (s.rollback t) ↔ t.capacity = s.capacity ∧
    ∀ r ∈ s.readyRows, t.readable length r = true := by
  constructor
  · intro h
    exact ⟨h.capacity, fun r hr => (h.ready r hr).2⟩
  · rintro ⟨hcapacity, h⟩
    exact ⟨fun r hr => ⟨hr, h r hr⟩, rfl, rfl, hcapacity⟩

theorem EvictionEnd.files_kept {required : ℕ} {r : Except Failure Unit}
    (h : EvictionEnd fails s required r t) (hfails : ∀ g, s.Reached required g → fails g ≠ none)
    (x : Hash) : t.file? x = s.file? x := by
  obtain ⟨visited, hvisited, -, hfiles⟩ := h.files
  rw [hfiles, if_neg]
  rintro ⟨hx, hnone⟩
  exact hfails x (hvisited x hx) hnone

/-- When every ready blob is readable after an eviction, it was before, and the eviction has reached
no file that can be removed. -/
theorem EvictionEnd.files_lost {required : ℕ} {r : Except Failure Unit}
    (h : EvictionEnd fails s required r t) (hkept : ∀ r ∈ s.readyRows, t.readable length r = true) :
    (∀ r ∈ s.readyRows, s.readable length r = true) ∧
      ∀ g, s.Reached required g → fails g ≠ none := by
  obtain ⟨visited, -, hreached, hfiles⟩ := h.files
  have hreadable : ∀ r ∈ s.readyRows, s.readable length r = true := by
    intro r hr
    have hr := hkept r hr
    unfold readable at *
    rw [hfiles] at hr
    split_ifs at hr
    · simp at hr
    · exact hr
  refine ⟨hreadable, fun g hg hnone => ?_⟩
  obtain ⟨before, after, hsplit, -, -⟩ := id hg
  obtain ⟨r, hr, rfl⟩ := s.mem_evictees (hsplit ▸ List.mem_append_right _ List.mem_cons_self)
  rcases hreached _ hg with hmem | hstuck
  · have hr := hkept r hr
    rw [readable, hfiles, if_pos ⟨hmem, hnone⟩] at hr
    simp at hr
  · have hr := hreadable r hr
    simp only [stuck, Bool.and_eq_true, Option.isNone_iff_eq_none] at hstuck
    rw [readable, hstuck.1] at hr
    simp at hr

theorem reserveBytes_unreservable {bytes : ℤ} (h : s.reservable bytes = false) :
    (reserveBytes fails token bytes now).run s =
      ⟨[], .error (.rangeError "invalid blob reservation")⟩ := by
  unfold reserveBytes
  split_ifs with hbytes
  · rfl
  · have hcapacity : s.capacity < bytes.toNat := by
      simp only [reservable, decide_eq_false_iff_not] at h
      omega
    rw [reserve, bind_read_run, if_pos hcapacity]
    rfl

theorem reserveBytes_reservable {bytes : ℤ} (h : s.reservable bytes = true) :
    (reserveBytes fails token bytes now).run s =
      (atomically rollback (reserving fails token bytes.toNat now)).run s := by
  simp only [reservable, decide_eq_true_eq] at h
  rw [reserveBytes, if_neg (by omega), reserve, bind_read_run, if_neg (by omega)]
  rfl

/-- What a failed reservation keeps: it is atomic exactly if it is not refused, or every ready blob was
readable before and no file of the candidates that its eviction reaches can be removed. -/
theorem failed_reservation_atomic (s : BlobStore Hash Content) (fails : Hash → Option String)
    (token : String) (bytes : ℤ) (now : ℕ) :
    (∀ e, ((reserveBytes fails token bytes now).run s).result = .error e →
        Kept length s (((reserveBytes fails token bytes now).run s).final s)) ↔
      (s.Refused token bytes → (∀ r ∈ s.readyRows, s.readable length r = true) ∧
        (s.reservable bytes = true → ∀ h, s.Reached bytes.toNat h → fails h ≠ none)) := by
  cases hbytes : s.reservable bytes with
  | false =>
    have hsame : Kept length s s ↔ ∀ r ∈ s.readyRows, s.readable length r = true :=
      kept_rollback_iff.trans ⟨And.right, fun h => ⟨rfl, h⟩⟩
    rw [reserveBytes_unreservable hbytes]
    change (∀ e, _ → Kept length s s) ↔ _
    rw [hsame]
    exact ⟨fun h _ => ⟨h _ rfl, fun hfalse => nomatch hfalse⟩, fun h _ _ => (h (Or.inl hbytes)).1⟩
  | true =>
    have hend := makeSpace_end fails now bytes.toNat s
    rw [reserveBytes_reservable hbytes]
    rcases reserving_cases fails token bytes.toNat now s with
      ⟨hok, hstuck, hfits, hunused⟩ | ⟨e, he, hfinal, hrefused⟩
    · rw [atomically_run_ok hok]
      refine ⟨fun _ hrefused => ?_, fun _ e he => nomatch he⟩
      rcases hrefused with hfalse | ⟨h, hh, hstuckh⟩ | hnot | hused
      · rw [hbytes] at hfalse
        cases hfalse
      · rw [hstuck h hh] at hstuckh
        cases hstuckh
      · rw [hfits] at hnot
        cases hnot
      · rw [hunused] at hused
        cases hused
    · have hafter : ((atomically rollback (reserving fails token bytes.toNat now)).run s).final s =
          s.rollback (((makeSpace fails now bytes.toNat).run s).final s) := by
        rw [← hfinal, atomically_run_error he]
        exact List.getLastD_map ..
      rw [hafter, kept_rollback_iff, atomically_run_error he]
      constructor
      · intro h _
        obtain ⟨hreadable, hfails⟩ := hend.files_lost (h e rfl).2
        exact ⟨hreadable, fun _ => hfails⟩
      · intro h _ _
        obtain ⟨hreadable, hfails⟩ := h (Or.inr hrefused)
        refine ⟨hend.capacity, fun r hr => ?_⟩
        have hr := hreadable r hr
        unfold readable at *
        rwa [hend.files_kept (hfails rfl)]

/-- Two blobs are cached and the newer one is looked up, which leases it. -/
def leasedStore : BlobStore ℕ (List ℕ) :=
  Runs.run (blobStep radixDigest List.length) (empty 4)
    [⟨.promote [7, 7] .remote none "a", 1, fun _ => none, none⟩,
      ⟨.promote [8, 8] .remote none "b", 2, fun _ => none, none⟩,
      ⟨.lookup (radixDigest [8, 8]), 3, fun _ => none, none⟩]

/-- The blob without a lease is evicted for a reservation that fails all the same. -/
theorem evicted_file_lost : ¬∀ e,
    ((reserveBytes (fun _ => none) "t" 3 4).run leasedStore).result = .error e →
      Kept List.length leasedStore
        (((reserveBytes (fun _ => none) "t" 3 4).run leasedStore).final leasedStore) := by
  intro h
  have hkept := h (.rangeError "blob store capacity unavailable") (by decide +kernel)
  have hfirst := (hkept.ready ⟨radixDigest [7, 7], 2, .remote, 1, .ready⟩ (by decide +kernel)).2
  revert hfirst
  decide +kernel

end Reservations

end NixstrCache.Persistence.BlobStore
