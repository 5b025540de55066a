import Mathlib.Algebra.BigOperators.Group.List.Lemmas
import Mathlib.Algebra.GroupWithZero.Nat
import Mathlib.Data.List.Basic
import Mathlib.Data.List.Nodup
import Mathlib.Tactic.SplitIfs

/-!
Tables of rows under a primary key.

A table is the list of its rows in insertion order together with the proof that no key occurs
twice, so that a violated primary key is not a state.  The operations follow the statements of a
relational database: a plain insertion fails on a present key, the "or ignore" form drops the row,
the "or replace" form removes the row in the way, and an update rewrites columns that are not part
of the key.
-/

namespace NixstrCache.KeyedTable

variable {ρ κ : Type*} {key : ρ → κ}

structure Table (key : ρ → κ) where
  rows : List ρ
  unique : (rows.map key).Nodup

namespace Table

@[ext]
theorem ext {t u : Table key} (h : t.rows = u.rows) : t = u := by
  cases t
  cases u
  simpa using h

instance [DecidableEq ρ] : DecidableEq (Table key) := fun t u =>
  decidable_of_iff (t.rows = u.rows) ⟨ext, fun h => by rw [h]⟩

def empty : Table key := ⟨[], List.nodup_nil⟩

instance : Inhabited (Table key) := ⟨empty⟩

@[simp]
theorem empty_rows : (empty : Table key).rows = [] :=
  rfl

theorem eq_of_key {t : Table key} {r s : ρ} (hr : r ∈ t.rows) (hs : s ∈ t.rows)
    (h : key r = key s) : r = s :=
  List.inj_on_of_nodup_map t.unique hr hs h

theorem nodup_rows (t : Table key) : t.rows.Nodup :=
  List.Nodup.of_map key t.unique

def filter (t : Table key) (keep : ρ → Bool) : Table key where
  rows := t.rows.filter keep
  unique := (List.filter_sublist.map key).nodup t.unique

@[simp]
theorem filter_rows (t : Table key) (keep : ρ → Bool) :
    (t.filter keep).rows = t.rows.filter keep :=
  rfl

theorem mem_filter {t : Table key} {keep : ρ → Bool} {r : ρ} :
    r ∈ (t.filter keep).rows ↔ r ∈ t.rows ∧ keep r = true := by
  simp

/-- Rewriting columns outside the key, as an update statement does. -/
def update (t : Table key) (f : ρ → ρ) (hf : ∀ r, key (f r) = key r) : Table key where
  rows := t.rows.map f
  unique := by
    have hmap : (t.rows.map f).map key = t.rows.map key := by
      simp [List.map_map, Function.comp_def, hf]
    rw [hmap]
    exact t.unique

@[simp]
theorem update_rows (t : Table key) (f : ρ → ρ) (hf : ∀ r, key (f r) = key r) :
    (t.update f hf).rows = t.rows.map f :=
  rfl

theorem mem_update {t : Table key} {f : ρ → ρ} {hf : ∀ r, key (f r) = key r} {r : ρ} :
    r ∈ (t.update f hf).rows ↔ ∃ s ∈ t.rows, f s = r := by
  simp

section Keys

variable [DecidableEq κ]

def find? (t : Table key) (k : κ) : Option ρ :=
  t.rows.find? fun r => key r = k

theorem find?_eq_some {t : Table key} {k : κ} {r : ρ} :
    t.find? k = some r ↔ r ∈ t.rows ∧ key r = k := by
  constructor
  · intro h
    exact ⟨List.mem_of_find?_eq_some h, by simpa using List.find?_some h⟩
  · rintro ⟨hr, hk⟩
    cases h : t.find? k with
    | none =>
      have hnone := List.find?_eq_none.mp h r hr
      simp [hk] at hnone
    | some s =>
      have hs : s ∈ t.rows := List.mem_of_find?_eq_some h
      have hsk : key s = k := by simpa using List.find?_some h
      rw [eq_of_key hs hr (hsk.trans hk.symm)]

theorem find?_eq_none {t : Table key} {k : κ} :
    t.find? k = none ↔ ∀ r ∈ t.rows, key r ≠ k := by
  simp [find?, List.find?_eq_none]

theorem find?_key {t : Table key} {r : ρ} (hr : r ∈ t.rows) : t.find? (key r) = some r :=
  find?_eq_some.mpr ⟨hr, rfl⟩

theorem mem_iff_find? {t : Table key} {r : ρ} : r ∈ t.rows ↔ t.find? (key r) = some r := by
  rw [find?_eq_some, and_iff_left rfl]

def has (t : Table key) (k : κ) : Bool :=
  (t.find? k).isSome

theorem has_iff {t : Table key} {k : κ} : t.has k = true ↔ ∃ r ∈ t.rows, key r = k := by
  simp [has, find?]

theorem has_eq_false {t : Table key} {k : κ} : t.has k = false ↔ ∀ r ∈ t.rows, key r ≠ k := by
  rw [← Bool.not_eq_true, has_iff]
  push Not
  rfl

@[simp]
theorem find?_empty (k : κ) : (empty : Table key).find? k = none :=
  rfl

theorem find?_congr {t u : Table key} {k : κ}
    (h : ∀ r, key r = k → (r ∈ t.rows ↔ r ∈ u.rows)) : t.find? k = u.find? k := by
  cases hu : u.find? k with
  | none =>
    rw [find?_eq_none] at hu ⊢
    exact fun r hr hk => hu r ((h r hk).mp hr) hk
  | some r =>
    obtain ⟨hr, hk⟩ := find?_eq_some.mp hu
    exact find?_eq_some.mpr ⟨(h r hk).mpr hr, hk⟩

theorem find?_filter (t : Table key) (keep : ρ → Bool) (k : κ) :
    (t.filter keep).find? k = (t.find? k).filter keep := by
  cases h : t.find? k with
  | none =>
    rw [Option.filter_none, find?_eq_none]
    rw [find?_eq_none] at h
    exact fun r hr => h r (mem_filter.mp hr).1
  | some r =>
    obtain ⟨hr, hk⟩ := find?_eq_some.mp h
    by_cases hkeep : keep r = true
    · rw [Option.filter_some_pos hkeep]
      exact find?_eq_some.mpr ⟨mem_filter.mpr ⟨hr, hkeep⟩, hk⟩
    · rw [Option.filter_some_neg (by simpa using hkeep), find?_eq_none]
      intro q hq hqk
      obtain ⟨hq, hqkeep⟩ := mem_filter.mp hq
      rw [eq_of_key hq hr (hqk.trans hk.symm)] at hqkeep
      exact hkeep hqkeep

theorem find?_update (t : Table key) (f : ρ → ρ) (hf : ∀ r, key (f r) = key r) (k : κ) :
    (t.update f hf).find? k = (t.find? k).map f := by
  cases h : t.find? k with
  | none =>
    rw [Option.map_none, find?_eq_none]
    rw [find?_eq_none] at h
    intro r hr
    obtain ⟨q, hq, rfl⟩ := mem_update.mp hr
    rw [hf]
    exact h q hq
  | some r =>
    obtain ⟨hr, hk⟩ := find?_eq_some.mp h
    exact find?_eq_some.mpr ⟨mem_update.mpr ⟨r, hr, rfl⟩, (hf r).trans hk⟩

theorem find?_updateAt (t : Table key) (g : ρ → ρ) (k : κ)
    (hf : ∀ r, key (if key r = k then g r else r) = key r) (x : κ) :
    (t.update (fun r => if key r = k then g r else r) hf).find? x =
      if x = k then (t.find? k).map g else t.find? x := by
  rw [find?_update]
  split_ifs with hx
  · subst hx
    cases h : t.find? x with
    | none => rfl
    | some r => simp [(find?_eq_some.mp h).2]
  · cases h : t.find? x with
    | none => rfl
    | some r => simp [(find?_eq_some.mp h).2, hx]

theorem find?_filter_ne (t : Table key) (k x : κ) :
    (t.filter fun r => key r ≠ k).find? x = if x = k then none else t.find? x := by
  rw [find?_filter]
  split_ifs with hx
  · subst hx
    cases h : t.find? x with
    | none => rfl
    | some r => simp [Option.filter, (find?_eq_some.mp h).2]
  · cases h : t.find? x with
    | none => rfl
    | some r => simp [Option.filter, (find?_eq_some.mp h).2, hx]

def insert? (t : Table key) (r : ρ) : Option (Table key) :=
  if h : t.has (key r) = true then none
  else some
    { rows := t.rows ++ [r]
      unique := by
        have hfresh := has_eq_false.mp (Bool.not_eq_true _ ▸ h)
        rw [List.map_append, List.nodup_append]
        refine ⟨t.unique, by simp, ?_⟩
        simp only [List.mem_map, List.map_cons, List.map_nil, List.mem_singleton]
        rintro _ ⟨s, hs, rfl⟩ _ rfl
        exact hfresh s hs }

theorem insert?_eq_some {t u : Table key} {r : ρ} :
    t.insert? r = some u ↔ (∀ s ∈ t.rows, key s ≠ key r) ∧ u.rows = t.rows ++ [r] := by
  rw [← has_eq_false]
  unfold insert?
  by_cases h : t.has (key r) = true
  · simp [h]
  · rw [dif_neg h]
    simp only [Option.some.injEq, Bool.not_eq_true _ ▸ h, true_and]
    exact ⟨fun hu => by rw [← hu], fun hu => ext hu.symm⟩

theorem insert?_eq_none {t : Table key} {r : ρ} :
    t.insert? r = none ↔ ∃ s ∈ t.rows, key s = key r := by
  rw [← has_iff]
  unfold insert?
  by_cases h : t.has (key r) = true <;> simp [h]

theorem find?_insert? {t u : Table key} {r : ρ} (h : t.insert? r = some u) (k : κ) :
    u.find? k = if key r = k then some r else t.find? k := by
  obtain ⟨-, hu⟩ := insert?_eq_some.mp h
  split_ifs with hk
  · exact find?_eq_some.mpr ⟨by simp [hu], hk⟩
  · refine find?_congr fun s hs => ?_
    rw [hu, List.mem_append, List.mem_singleton]
    refine ⟨fun hmem => hmem.resolve_right ?_, Or.inl⟩
    rintro rfl
    exact hk hs

/-- The rows of a select statement inserted one by one; one conflict fails the statement. -/
def insertAll? (t : Table key) : List ρ → Option (Table key)
  | [] => some t
  | r :: rs => (t.insert? r).bind fun u => u.insertAll? rs

@[simp]
theorem insertAll?_nil (t : Table key) : t.insertAll? [] = some t :=
  rfl

theorem insertAll?_rows {t u : Table key} {rs : List ρ} (h : t.insertAll? rs = some u) :
    u.rows = t.rows ++ rs := by
  induction rs generalizing t with
  | nil => simp_all [insertAll?]
  | cons r rs ih =>
    obtain ⟨v, hv, hu⟩ := Option.bind_eq_some_iff.mp h
    rw [ih hu, (insert?_eq_some.mp hv).2]
    simp

theorem insertAll?_isSome {t : Table key} {rs : List ρ} :
    (t.insertAll? rs).isSome ↔
      (rs.map key).Nodup ∧ ∀ r ∈ rs, ∀ s ∈ t.rows, key s ≠ key r := by
  constructor
  · intro h
    obtain ⟨u, hu⟩ := Option.isSome_iff_exists.mp h
    have hunique := u.unique
    rw [insertAll?_rows hu, List.map_append, List.nodup_append] at hunique
    refine ⟨hunique.2.1, fun r hr s hs hk => ?_⟩
    exact hunique.2.2 _ (List.mem_map_of_mem hs) _ (List.mem_map_of_mem hr) hk
  · rintro ⟨hnodup, hfresh⟩
    induction rs generalizing t with
    | nil => simp
    | cons r rs ih =>
      rw [List.map_cons, List.nodup_cons] at hnodup
      obtain ⟨hr, hrs⟩ := List.forall_mem_cons.mp hfresh
      obtain ⟨u, hu⟩ : ∃ u, t.insert? r = some u := by
        cases h : t.insert? r with
        | none =>
          obtain ⟨s, hs, hk⟩ := insert?_eq_none.mp h
          exact absurd hk (hr s hs)
        | some u => exact ⟨u, rfl⟩
      rw [insertAll?, hu, Option.bind_some]
      refine ih hnodup.2 fun q hq s hs => ?_
      rw [(insert?_eq_some.mp hu).2, List.mem_append, List.mem_singleton] at hs
      rcases hs with hs | rfl
      · exact hrs q hq s hs
      · exact fun hk => hnodup.1 (hk ▸ List.mem_map_of_mem hq)

def insertOrIgnore (t : Table key) (r : ρ) : Table key :=
  (t.insert? r).getD t

theorem mem_insertOrIgnore {t : Table key} {r s : ρ} :
    s ∈ (t.insertOrIgnore r).rows ↔ s ∈ t.rows ∨ s = r ∧ ∀ q ∈ t.rows, key q ≠ key r := by
  unfold insertOrIgnore
  cases h : t.insert? r with
  | none =>
    obtain ⟨q, hq, hk⟩ := insert?_eq_none.mp h
    simp only [Option.getD_none]
    exact ⟨Or.inl, fun hs => hs.resolve_right fun hnew => hnew.2 q hq hk⟩
  | some u =>
    obtain ⟨hfresh, hu⟩ := insert?_eq_some.mp h
    rw [Option.getD_some, hu, List.mem_append, List.mem_singleton, and_iff_left hfresh]

theorem find?_insertOrIgnore (t : Table key) (r : ρ) (k : κ) :
    (t.insertOrIgnore r).find? k =
      (t.find? k).or (if key r = k then some r else none) := by
  cases h : t.find? k with
  | some s =>
    obtain ⟨hs, hk⟩ := find?_eq_some.mp h
    exact find?_eq_some.mpr ⟨mem_insertOrIgnore.mpr (Or.inl hs), hk⟩
  | none =>
    rw [find?_eq_none] at h
    rw [Option.none_or]
    split_ifs with hk
    · subst hk
      exact find?_eq_some.mpr ⟨mem_insertOrIgnore.mpr (Or.inr ⟨rfl, h⟩), rfl⟩
    · rw [find?_eq_none]
      intro s hs
      rcases mem_insertOrIgnore.mp hs with hs | ⟨rfl, -⟩
      · exact h s hs
      · exact hk

theorem has_insertOrIgnore {t : Table key} {r : ρ} {k : κ} :
    (t.insertOrIgnore r).has k = true ↔ t.has k = true ∨ k = key r := by
  simp only [has_iff, mem_insertOrIgnore]
  constructor
  · rintro ⟨s, hs | ⟨rfl, -⟩, rfl⟩
    · exact Or.inl ⟨s, hs, rfl⟩
    · exact Or.inr rfl
  · rintro (⟨s, hs, hk⟩ | rfl)
    · exact ⟨s, Or.inl hs, hk⟩
    · by_cases h : ∃ s ∈ t.rows, key s = key r
      · obtain ⟨s, hs, hk⟩ := h
        exact ⟨s, Or.inl hs, hk⟩
      · push Not at h
        exact ⟨r, Or.inr ⟨rfl, h⟩, rfl⟩

def insertAllOrIgnore (t : Table key) (rs : List ρ) : Table key :=
  rs.foldl insertOrIgnore t

theorem subset_insertAllOrIgnore {t : Table key} {rs : List ρ} {r : ρ} (hr : r ∈ t.rows) :
    r ∈ (t.insertAllOrIgnore rs).rows := by
  induction rs generalizing t with
  | nil => exact hr
  | cons q rs ih => exact ih (mem_insertOrIgnore.mpr (Or.inl hr))

theorem mem_of_mem_insertAllOrIgnore {t : Table key} {rs : List ρ} {r : ρ}
    (hr : r ∈ (t.insertAllOrIgnore rs).rows) : r ∈ t.rows ∨ r ∈ rs := by
  induction rs generalizing t with
  | nil => exact Or.inl hr
  | cons q rs ih =>
    rcases ih (t := t.insertOrIgnore q) hr with h | h
    · rcases mem_insertOrIgnore.mp h with h | ⟨rfl, -⟩
      · exact Or.inl h
      · simp
    · simp [h]

theorem has_insertAllOrIgnore {t : Table key} {l : List ρ} {k : κ} :
    (t.insertAllOrIgnore l).has k = true ↔ t.has k = true ∨ ∃ r ∈ l, key r = k := by
  induction l generalizing t with
  | nil => simp [insertAllOrIgnore]
  | cons q l ih =>
    have hstep := ih (t := t.insertOrIgnore q)
    rw [has_insertOrIgnore] at hstep
    refine hstep.trans ?_
    simp only [List.mem_cons, exists_eq_or_imp, eq_comm (a := k), or_assoc]

def insertOrReplace (t : Table key) (r : ρ) : Table key where
  rows := t.rows.filter (fun s => key s ≠ key r) ++ [r]
  unique := by
    rw [List.map_append, List.nodup_append]
    refine ⟨(List.filter_sublist.map key).nodup t.unique, by simp, ?_⟩
    simp only [List.mem_map, List.mem_filter, decide_eq_true_eq, List.map_cons, List.map_nil,
      List.mem_singleton]
    rintro _ ⟨s, ⟨-, hs⟩, rfl⟩ _ rfl
    exact hs

theorem find?_insertOrReplace (t : Table key) (r : ρ) (k : κ) :
    (t.insertOrReplace r).find? k = if key r = k then some r else t.find? k := by
  split_ifs with hk
  · exact find?_eq_some.mpr ⟨by simp [insertOrReplace], hk⟩
  · refine find?_congr fun s hs => ?_
    simp only [insertOrReplace, List.mem_append, List.mem_filter, List.mem_singleton,
      decide_eq_true_eq]
    constructor
    · rintro (⟨h, -⟩ | rfl)
      · exact h
      · exact absurd hs hk
    · exact fun h => Or.inl ⟨h, fun he => hk (he.symm.trans hs)⟩

theorem mem_insertOrReplace {t : Table key} {r s : ρ} :
    s ∈ (t.insertOrReplace r).rows ↔ s ∈ t.rows ∧ key s ≠ key r ∨ s = r := by
  simp [insertOrReplace]

def upsert (t : Table key) (r : ρ) (f : ρ → ρ) (hf : ∀ r, key (f r) = key r) : Table key :=
  match t.insert? r with
  | some u => u
  | none => t.update (fun s => if key s = key r then f s else s) fun s => by split_ifs <;> simp [hf]

theorem find?_upsert (t : Table key) (r : ρ) (f : ρ → ρ) (hf : ∀ r, key (f r) = key r) (k : κ) :
    (t.upsert r f hf).find? k = if k = key r then some ((t.find? k).elim r f) else t.find? k := by
  unfold upsert
  cases h : t.insert? r with
  | some u =>
    have hnone := find?_eq_none.mpr (insert?_eq_some.mp h).1
    simp only [find?_insert? h, eq_comm (a := key r)]
    split_ifs with hk
    · rw [hk, hnone]
      rfl
    · rfl
  | none =>
    obtain ⟨q, hq, hk⟩ := insert?_eq_none.mp h
    have hfound : t.find? (key r) = some q := find?_eq_some.mpr ⟨hq, hk⟩
    simp only [find?_updateAt]
    split_ifs with hkey
    · rw [hkey, hfound]
      rfl
    · rfl

end Keys

section Erase

variable [DecidableEq ρ] {t : Table key} {r : ρ}

theorem key_ne_of_mem_erase (hr : r ∈ t.rows) {other : ρ} (hother : other ∈ t.rows.erase r) :
    key other ≠ key r := by
  intro hkey
  have hne := t.nodup_rows.mem_erase_iff.mp hother
  exact hne.1 (eq_of_key hne.2 hr hkey)

theorem filter_ne_key [DecidableEq κ] (hr : r ∈ t.rows) :
    t.rows.filter (fun other => key other ≠ key r) = t.rows.erase r := by
  rw [t.nodup_rows.erase_eq_filter]
  refine List.filter_congr fun other hother => ?_
  by_cases hsame : other = r
  · simp [hsame]
  · have hne : key other ≠ key r := fun hkey => hsame (eq_of_key hother hr hkey)
    exact (decide_eq_true hne).trans (bne_iff_ne.mpr hsame).symm

theorem sum_eq (t : Table key) (hr : r ∈ t.rows) (f : ρ → ℕ) :
    (t.rows.map f).sum = f r + ((t.rows.erase r).map f).sum :=
  (List.sum_map_erase f hr).symm

end Erase

end Table

end NixstrCache.KeyedTable
