import Mathlib.Algebra.BigOperators.Group.List.Basic
import Mathlib.Algebra.GroupWithZero.Nat
import Mathlib.Data.List.Nodup
import Mathlib.Tactic.Common

/-!
A map that forgets what has been least recently used.

The entries are in the order of their last use.  A removal reports the value that it has removed, so
that a caller can keep a sum over the values.
-/

namespace NixstrCache.LeastRecent

variable {κ ν : Type}

structure Lru (κ ν : Type) where
  entries : List (κ × ν)
  unique : (entries.map Prod.fst).Nodup

namespace Lru

variable [DecidableEq κ]

def empty : Lru κ ν :=
  ⟨[], List.nodup_nil⟩

def size (c : Lru κ ν) : ℕ :=
  c.entries.length

def find? (c : Lru κ ν) (k : κ) : Option ν :=
  (c.entries.find? fun entry => entry.1 = k).map Prod.snd

def without (c : Lru κ ν) (k : κ) : Lru κ ν where
  entries := c.entries.filter fun entry => entry.1 ≠ k
  unique := (List.filter_sublist.map Prod.fst).nodup c.unique

/-- The entry is put at the end, where the most recently used one is. -/
def put (c : Lru κ ν) (k : κ) (v : ν) : Lru κ ν where
  entries := (c.without k).entries ++ [(k, v)]
  unique := by
    rw [List.map_append, List.nodup_append]
    refine ⟨(c.without k).unique, List.nodup_singleton k, ?_⟩
    rintro x hx y hy rfl
    obtain ⟨entry, hentry, rfl⟩ := List.mem_map.mp hx
    have hne := (List.mem_filter.mp hentry).2
    simp at hne hy
    exact hne hy

def get (c : Lru κ ν) (k : κ) : Lru κ ν :=
  match c.find? k with
  | some v => c.put k v
  | none => c

def delete (c : Lru κ ν) (k : κ) : Lru κ ν × Option ν :=
  (c.without k, c.find? k)

def deleteOldest (c : Lru κ ν) : Lru κ ν × Option ν :=
  match c.entries with
  | [] => (c, none)
  | entry :: _ => c.delete entry.1

def set (maxSize : ℕ) (c : Lru κ ν) (k : κ) (v : ν) : Lru κ ν × Option ν :=
  if maxSize < (c.put k v).size then (c.put k v).deleteOldest else (c.put k v, none)

def weight (f : ν → ℕ) (c : Lru κ ν) : ℕ :=
  (c.entries.map fun entry => f entry.2).sum

section Lookups

variable {c : Lru κ ν} {k : κ} {v : ν}

theorem find?_eq_some : c.find? k = some v ↔ (k, v) ∈ c.entries := by
  rw [find?, Option.map_eq_some_iff]
  constructor
  · rintro ⟨⟨k', v'⟩, hfind, rfl⟩
    obtain rfl : k' = k := by simpa using List.find?_some hfind
    exact List.mem_of_find?_eq_some hfind
  · intro hmem
    cases hfind : c.entries.find? fun entry => entry.1 = k with
    | none => simpa using List.find?_eq_none.mp hfind _ hmem
    | some entry =>
      have hkey : entry.1 = k := by simpa using List.find?_some hfind
      have hentry := List.mem_of_find?_eq_some hfind
      exact ⟨entry, rfl, by rw [List.inj_on_of_nodup_map c.unique hentry hmem hkey]⟩

theorem mem_without {entry : κ × ν} :
    entry ∈ (c.without k).entries ↔ entry ∈ c.entries ∧ entry.1 ≠ k := by
  simp [without]

theorem find?_without : (c.without k).find? k = none := by
  rw [Option.eq_none_iff_forall_ne_some]
  intro v hv
  exact (mem_without.mp (find?_eq_some.mp hv)).2 rfl

theorem mem_put {entry : κ × ν} :
    entry ∈ (c.put k v).entries ↔ entry ∈ c.entries ∧ entry.1 ≠ k ∨ entry = (k, v) := by
  rw [put, List.mem_append, mem_without, List.mem_singleton]

theorem mem_get {entry : κ × ν} : entry ∈ (c.get k).entries ↔ entry ∈ c.entries := by
  unfold get
  split
  next v hfind =>
    rw [find?_eq_some] at hfind
    rw [mem_put]
    constructor
    · rintro (⟨h, -⟩ | rfl)
      · exact h
      · exact hfind
    · intro h
      by_cases hkey : entry.1 = k
      · exact Or.inr (List.inj_on_of_nodup_map c.unique h hfind hkey)
      · exact Or.inl ⟨h, hkey⟩
  · rfl

theorem mem_deleteOldest {entry : κ × ν} (h : entry ∈ c.deleteOldest.1.entries) :
    entry ∈ c.entries := by
  unfold deleteOldest at h
  split at h
  · exact h
  · exact (mem_without.mp h).1

theorem mem_set {maxSize : ℕ} {entry : κ × ν} (h : entry ∈ (c.set maxSize k v).1.entries) :
    entry ∈ c.entries ∨ entry = (k, v) := by
  have hput : entry ∈ (c.put k v).entries := by
    unfold set at h
    split_ifs at h
    · exact mem_deleteOldest h
    · exact h
  rcases mem_put.mp hput with ⟨hold, -⟩ | hnew
  · exact Or.inl hold
  · exact Or.inr hnew

end Lookups

section Weights

variable {c : Lru κ ν} {k : κ} {v : ν} (f : ν → ℕ)

theorem get_perm : (c.get k).entries.Perm c.entries := by
  have hnodup : ∀ d : Lru κ ν, d.entries.Nodup := fun d => List.Nodup.of_map Prod.fst d.unique
  rw [List.perm_ext_iff_of_nodup (hnodup _) (hnodup _)]
  exact fun _ => mem_get

theorem weight_get : (c.get k).weight f = c.weight f :=
  (get_perm.map _).sum_eq

theorem size_get : (c.get k).size = c.size :=
  get_perm.length_eq

theorem sum_without (entries : List (κ × ν)) (h : (entries.map Prod.fst).Nodup) :
    ((entries.filter fun entry => entry.1 ≠ k).map fun entry => f entry.2).sum +
        (((entries.find? fun entry => entry.1 = k).map Prod.snd).map f).getD 0 =
      (entries.map fun entry => f entry.2).sum := by
  induction entries with
  | nil => rfl
  | cons entry rest ih =>
    rw [List.map_cons, List.nodup_cons] at h
    by_cases hkey : entry.1 = k
    · have hrest : rest.filter (fun entry => entry.1 ≠ k) = rest := by
        rw [List.filter_eq_self]
        intro other hother
        rw [decide_eq_true_eq]
        rintro rfl
        exact h.1 (hkey ▸ List.mem_map_of_mem hother)
      rw [List.filter_cons_of_neg (by simpa using hkey), hrest,
        List.find?_cons_of_pos (by simpa using hkey)]
      simp [Nat.add_comm]
    · rw [List.filter_cons_of_pos (by simpa using hkey),
        List.find?_cons_of_neg (by simpa using hkey), List.map_cons, List.sum_cons, List.map_cons,
        List.sum_cons, Nat.add_assoc, ih h.2]

theorem weight_delete : (c.delete k).1.weight f + ((c.delete k).2.map f).getD 0 = c.weight f :=
  sum_without f c.entries c.unique

theorem weight_deleteOldest :
    c.deleteOldest.1.weight f + (c.deleteOldest.2.map f).getD 0 = c.weight f := by
  unfold deleteOldest
  split
  · rfl
  · exact weight_delete f

theorem weight_put : (c.put k v).weight f = (c.delete k).1.weight f + f v := by
  simp [put, delete, weight]

theorem weight_set (maxSize : ℕ) :
    (c.set maxSize k v).1.weight f + ((c.set maxSize k v).2.map f).getD 0 =
      (c.delete k).1.weight f + f v := by
  unfold set
  split_ifs
  · rw [weight_deleteOldest, weight_put]
  · exact weight_put f

theorem size_delete_le : (c.delete k).1.size ≤ c.size :=
  List.length_filter_le _ _

theorem size_deleteOldest : c.deleteOldest.1.size = c.size - 1 := by
  unfold deleteOldest
  split
  next hnil => simp [size, hnil]
  next entry rest hcons =>
    have hunique := c.unique
    rw [hcons, List.map_cons, List.nodup_cons] at hunique
    have hrest : rest.filter (fun other => other.1 ≠ entry.1) = rest := by
      rw [List.filter_eq_self]
      intro other hother
      rw [decide_eq_true_eq]
      intro hkey
      exact hunique.1 (hkey ▸ List.mem_map_of_mem hother)
    simp only [delete, without, size, hcons, ne_eq]
    rw [List.filter_cons_of_neg (by simp)]
    exact congrArg List.length hrest

theorem size_set_le {maxSize : ℕ} (h : c.size ≤ maxSize) : (c.set maxSize k v).1.size ≤ maxSize := by
  have hput : (c.put k v).size ≤ c.size + 1 := by
    have hle : (c.without k).entries.length ≤ c.entries.length := List.length_filter_le _ _
    simpa [put, size] using hle
  unfold set
  split_ifs with hlarge
  · rw [size_deleteOldest]
    omega
  · exact Nat.not_lt.mp hlarge

end Weights

end Lru

end NixstrCache.LeastRecent
