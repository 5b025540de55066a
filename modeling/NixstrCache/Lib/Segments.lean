import Mathlib.Data.List.Infix
import Mathlib.Tactic.Common
import Mathlib.Tactic.SplitIfs

/-!
Data that arrives in segments.

A peer sends a list of items, and a reader gets them in segments that it has not chosen.  A read takes no
more than it has asked for, and never anything beyond a segment.  The place of a pattern is the same
however the list has been cut, once enough of it has arrived.
-/

namespace NixstrCache

/-- What is still to come, in the segments in which it arrives. -/
structure Segments (α : Type*) where
  pieces : List (List α)
  nonempty : ∀ piece ∈ pieces, piece ≠ []

namespace Segments

variable {α : Type*}

section Reads

def all (s : Segments α) : List α :=
  s.pieces.flatten

def cons (piece : List α) (hpiece : piece ≠ []) (s : Segments α) : Segments α :=
  ⟨piece :: s.pieces, List.forall_mem_cons.mpr ⟨hpiece, s.nonempty⟩⟩

def singly (items : List α) (s : Segments α) : Segments α where
  pieces := items.map (fun item => [item]) ++ s.pieces
  nonempty := by
    intro piece hpiece
    rcases List.mem_append.mp hpiece with hpiece | hpiece
    · obtain ⟨item, -, rfl⟩ := List.mem_map.mp hpiece
      exact List.cons_ne_nil _ _
    · exact s.nonempty piece hpiece

def empty : Segments α :=
  ⟨[], by simp⟩

/-- A read takes the first segment, or as much of it as has been asked for. -/
def read (size : ℕ) : Segments α → Option (List α × Segments α)
  | ⟨[], _⟩ => none
  | ⟨piece :: rest, h⟩ =>
    if hlong : size < piece.length then
      some (piece.take size, cons (piece.drop size) (by simpa using hlong)
        ⟨rest, fun other hother => h other (List.mem_cons_of_mem _ hother)⟩)
    else some (piece, ⟨rest, fun other hother => h other (List.mem_cons_of_mem _ hother)⟩)

variable {s t : Segments α} {size : ℕ} {piece items : List α} {item : α}

@[simp]
theorem all_empty : (empty : Segments α).all = [] :=
  rfl

@[simp]
theorem all_cons (hpiece : piece ≠ []) : (cons piece hpiece s).all = piece ++ s.all :=
  rfl

@[simp]
theorem all_singly : (singly items s).all = items ++ s.all := by
  rw [all, singly, List.flatten_append, all]
  congr 1
  induction items with
  | nil => rfl
  | cons item items ih => rw [List.map_cons, List.flatten_cons, ih, List.singleton_append]

theorem read_eq_none : s.read size = none ↔ s.all = [] := by
  rcases s with ⟨- | ⟨piece, rest⟩, h⟩
  · simp [read, all]
  · rw [read]
    constructor
    · intro hread
      split_ifs at hread
    · intro hall
      exact absurd (List.append_eq_nil_iff.mp hall).1 (h piece (List.mem_cons_self ..))

theorem read_eq_some (hsize : 0 < size) (h : s.read size = some (piece, t)) :
    s.all = piece ++ t.all ∧ piece ≠ [] ∧ piece.length ≤ size := by
  rcases s with ⟨- | ⟨first, rest⟩, hs⟩
  · exact nomatch h
  · rw [read] at h
    split_ifs at h with hlong
    · obtain ⟨rfl, rfl⟩ := Prod.mk.inj (Option.some.inj h)
      have hne : first ≠ [] := hs first (List.mem_cons_self ..)
      refine ⟨?_, ?_, List.length_take_le _ _⟩
      · rw [all_cons, ← List.append_assoc, List.take_append_drop]
        rfl
      · simpa [hne] using hsize.ne'
    · obtain ⟨rfl, rfl⟩ := Prod.mk.inj (Option.some.inj h)
      exact ⟨rfl, hs first (List.mem_cons_self ..), not_lt.mp hlong⟩

theorem read_cons (hpiece : piece ≠ []) (h : piece.length ≤ size) :
    (cons piece hpiece s).read size = some (piece, s) :=
  dif_neg (not_lt.mpr h)

theorem read_cons_long (hpiece : piece ≠ []) (h : size < piece.length) :
    (cons piece hpiece s).read size =
      some (piece.take size, cons (piece.drop size) (by simpa using h) s) :=
  dif_pos h

theorem read_singly (hsize : 0 < size) :
    (singly (item :: items) s).read size = some ([item], singly items s) :=
  dif_neg (not_lt.mpr hsize)

def Single (s : Segments α) : Prop :=
  ∀ piece ∈ s.pieces, piece.length = 1

theorem single_singly (items : List α) : (singly items empty).Single := by
  intro piece hpiece
  change piece ∈ items.map (fun item => [item]) ++ [] at hpiece
  rw [List.append_nil] at hpiece
  obtain ⟨item, -, rfl⟩ := List.mem_map.mp hpiece
  rfl

theorem Single.read (h : s.Single) (hsize : 0 < size) (hread : s.read size = some (piece, t)) :
    piece.length = 1 ∧ t.Single := by
  rcases s with ⟨- | ⟨first, rest⟩, hs⟩
  · exact nomatch hread
  · have hfirst : first.length = 1 := h first (List.mem_cons_self ..)
    rw [Segments.read, dif_neg (by omega)] at hread
    obtain ⟨rfl, rfl⟩ := Prod.mk.inj (Option.some.inj hread)
    exact ⟨hfirst, fun other hother => h other (List.mem_cons_of_mem _ hother)⟩

end Reads

end Segments

section Patterns

variable {α : Type*} {pattern l m : List α} {i k : ℕ}

theorem prefix_drop_append (h : k + pattern.length ≤ l.length) :
    pattern <+: (l ++ m).drop k ↔ pattern <+: l.drop k := by
  rw [List.drop_append_of_le_length (by omega)]
  constructor
  · intro hprefix
    refine List.prefix_of_prefix_length_le hprefix (List.prefix_append _ _) ?_
    rw [List.length_drop]
    omega
  · exact fun hprefix => hprefix.trans (List.prefix_append _ _)

theorem place_le (hpattern : pattern ≠ []) (h : pattern <+: l.drop i) : i + pattern.length ≤ l.length := by
  have hlength := h.length_le
  have hpos := List.length_pos_iff.mpr hpattern
  rw [List.length_drop] at hlength
  omega

variable [DecidableEq α]

def indexOf (pattern : List α) : List α → Option ℕ
  | [] => none
  | x :: rest =>
    if pattern.isPrefixOf (x :: rest) then some 0 else (indexOf pattern rest).map (· + 1)

theorem indexOf_eq_none (hpattern : pattern ≠ []) :
    indexOf pattern l = none ↔ ∀ j, ¬ pattern <+: l.drop j := by
  induction l with
  | nil => simp [indexOf, hpattern]
  | cons x rest ih =>
    rw [indexOf]
    split_ifs with hfirst
    · refine iff_of_false nofun fun h => h 0 ?_
      simpa using hfirst
    · rw [Option.map_eq_none_iff, ih]
      rw [List.isPrefixOf_iff_prefix] at hfirst
      constructor
      · intro h j
        cases j with
        | zero => exact hfirst
        | succ j => exact h j
      · exact fun h j => h (j + 1)

theorem indexOf_eq_some (hpattern : pattern ≠ []) :
    indexOf pattern l = some i ↔ pattern <+: l.drop i ∧ ∀ j < i, ¬ pattern <+: l.drop j := by
  induction l generalizing i with
  | nil => simp [indexOf, hpattern]
  | cons x rest ih =>
    rw [indexOf]
    split_ifs with hfirst
    · rw [List.isPrefixOf_iff_prefix] at hfirst
      constructor
      · intro h
        obtain rfl := Option.some.inj h
        exact ⟨hfirst, nofun⟩
      · rintro ⟨-, hbefore⟩
        rcases i with - | i
        · rfl
        · exact absurd hfirst (hbefore 0 (Nat.succ_pos i))
    · rw [List.isPrefixOf_iff_prefix] at hfirst
      rcases i with - | i
      · simp [hfirst]
      · rw [Option.map_eq_some_iff]
        constructor
        · rintro ⟨found, hfound, heq⟩
          obtain rfl : found = i := Nat.succ.inj heq
          obtain ⟨hplace, hbefore⟩ := ih.mp hfound
          refine ⟨hplace, fun j hj => ?_⟩
          cases j with
          | zero => exact hfirst
          | succ j => exact hbefore j (Nat.lt_of_succ_lt_succ hj)
        · rintro ⟨hplace, hbefore⟩
          exact ⟨i, ih.mpr ⟨hplace, fun j hj => hbefore (j + 1) (Nat.succ_lt_succ hj)⟩, rfl⟩

theorem indexOf_append (hpattern : pattern ≠ []) (h : indexOf pattern l = some i) (m : List α) :
    indexOf pattern (l ++ m) = some i := by
  obtain ⟨hplace, hbefore⟩ := (indexOf_eq_some hpattern).mp h
  have hle := place_le hpattern hplace
  refine (indexOf_eq_some hpattern).mpr ⟨(prefix_drop_append hle).mpr hplace, fun j hj => ?_⟩
  rw [prefix_drop_append (by omega)]
  exact hbefore j hj

theorem indexOf_of_append (hpattern : pattern ≠ []) (h : indexOf pattern (l ++ m) = some i) :
    indexOf pattern l = (if i + pattern.length ≤ l.length then some i else none) := by
  obtain ⟨hplace, hbefore⟩ := (indexOf_eq_some hpattern).mp h
  split_ifs with hle
  · refine (indexOf_eq_some hpattern).mpr ⟨(prefix_drop_append hle).mp hplace, fun j hj => ?_⟩
    rw [← prefix_drop_append (m := m) (by omega)]
    exact hbefore j hj
  · refine (indexOf_eq_none hpattern).mpr fun j hj => ?_
    have hj' := place_le hpattern hj
    exact hbefore j (by omega) ((prefix_drop_append hj').mpr hj)

theorem indexOf_drop (hpattern : pattern ≠ []) (h : ∀ j < k, ¬ pattern <+: l.drop j) :
    (indexOf pattern (l.drop k)).map (· + k) = indexOf pattern l := by
  cases hplace : indexOf pattern (l.drop k) with
  | none =>
    rw [indexOf_eq_none hpattern] at hplace
    refine ((indexOf_eq_none hpattern).mpr fun j => ?_).symm
    by_cases hj : j < k
    · exact h j hj
    · have hdrop := hplace (j - k)
      rwa [List.drop_drop, Nat.add_sub_cancel' (not_lt.mp hj)] at hdrop
  | some i =>
    obtain ⟨hfound, hbefore⟩ := (indexOf_eq_some hpattern).mp hplace
    rw [List.drop_drop, Nat.add_comm] at hfound
    refine ((indexOf_eq_some hpattern).mpr ⟨hfound, fun j hj => ?_⟩).symm
    by_cases hjk : j < k
    · exact h j hjk
    · have hdrop := hbefore (j - k) (by omega)
      rwa [List.drop_drop, Nat.add_sub_cancel' (not_lt.mp hjk)] at hdrop

theorem indexOf_behind {x : α} {pattern l : List α} (h : x ∉ l) (m : List α) :
    indexOf (x :: pattern) (l ++ (x :: pattern ++ m)) = some l.length := by
  induction l with
  | nil => exact if_pos (List.isPrefixOf_iff_prefix.mpr (List.prefix_append _ _))
  | cons y l ih =>
    obtain ⟨hne, hl⟩ := not_or.mp (mt List.mem_cons.mpr h)
    have hfirst : ¬ (x :: pattern).isPrefixOf (y :: (l ++ (x :: pattern ++ m))) := by
      rw [List.isPrefixOf_iff_prefix]
      exact fun hprefix => hne (List.cons_prefix_cons.mp hprefix).1
    rw [List.cons_append, indexOf, if_neg hfirst, ih hl]
    rfl

theorem indexOf_split (hpattern : pattern ≠ []) (h : indexOf pattern l = some i) :
    l = l.take i ++ (pattern ++ l.drop (i + pattern.length)) ∧ i + pattern.length ≤ l.length := by
  obtain ⟨hplace, -⟩ := (indexOf_eq_some hpattern).mp h
  refine ⟨?_, place_le hpattern hplace⟩
  rw [← List.drop_drop, List.prefix_iff_eq_append.mp hplace, List.take_append_drop]

end Patterns

end NixstrCache
