import Mathlib.Algebra.Order.Group.Nat
import Mathlib.Data.List.Basic
import Mathlib.Data.List.Induction
import Mathlib.Tactic.Common

/-!
Texts that are split at a character, and numbers written in decimal.

A text of decimal digits without a leading zero is the one that is written for its number, so such
texts and numbers determine each other.
-/

namespace NixstrCache.Texts

instance lawfulChars : LawfulBEq (List Char) :=
  inferInstance

instance lawfulBytes : LawfulBEq (List UInt8) :=
  inferInstance

theorem forall_of_all {α : Type} {p : α → Prop} [DecidablePred p] {l : List α}
    (h : l.all (fun x => decide (p x)) = true) : ∀ x ∈ l, p x := by
  simpa using h

section Splits

theorem intercalate_concat {α : Type} {c : α} {words : List (List α)} (last : List α) :
    [c].intercalate (words ++ [last]) = (words.flatMap fun word => word ++ [c]) ++ last := by
  induction words with
  | nil => simp
  | cons word words ih =>
    rw [List.cons_append, List.intercalate_cons_of_ne_nil (by simp), ih, List.flatMap_cons]
    simp

theorem mem_intercalate {α : Type} {c x : α} {words : List (List α)}
    (h : x ∈ [c].intercalate words) : x = c ∨ ∃ word ∈ words, x ∈ word := by
  induction words with
  | nil => cases h
  | cons word words ih =>
    by_cases hnil : words = []
    · subst hnil
      exact Or.inr ⟨word, by simp, by simpa using h⟩
    · rw [List.intercalate_cons_of_ne_nil hnil, List.mem_append, List.mem_append,
        List.mem_singleton] at h
      rcases h with (h | h) | h
      · exact Or.inr ⟨word, by simp, h⟩
      · exact Or.inl h
      · rcases ih h with h | ⟨other, hother, h⟩
        · exact Or.inl h
        · exact Or.inr ⟨other, by simp [hother], h⟩

variable {α : Type} [BEq α] [LawfulBEq α] {c : α}

theorem mem_splitOn {chars line : List α} (h : line ∈ chars.splitOn c) :
    c ∉ line ∧ line ⊆ chars := by
  induction chars generalizing line with
  | nil =>
    obtain rfl : line = [] := by simpa using h
    simp
  | cons x rest ih =>
    rw [List.splitOn_cons_eq_if_modifyHead] at h
    split_ifs at h with hx
    · rcases List.mem_cons.mp h with rfl | h
      · simp
      · exact ⟨(ih h).1, List.Subset.trans (ih h).2 (List.subset_cons_self _ _)⟩
    · obtain ⟨first, others, hsplit⟩ := List.exists_cons_of_ne_nil (List.splitOn_ne_nil c rest)
      rw [hsplit, List.modifyHead_cons] at h
      rcases List.mem_cons.mp h with rfl | h
      · obtain ⟨hfirst, hsubset⟩ := @ih first (by simp [hsplit])
        have hne : c ≠ x := fun hcx => hx (by simp [hcx])
        exact ⟨by simp [hne, hfirst], List.cons_subset_cons _ hsubset⟩
      · obtain ⟨hline, hsubset⟩ := @ih line (by simp [hsplit, h])
        exact ⟨hline, List.Subset.trans hsubset (List.subset_cons_self _ _)⟩

theorem splitOn_appended (chars : List α) {lines : List (List α)}
    (h : ∀ line ∈ lines, c ∉ line) :
    (chars ++ lines.flatMap fun line => c :: line).splitOn c = chars.splitOn c ++ lines := by
  induction lines generalizing chars with
  | nil => simp
  | cons line lines ih =>
    obtain ⟨hfirst, hrest⟩ := List.forall_mem_cons.mp h
    rw [List.flatMap_cons, List.cons_append, List.splitOn_append_cons_self, ih line hrest,
      List.splitOn_eq_singleton hfirst, List.singleton_append]

theorem splitOn_words {words : List (List α)} (h : ∀ word ∈ words, c ∉ word) (text : List α) :
    ((words.flatMap fun word => word ++ [c]) ++ text).splitOn c = words ++ text.splitOn c := by
  induction words with
  | nil => rfl
  | cons word words ih =>
    obtain ⟨hword, hwords⟩ := List.forall_mem_cons.mp h
    rw [List.flatMap_cons, List.append_assoc, List.append_assoc, List.singleton_append,
      List.splitOn_append_cons_self_of_not_mem hword, ih hwords]
    rfl

end Splits

section Decimals

def IsDecimal (text : List Char) : Prop :=
  text ≠ [] ∧ (∀ c ∈ text, c.isDigit = true) ∧ (text = ['0'] ∨ text.head? ≠ some '0')

theorem isAlpha_iff {c : Char} : c.isAlpha = true ↔
    (65 ≤ c.toNat ∧ c.toNat ≤ 90) ∨ (97 ≤ c.toNat ∧ c.toNat ≤ 122) := by
  have hunfold : c.isAlpha = (decide ('A'.val ≤ c.val ∧ c.val ≤ 'Z'.val) ||
      decide ('a'.val ≤ c.val) && decide (c.val ≤ 'z'.val)) := rfl
  rw [hunfold]
  simp only [Bool.or_eq_true, Bool.and_eq_true, decide_eq_true_eq, UInt32.le_iff_toNat_le]
  exact Iff.rfl

theorem toDigits_digit {n : ℕ} {c : Char} (h : c ∈ Nat.toDigits 10 n) :
    '0'.toNat ≤ c.toNat ∧ c.toNat ≤ '9'.toNat := by
  have hdigit := Nat.isDigit_of_mem_toDigits (by decide) (by decide) h
  simp only [Char.isDigit, Bool.and_eq_true, decide_eq_true_eq, UInt32.le_iff_toNat_le] at hdigit
  exact hdigit

theorem toDigits_head {n : ℕ} (h : 0 < n) : (Nat.toDigits 10 n).head? ≠ some '0' := by
  induction n using Nat.strong_induction_on with
  | _ n ih =>
    by_cases hlt : n < 10
    · rw [Nat.toDigits_of_lt_base hlt]
      have hall : ∀ d < 10, 0 < d → some (Nat.digitChar d) ≠ some '0' := by decide
      simpa using hall n hlt h
    · rw [Nat.toDigits_of_base_le (by decide) (by omega)]
      have hrest := ih (n / 10) (by omega) (by omega)
      rwa [List.head?_append_of_ne_nil _ Nat.toDigits_ne_nil]

theorem isDecimal_toDigits (n : ℕ) : IsDecimal (Nat.toDigits 10 n) := by
  refine ⟨Nat.toDigits_ne_nil, fun c hc => Nat.isDigit_of_mem_toDigits (by decide) (by decide) hc, ?_⟩
  rcases Nat.eq_zero_or_pos n with rfl | hpos
  · exact Or.inl (Nat.toDigits_zero 10)
  · exact Or.inr (toDigits_head hpos)

theorem digit_value {c : Char} (h : c.isDigit = true) :
    c.toNat - '0'.toNat < 10 ∧ Nat.digitChar (c.toNat - '0'.toNat) = c := by
  simp only [Char.isDigit, Bool.and_eq_true, decide_eq_true_eq, UInt32.le_iff_toNat_le] at h
  have hlow : 48 ≤ c.toNat := h.1
  have hhigh : c.toNat ≤ 57 := h.2
  have hall : ∀ n < 58, 48 ≤ n → n - 48 < 10 ∧ Nat.digitChar (n - 48) = Char.ofNat n := by decide
  have hc := hall c.toNat (by omega) hlow
  rwa [Char.ofNat_toNat] at hc

theorem toDigits_of_isDecimal {text : List Char} (h : IsDecimal text) :
    Nat.toDigits 10 (Nat.ofDigitChars 10 text 0) = text := by
  induction text using List.reverseRecOn with
  | nil => exact absurd rfl h.1
  | append_singleton text c ih =>
    obtain ⟨-, hdigits, hhead⟩ := h
    obtain ⟨hlt, hchar⟩ := digit_value (hdigits c (by simp))
    rw [Nat.ofDigitChars_append, Nat.ofDigitChars_cons, Nat.ofDigitChars_nil]
    rcases List.eq_nil_or_concat text with rfl | ⟨_, _, hcons⟩
    · rw [Nat.ofDigitChars_nil, Nat.mul_zero, Nat.zero_add, Nat.toDigits_of_lt_base hlt, hchar]
      rfl
    · have hne : text ≠ [] := by simp [hcons]
      have hfirst : text.head? ≠ some '0' := by
        rcases hhead with heq | hhead
        · have hlength := congrArg List.length heq
          simp [hne] at hlength
        · rwa [List.head?_append_of_ne_nil _ hne] at hhead
      have htext := ih ⟨hne, fun d hd => hdigits d (by simp [hd]), Or.inr hfirst⟩
      have hpos : 0 < Nat.ofDigitChars 10 text 0 := by
        apply Nat.pos_of_ne_zero
        intro hzero
        rw [hzero, Nat.toDigits_zero] at htext
        simp [← htext] at hfirst
      rw [← Nat.toDigits_append_toDigits (by decide) hpos hlt, htext, Nat.toDigits_of_lt_base hlt,
        hchar]

end Decimals

end NixstrCache.Texts
