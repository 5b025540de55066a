import Mathlib.Data.List.Basic
import Mathlib.Data.List.Forall2
import Mathlib.Tactic.SplitIfs

/-!
Markup and text.

A page is scanned character by character.  Outside of tags and inside of quoted values there is text, the
rest is markup.  Two texts are alike when both end outside of tags and have the same markup, and texts that
are alike are put together from parts that are alike.
-/

namespace NixstrCache.Markup

inductive Place where
  | text
  | tag
  | value
deriving DecidableEq, Repr

def after : Place → Char → Place
  | .text, c => if c = '<' then .tag else .text
  | .tag, c => if c = '>' then .text else if c = '"' then .value else .tag
  | .value, c => if c = '"' then .tag else .value

/-- The character belongs to the markup: it is inside a tag, or opens or closes one. -/
def isMarkup : Place → Char → Bool
  | .text, c => c = '<'
  | .tag, _ => true
  | .value, c => c = '"'

def scan (place : Place) (chars : List Char) : Place :=
  chars.foldl after place

def markup : Place → List Char → List Char
  | _, [] => []
  | place, c :: chars =>
    if isMarkup place c then c :: markup (after place c) chars else markup (after place c) chars

theorem scan_append (place : Place) (a b : List Char) :
    scan place (a ++ b) = scan (scan place a) b := by
  simp [scan]

theorem markup_append (place : Place) (a b : List Char) :
    markup place (a ++ b) = markup place a ++ markup (scan place a) b := by
  induction a generalizing place with
  | nil => rfl
  | cons c a ih =>
    simp only [List.cons_append, markup, ih, scan, List.foldl_cons]
    split_ifs <;> rfl

theorem scan_text {chars : List Char} (h : '<' ∉ chars) : scan .text chars = .text := by
  induction chars with
  | nil => rfl
  | cons c chars ih =>
    obtain ⟨hc, hchars⟩ := not_or.mp (List.mem_cons.not.mp h)
    rw [scan, List.foldl_cons, after, if_neg (Ne.symm hc)]
    exact ih hchars

theorem markup_text {chars : List Char} (h : '<' ∉ chars) : markup .text chars = [] := by
  induction chars with
  | nil => rfl
  | cons c chars ih =>
    obtain ⟨hc, hchars⟩ := not_or.mp (List.mem_cons.not.mp h)
    rw [markup, isMarkup, decide_eq_false (Ne.symm hc), if_neg Bool.false_ne_true, after,
      if_neg (Ne.symm hc)]
    exact ih hchars

theorem scan_value {chars : List Char} (h : '"' ∉ chars) : scan .value chars = .value := by
  induction chars with
  | nil => rfl
  | cons c chars ih =>
    obtain ⟨hc, hchars⟩ := not_or.mp (List.mem_cons.not.mp h)
    rw [scan, List.foldl_cons, after, if_neg (Ne.symm hc)]
    exact ih hchars

structure Alike (a b : String) : Prop where
  left : scan .text a.toList = .text
  right : scan .text b.toList = .text
  same : markup .text a.toList = markup .text b.toList

variable {a b c d : String}

theorem Alike.refl (h : scan .text a.toList = .text) : Alike a a :=
  ⟨h, h, rfl⟩

theorem scan_literal {place place' : Place} {chars : List Char} (h : scan place chars = place') :
    scan place (String.ofList chars).toList = place' := by
  rw [String.toList_ofList]
  exact h

theorem Alike.literal {chars : List Char} (h : scan .text chars = .text) :
    Alike (String.ofList chars) (String.ofList chars) :=
  .refl (scan_literal h)

def Plain (a : String) : Prop :=
  '<' ∉ a.toList

instance (a : String) : Decidable (Plain a) :=
  inferInstanceAs (Decidable ('<' ∉ a.toList))

theorem absent_literal {c : Char} {chars : List Char} (h : c ∉ chars) :
    c ∉ (String.ofList chars).toList := by
  rwa [String.toList_ofList]

theorem Plain.literal {chars : List Char} (h : '<' ∉ chars) : Plain (String.ofList chars) :=
  absent_literal h

theorem Plain.append (ha : Plain a) (hb : Plain b) : Plain (a ++ b) := by
  rw [Plain, String.toList_append, List.mem_append]
  exact not_or.mpr ⟨ha, hb⟩

theorem Plain.ite {p : Prop} [Decidable p] (ha : Plain a) (hb : Plain b) :
    Plain (if p then a else b) := by
  split_ifs
  · exact ha
  · exact hb

theorem Alike.plain (ha : Plain a) (hb : Plain b) : Alike a b :=
  ⟨scan_text ha, scan_text hb, by rw [markup_text ha, markup_text hb]⟩

theorem Alike.append (h : Alike a b) (h' : Alike c d) : Alike (a ++ c) (b ++ d) := by
  refine ⟨?_, ?_, ?_⟩
  · rw [String.toList_append, scan_append, h.left, h'.left]
  · rw [String.toList_append, scan_append, h.right, h'.right]
  · rw [String.toList_append, String.toList_append, markup_append, markup_append, h.left, h.right, h.same,
      h'.same]

theorem Alike.wrap {before behind : String} (hbefore : scan .text before.toList = .text)
    (hbehind : scan .text behind.toList = .text) (ha : Plain a) (hb : Plain b) :
    Alike (before ++ a ++ behind) (before ++ b ++ behind) :=
  ((Alike.refl hbefore).append (.plain ha hb)).append (.refl hbehind)

theorem scan_wrap {place : Place} {before behind : String} (hbefore : scan .text before.toList = .text)
    (hbehind : scan .text behind.toList = place) (ha : Plain a) :
    scan .text (before ++ a ++ behind).toList = place := by
  rw [String.toList_append, String.toList_append, scan_append, scan_append, hbefore, scan_text ha, hbehind]

theorem scan_ite {p : Prop} [Decidable p] {place place' : Place} (ha : scan place a.toList = place')
    (hb : scan place b.toList = place') : scan place (if p then a else b).toList = place' := by
  split_ifs
  · exact ha
  · exact hb

theorem scan_through {before value behind : String} (hbefore : scan .text before.toList = .value)
    (hvalue : '"' ∉ value.toList) (hbehind : scan .value behind.toList = .text) :
    scan .text (before ++ value ++ behind).toList = .text := by
  rw [String.toList_append, String.toList_append, scan_append, scan_append, hbefore, scan_value hvalue,
    hbehind]

/-- `join`. -/
def lines : List String → String
  | [] => ""
  | [line] => line
  | line :: next :: rest => line ++ "\n" ++ lines (next :: rest)

theorem Alike.lines {first second : List String} (h : List.Forall₂ Alike first second) :
    Alike (lines first) (lines second) := by
  induction h with
  | nil => exact .refl rfl
  | @cons a b rest rest' hline hrest ih =>
    cases hrest with
    | nil => exact hline
    | cons hnext hrest => exact (hline.append (.refl rfl)).append ih

end NixstrCache.Markup
