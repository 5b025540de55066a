import Mathlib.Algebra.Order.Ring.Nat
import Mathlib.Data.List.Infix
import Mathlib.Tactic.SplitIfs

/-!
Texts cut into chunks.

All chunks but the last one have the same size.  A text has one such cut, and a loop that fills one chunk
after the other from pieces of any size finds it.
-/

namespace NixstrCache.Chunks

variable {α : Type} {size used : ℕ} {chunk piece : List α} {chunks others pieces : List (List α)}

/-- All chunks but the last one have the size, and none is empty. -/
def Chunked (size : ℕ) : List (List α) → Prop
  | [] => True
  | [chunk] => chunk ≠ [] ∧ chunk.length ≤ size
  | chunk :: next :: chunks => chunk.length = size ∧ Chunked size (next :: chunks)

/-- Every piece fits into what is left of the chunk that is being filled. -/
def Fits (size : ℕ) : ℕ → List (List α) → Prop
  | _, [] => True
  | used, piece :: pieces => used + piece.length ≤ size ∧
      Fits size (if used + piece.length < size then used + piece.length else 0) pieces

def gather [DecidableEq α] (size : ℕ) : List (List α) → List α → List (List α)
  | [], chunk => if chunk = [] then [] else [chunk]
  | piece :: pieces, chunk =>
    if (chunk ++ piece).length < size then gather size pieces (chunk ++ piece)
    else (chunk ++ piece) :: gather size pieces []

theorem Chunked.cons (hsize : 0 < size) (hchunk : chunk.length = size) (h : Chunked size chunks) :
    Chunked size (chunk :: chunks) := by
  cases chunks with
  | nil =>
    refine ⟨?_, hchunk.le⟩
    rintro rfl
    exact absurd hchunk hsize.ne
  | cons next chunks => exact ⟨hchunk, h⟩

theorem chunked_of_full (hsize : 0 < size) (hfull : ∀ chunk ∈ chunks, chunk.length = size) :
    Chunked size chunks := by
  induction chunks with
  | nil => trivial
  | cons chunk chunks ih =>
    obtain ⟨hchunk, hrest⟩ := List.forall_mem_cons.mp hfull
    exact .cons hsize hchunk (ih hrest)

theorem chunked_concat (hfull : ∀ chunk ∈ chunks, chunk.length = size) (hne : chunk ≠ [])
    (hle : chunk.length ≤ size) : Chunked size (chunks ++ [chunk]) := by
  have hsize : 0 < size := (List.length_pos_of_ne_nil hne).trans_le hle
  induction chunks with
  | nil => exact ⟨hne, hle⟩
  | cons first chunks ih =>
    obtain ⟨hfirst, hrest⟩ := List.forall_mem_cons.mp hfull
    exact .cons hsize hfirst (ih hrest)

theorem Chunked.tail (h : Chunked size (chunk :: chunks)) : Chunked size chunks := by
  cases chunks with
  | nil => trivial
  | cons next chunks => exact h.2

theorem Chunked.head (hsize : 0 < size) (h : Chunked size (chunk :: chunks)) :
    chunk ≠ [] ∧ chunk.length ≤ size ∧ (chunks ≠ [] → chunk.length = size) := by
  cases chunks with
  | nil => exact ⟨h.1, h.2, fun hne => absurd rfl hne⟩
  | cons next chunks =>
    refine ⟨?_, h.1.le, fun _ => h.1⟩
    rintro rfl
    exact absurd h.1 hsize.ne

theorem Chunked.filled (hsize : 0 < size) (h : Chunked size chunks) : ∀ chunk ∈ chunks, chunk ≠ [] := by
  induction chunks with
  | nil => simp
  | cons chunk chunks ih => exact List.forall_mem_cons.mpr ⟨(h.head hsize).1, ih h.tail⟩

theorem Chunked.unique (hsize : 0 < size) (h : Chunked size chunks) (hothers : Chunked size others)
    (hsame : chunks.flatten = others.flatten) : chunks = others := by
  induction chunks generalizing others with
  | nil =>
    cases others with
    | nil => rfl
    | cons other others => simp [(hothers.head hsize).1] at hsame
  | cons chunk chunks ih =>
    cases others with
    | nil => simp [(h.head hsize).1] at hsame
    | cons other others =>
      obtain ⟨-, hle, hfull⟩ := h.head hsize
      obtain ⟨-, hle', hfull'⟩ := hothers.head hsize
      have hlength := congrArg List.length hsame
      simp only [List.flatten_cons, List.length_append] at hlength
      -- The shorter of the two first chunks would be the last one of its list.
      have hfirst : chunk.length = other.length := by
        by_cases hlast : chunks = []
        · by_cases hlast' : others = []
          · simpa [hlast, hlast'] using hlength
          · have hother := hfull' hlast'
            simp only [hlast, List.flatten_nil, List.length_nil] at hlength
            omega
        · have hchunk := hfull hlast
          by_cases hlast' : others = []
          · simp only [hlast', List.flatten_nil, List.length_nil] at hlength
            omega
          · rw [hchunk, hfull' hlast']
      obtain ⟨rfl, hrest⟩ := List.append_inj hsame hfirst
      rw [ih h.tail hothers.tail hrest]

variable [DecidableEq α]

theorem flatten_gather (pieces : List (List α)) (chunk : List α) :
    (gather size pieces chunk).flatten = chunk ++ pieces.flatten := by
  induction pieces generalizing chunk with
  | nil =>
    rw [gather]
    split_ifs with hempty
    · simp [hempty]
    · simp
  | cons piece pieces ih =>
    rw [gather]
    split_ifs
    · rw [ih, List.append_assoc, List.flatten_cons]
    · rw [List.flatten_cons, ih, List.nil_append, List.flatten_cons, List.append_assoc]

theorem chunked_gather (hchunk : chunk.length < size) (h : Fits size chunk.length pieces) :
    Chunked size (gather size pieces chunk) := by
  have hsize : 0 < size := Nat.zero_lt_of_lt hchunk
  induction pieces generalizing chunk with
  | nil =>
    rw [gather]
    split_ifs with hempty
    · trivial
    · exact ⟨hempty, hchunk.le⟩
  | cons piece pieces ih =>
    obtain ⟨hroom, hrest⟩ := h
    rw [gather]
    split_ifs with hfilling
    · rw [List.length_append] at hfilling
      rw [if_pos hfilling] at hrest
      exact ih (by simpa using hfilling) (by simpa using hrest)
    · rw [List.length_append] at hfilling
      rw [if_neg hfilling] at hrest
      exact .cons hsize (by rw [List.length_append]; omega) (ih hsize hrest)

theorem gather_unique (hsize : 0 < size) (h : Fits size 0 pieces) (hchunks : Chunked size chunks)
    (hsame : pieces.flatten = chunks.flatten) : gather size pieces [] = chunks := by
  refine (chunked_gather hsize h).unique hsize hchunks ?_
  rw [flatten_gather, List.nil_append, hsame]

end NixstrCache.Chunks
