import NixstrCache.Lib.Texts
import NixstrCache.Protocol.NarInfo

/-!
The text that a signature of a record signs.

It joins the signed fields with semicolons and the references with commas.  A store name may have both
characters in it, so some texts can be read in a second way.
-/

namespace NixstrCache.Protocol

open Texts

section Fields

structure SignedFields where
  storePath : List Char
  narHash : List Char
  narSize : ℕ
  references : List (List Char)
deriving DecidableEq, Repr

def NarInfo.signed (record : NarInfo) : SignedFields :=
  ⟨record.storePath.toList, record.narHash.toList, record.narSize, record.references.map String.toList⟩

def digits (n : ℕ) : List Char :=
  (toString n).toList

def joined (references : List (List Char)) : List Char :=
  [','].intercalate references

def framed (before narHash : List Char) (narSize : ℕ) (after : List Char) : List Char :=
  before ++ ';' :: (narHash ++ ';' :: (digits narSize ++ ';' :: after))

def SignedFields.text (f : SignedFields) : List Char :=
  '1' :: ';' :: framed f.storePath f.narHash f.narSize (joined f.references)

structure SignedFields.Valid (f : SignedFields) : Prop where
  storePath : isStorePath (String.ofList f.storePath) = true
  narHash : isSha256 (String.ofList f.narHash) = true
  narSize : isSafeInteger f.narSize = true
  references : ∀ r ∈ f.references, isStoreName r = true

end Fields

section Names

variable {x y name path hash : List Char} {c : Char} {n : ℕ}

def Plain (c : Char) : Prop :=
  c ≠ '/' ∧ isSpace c = false

theorem isStoreName_iff : isStoreName x = true ↔ ∃ hash name, x = hash ++ '-' :: name ∧
    hash.length = 32 ∧ hash.all isHashChar ∧ name ≠ [] ∧ ∀ c ∈ name, Plain c := by
  simp only [isStoreName, Bool.decide_and, Bool.and_eq_true, decide_eq_true_eq, Plain]
  constructor
  · rintro ⟨hlength, hhash, hdash, hne, hname⟩
    obtain ⟨rest, hrest⟩ := List.head?_eq_some_iff.mp hdash
    have hdrop : x.drop 33 = rest := by
      rw [show 33 = 32 + 1 from rfl, ← List.drop_drop, hrest, List.drop_succ_cons, List.drop_zero]
    refine ⟨x.take 32, rest, ?_, hlength, hhash, hdrop ▸ hne, fun c hc => ?_⟩
    · rw [← hrest, List.take_append_drop]
    · simpa using List.all_eq_true.mp hname c (hdrop.symm ▸ hc)
  · rintro ⟨hash, name, rfl, hlength, hhash, hne, hname⟩
    have htake : (hash ++ '-' :: name).take 32 = hash := by rw [← hlength, List.take_left]
    have hdrop : (hash ++ '-' :: name).drop 32 = '-' :: name := by rw [← hlength, List.drop_left]
    have hrest : (hash ++ '-' :: name).drop 33 = name := by
      rw [show 33 = 32 + 1 from rfl, ← List.drop_drop, hdrop, List.drop_succ_cons, List.drop_zero]
    rw [htake, hdrop, hrest]
    refine ⟨hlength, hhash, rfl, hne, List.all_eq_true.mpr fun c hc => ?_⟩
    simpa using hname c hc

theorem plain_of_range (h : 44 ≤ c.toNat ∧ c.toNat ≤ 46 ∨ 48 ≤ c.toNat ∧ c.toNat ≤ 122) : Plain c := by
  refine ⟨?_, ?_⟩
  · rintro rfl
    exact absurd h (by decide)
  · simp only [isSpace, decide_eq_false_iff_not]
    omega

theorem plain_of_isHashChar (h : isHashChar c = true) : Plain c := by
  have hrange : 48 ≤ c.toNat ∧ c.toNat ≤ 57 ∨ 97 ≤ c.toNat ∧ c.toNat ≤ 122 := by
    simpa [isHashChar, isDigit] using h
  exact plain_of_range (by omega)

theorem storeName_plain (h : isStoreName x = true) : ∀ c ∈ x, Plain c := by
  obtain ⟨hash, name, rfl, -, hhash, -, hname⟩ := isStoreName_iff.mp h
  intro c hc
  rcases List.mem_append.mp hc with hc | hc
  · exact plain_of_isHashChar (List.all_eq_true.mp hhash c hc)
  · rcases List.mem_cons.mp hc with rfl | hc
    · exact plain_of_range (by decide)
    · exact hname c hc

theorem storeName_append (h : isStoreName x = true) (hy : ∀ c ∈ y, Plain c) :
    isStoreName (x ++ y) = true := by
  obtain ⟨hash, name, rfl, hlength, hhash, hne, hname⟩ := isStoreName_iff.mp h
  refine isStoreName_iff.mpr ⟨hash, name ++ y, by simp, hlength, hhash, by simp [hne], fun c hc => ?_⟩
  rcases List.mem_append.mp hc with hc | hc
  · exact hname c hc
  · exact hy c hc

theorem storeName_ne_nil (h : isStoreName x = true) : x ≠ [] := by
  obtain ⟨hash, name, rfl, -⟩ := isStoreName_iff.mp h
  simp

theorem storeName_front (h : isStoreName (x ++ ';' :: y) = true) : isStoreName (x ++ [';']) = true := by
  obtain ⟨hash, name, heq, hlength, hhash, -, hname⟩ := isStoreName_iff.mp h
  rcases List.append_eq_append_iff.mp heq with ⟨rest, rfl, hrest⟩ | ⟨rest, rfl, hrest⟩
  · -- the semicolon would be in the hash
    cases rest with
    | nil => cases hrest
    | cons d rest =>
      obtain ⟨rfl, -⟩ := List.cons_eq_cons.mp hrest
      have hd := List.all_eq_true.mp hhash ';' (by simp)
      exact absurd hd (by decide)
  · cases rest with
    | nil => cases hrest
    | cons d rest =>
      obtain ⟨rfl, rfl⟩ := List.cons_eq_cons.mp hrest
      refine isStoreName_iff.mpr ⟨hash, rest ++ [';'], by simp, hlength, hhash, by simp, fun c hc => ?_⟩
      rcases List.mem_append.mp hc with hc | hc
      · exact hname c (by simp [hc])
      · exact hname c (by simp [List.mem_singleton.mp hc])

theorem after_eq_some {start : String} {text rest : List Char} :
    after start text = some rest ↔ text = start.toList ++ rest := by
  rw [after]
  split_ifs with h
  · obtain ⟨tail, rfl⟩ := List.isPrefixOf_iff_prefix.mp h
    rw [← String.length_toList, List.drop_left, Option.some.injEq, List.append_cancel_left_eq]
  · refine ⟨fun hnone => absurd hnone (by simp), ?_⟩
    rintro rfl
    exact absurd (List.isPrefixOf_iff_prefix.mpr (List.prefix_append _ _)) h

theorem isStorePath_iff : isStorePath (String.ofList path) = true ↔
    ∃ name, path = "/nix/store/".toList ++ name ∧ isStoreName name = true := by
  simp only [isStorePath, Option.any_eq_true, String.toList_ofList, after_eq_some]

theorem storePath_append (h : isStorePath (String.ofList path) = true) (hy : ∀ c ∈ y, Plain c) :
    isStorePath (String.ofList (path ++ y)) = true := by
  obtain ⟨name, rfl, hname⟩ := isStorePath_iff.mp h
  exact isStorePath_iff.mpr ⟨name ++ y, by simp, storeName_append hname hy⟩

theorem isSha256_iff : isSha256 (String.ofList hash) = true ↔
    ∃ rest, hash = "sha256:".toList ++ rest ∧ rest ≠ [] ∧ rest.all isHashChar = true := by
  simp only [isSha256, Option.any_eq_true, String.toList_ofList, after_eq_some, Bool.decide_and,
    Bool.and_eq_true, decide_eq_true_eq, Bool.decide_eq_true]

theorem sha256_plain (h : isSha256 (String.ofList hash) = true) : ∀ c ∈ hash, Plain c ∧ c ≠ ';' := by
  obtain ⟨rest, rfl, -, hrest⟩ := isSha256_iff.mp h
  intro c hc
  rcases List.mem_append.mp hc with hc | hc
  · have hfront : ∀ c ∈ "sha256:".toList,
        (44 ≤ c.toNat ∧ c.toNat ≤ 46 ∨ 48 ≤ c.toNat ∧ c.toNat ≤ 122) ∧ c ≠ ';' :=
      Texts.forall_of_all (by decide)
    exact ⟨plain_of_range (hfront c hc).1, (hfront c hc).2⟩
  · have hchar := List.all_eq_true.mp hrest c hc
    refine ⟨plain_of_isHashChar hchar, ?_⟩
    rintro rfl
    exact absurd hchar (by decide)

theorem digits_plain (h : c ∈ digits n) : Plain c ∧ c ≠ ';' := by
  have hdigit := toDigits_digit (n := n) (by simpa [digits, Nat.toList_repr] using h)
  refine ⟨plain_of_range (Or.inr ⟨hdigit.1, hdigit.2.trans (by decide)⟩), ?_⟩
  · rintro rfl
    exact absurd hdigit (by decide)

theorem digits_ne_sha256 (h : isSha256 (String.ofList hash) = true) : digits n ≠ hash := by
  obtain ⟨rest, rfl, -⟩ := isSha256_iff.mp h
  intro heq
  have hmem : ':' ∈ digits n := heq ▸ by simp
  have hdigit := toDigits_digit (n := n) (by simpa [digits, Nat.toList_repr] using hmem)
  exact absurd hdigit (by decide)

theorem digits_injective {m : ℕ} (h : digits m = digits n) : m = n := by
  rw [← decimal_toString m, ← decimal_toString n, String.toList_inj.mp h]

end Names

section Frames

variable {before before' hash hash' after after' rest x y : List Char} {n n' : ℕ}
variable {r : List Char} {references others : List (List Char)}

theorem semicolon_cases (h : x ++ ';' :: y = before ++ ';' :: rest) : (x = before ∧ y = rest) ∨
    (∃ more, before = x ++ ';' :: more ∧ y = more ++ ';' :: rest) ∨
      ∃ more, x = before ++ ';' :: more ∧ rest = more ++ ';' :: y := by
  rcases List.append_eq_append_iff.mp h with ⟨tail, rfl, htail⟩ | ⟨tail, rfl, htail⟩
  · cases tail with
    | nil => exact Or.inl ⟨by simp, by simpa using htail⟩
    | cons c tail =>
      obtain ⟨rfl, rfl⟩ := List.cons_eq_cons.mp htail
      exact Or.inr (Or.inl ⟨tail, rfl, rfl⟩)
  · cases tail with
    | nil => exact Or.inl ⟨by simp, by simpa using htail.symm⟩
    | cons c tail =>
      obtain ⟨rfl, rfl⟩ := List.cons_eq_cons.mp htail
      exact Or.inr (Or.inr ⟨tail, rfl, rfl⟩)

theorem semicolon_first (hx : ';' ∉ x) (h : x ++ ';' :: y = before ++ ';' :: rest) :
    (x = before ∧ y = rest) ∨ ∃ more, before = x ++ ';' :: more ∧ y = more ++ ';' :: rest := by
  rcases semicolon_cases h with hsame | hlonger | ⟨more, rfl, -⟩
  · exact Or.inl hsame
  · exact Or.inr hlonger
  · exact absurd (by simp) hx

theorem joined_cons_cons (x y : List Char) (references : List (List Char)) :
    joined (x :: y :: references) = x ++ ',' :: joined (y :: references) := by
  simp [joined, List.intercalate]

theorem joined_singleton (x : List Char) : joined [x] = x := by
  simp [joined, List.intercalate]

theorem joined_storeName (h : ∀ r ∈ references, isStoreName r = true) (hne : references ≠ []) :
    isStoreName (joined references) = true := by
  induction references with
  | nil => exact absurd rfl hne
  | cons x references ih =>
    obtain ⟨hx, hrest⟩ := List.forall_mem_cons.mp h
    cases references with
    | nil => rwa [joined_singleton]
    | cons y references =>
      rw [joined_cons_cons]
      refine storeName_append hx (List.forall_mem_cons.mpr ⟨plain_of_range (by decide), ?_⟩)
      exact storeName_plain (ih hrest (List.cons_ne_nil _ _))

theorem joined_cases (h : ∀ r ∈ references, isStoreName r = true) :
    references = [] ∧ joined references = [] ∨ references ≠ [] ∧ isStoreName (joined references) = true := by
  rcases eq_or_ne references [] with rfl | hne
  · exact Or.inl ⟨rfl, rfl⟩
  · exact Or.inr ⟨hne, joined_storeName h hne⟩

/-- When the second of two equal frames has the longer store path, the signed fields of that frame stand
in the references of the first. -/
theorem framed_longer (hhash : isSha256 (String.ofList hash) = true)
    (hhash' : isSha256 (String.ofList hash') = true)
    (hafter : after = [] ∨ isStoreName after = true)
    (h : framed before hash n after = framed (before ++ ';' :: rest) hash' n' after') :
    ∃ more, rest = hash ++ ';' :: (digits n ++ ';' :: more) ∧ after = framed more hash' n' after' := by
  have hplain : ∀ {hash : List Char}, isSha256 (String.ofList hash) = true → ';' ∉ hash :=
    fun hhash hmem => (sha256_plain hhash _ hmem).2 rfl
  have hdigits : ∀ n, ';' ∉ digits n := fun n hmem => (digits_plain hmem).2 rfl
  simp only [framed, List.append_assoc, List.cons_append, List.append_cancel_left_eq,
    List.cons.injEq, true_and] at h
  rcases semicolon_first (hplain hhash) h with ⟨-, hsize⟩ | ⟨more, rfl, hsize⟩
  · rcases semicolon_first (hdigits n) hsize with ⟨heq, -⟩ | ⟨more, heq, -⟩
    · exact absurd heq (digits_ne_sha256 hhash')
    · exact absurd (heq ▸ by simp) (hplain hhash')
  · rcases semicolon_first (hdigits n) hsize with ⟨-, hlast⟩ | ⟨more, rfl, hlast⟩
    · -- a store name does not start with the name of a hash
      exfalso
      obtain ⟨tail, rfl, -⟩ := isSha256_iff.mp hhash'
      rcases hafter with rfl | hafter
      · cases hlast
      · obtain ⟨name, rest', heq, hlength, hchars, -⟩ := isStoreName_iff.mp hafter
        have hsix : ':' ∈ name := by
          have hget : (name ++ '-' :: rest')[6]? = some ':' := by
            rw [← heq, hlast]
            simp
          rw [List.getElem?_append_left (by omega)] at hget
          exact List.mem_of_getElem? hget
        exact absurd (List.all_eq_true.mp hchars _ hsix) (by decide)
    · exact ⟨more, rfl, hlast⟩

theorem framed_same (hhash : isSha256 (String.ofList hash) = true)
    (hhash' : isSha256 (String.ofList hash') = true)
    (h : framed before hash n after = framed before hash' n' after') :
    hash = hash' ∧ n = n' ∧ after = after' := by
  have hplain : ∀ {hash : List Char}, isSha256 (String.ofList hash) = true → ';' ∉ hash :=
    fun hhash hmem => (sha256_plain hhash _ hmem).2 rfl
  have hdigits : ∀ n, ';' ∉ digits n := fun n hmem => (digits_plain hmem).2 rfl
  simp only [framed, List.append_cancel_left_eq, List.cons.injEq, true_and] at h
  rcases semicolon_first (hplain hhash) h with ⟨rfl, hsize⟩ | ⟨more, rfl, -⟩
  · rcases semicolon_first (hdigits n) hsize with ⟨heq, hlast⟩ | ⟨more, heq, -⟩
    · exact ⟨rfl, digits_injective heq, hlast⟩
    · exact absurd (heq ▸ by simp) (hdigits n')
  · exact absurd (by simp) (hplain hhash')

end Frames

section Readings

variable {f g : SignedFields}

def Cut (text before : List Char) (hash : List Char) (n : ℕ) (after : List Char) : Prop :=
  text = framed before hash n after ∧ isSha256 (String.ofList hash) = true ∧ isSafeInteger n = true

/-- The signed fields cannot be cut in a second way: there is at most one reference, it is not two store
names around a comma, and neither in it nor in the store path do a hash and a size stand between
semicolons with the rest of a store path before and of references behind. -/
structure SignedFields.Settled (f : SignedFields) : Prop where
  few : f.references.length ≤ 1
  comma : ∀ r ∈ f.references, ∀ x y, r = x ++ ',' :: y → ¬(isStoreName x = true ∧ isStoreName y = true)
  storePath : ∀ before hash n after, Cut f.storePath before hash n after →
    ¬(isStorePath (String.ofList before) = true ∧ isStoreName (after ++ [';']) = true)
  reference : ∀ r ∈ f.references, ∀ before hash n after, Cut r before hash n after →
    ¬(after = [] ∨ isStoreName after = true)

theorem references_eq (hf : f.Valid) (hg : g.Valid) (hsettled : f.Settled)
    (h : joined f.references = joined g.references) : f.references = g.references := by
  have hnone : ∀ {f g : SignedFields}, g.Valid → f.references = [] →
      joined f.references = joined g.references → g.references = [] := by
    intro f g hg hempty h
    rw [hempty] at h
    by_contra hne
    exact storeName_ne_nil (joined_storeName hg.references hne) h.symm
  rcases hreferences : f.references with _ | ⟨r, rest⟩
  · exact (hnone hg hreferences h).symm
  · have hone : rest = [] := by
      have hfew := hsettled.few
      rw [hreferences, List.length_cons] at hfew
      exact List.eq_nil_of_length_eq_zero (by omega)
    subst hone
    rcases hothers : g.references with _ | ⟨x, _ | ⟨y, more⟩⟩
    · have hempty := hnone hf hothers h.symm
      rw [hreferences] at hempty
      cases hempty
    · rw [hreferences, hothers, joined_singleton, joined_singleton] at h
      rw [h]
    · rw [hreferences, hothers, joined_singleton, joined_cons_cons] at h
      obtain ⟨hx, hrest⟩ := List.forall_mem_cons.mp (hothers ▸ hg.references)
      exact absurd ⟨hx, joined_storeName hrest (List.cons_ne_nil _ _)⟩
        (hsettled.comma r (by simp [hreferences]) x _ h)

theorem SignedFields.Settled.unique (hsettled : f.Settled) (hf : f.Valid) (hg : g.Valid)
    (h : f.text = g.text) : f = g := by
  have hframed : framed f.storePath f.narHash f.narSize (joined f.references) =
      framed g.storePath g.narHash g.narSize (joined g.references) := by
    simpa [SignedFields.text] using h
  rcases semicolon_cases hframed with ⟨hpath, -⟩ | ⟨rest, hpath, -⟩ | ⟨rest, hpath, -⟩
  · rw [hpath] at hframed
    obtain ⟨hhash, hsize, hjoined⟩ := framed_same hf.narHash hg.narHash hframed
    have hreferences := references_eq hf hg hsettled hjoined
    cases f
    cases g
    simp_all
  · rw [hpath] at hframed
    have hafter := (joined_cases hf.references).imp And.right And.right
    obtain ⟨more, -, hcut⟩ := framed_longer hf.narHash hg.narHash hafter hframed
    rcases joined_cases hf.references with ⟨-, hempty⟩ | ⟨hne, -⟩
    · rw [hempty] at hcut
      simp [framed] at hcut
    · obtain ⟨r, rest', hreferences⟩ := List.exists_cons_of_ne_nil hne
      have hone : rest' = [] := by
        have hfew := hsettled.few
        rw [hreferences, List.length_cons] at hfew
        exact List.eq_nil_of_length_eq_zero (by omega)
      rw [hreferences, hone, joined_singleton] at hcut
      exact absurd ((joined_cases hg.references).imp And.right And.right)
        (hsettled.reference r (by simp [hreferences]) more g.narHash g.narSize _
          ⟨hcut, hg.narHash, hg.narSize⟩)
  · rw [hpath] at hframed
    have hafter := (joined_cases hg.references).imp And.right And.right
    obtain ⟨more, hrest, hcut⟩ := framed_longer hg.narHash hf.narHash hafter hframed.symm
    have hpath' : f.storePath = framed g.storePath g.narHash g.narSize more := by
      rw [hpath, hrest, framed]
    refine absurd ⟨hg.storePath, ?_⟩ (hsettled.storePath _ _ _ _ ⟨hpath', hg.narHash, hg.narSize⟩)
    rcases hafter with hempty | hname
    · rw [hempty] at hcut
      simp [framed] at hcut
    · exact storeName_front (hcut ▸ hname)

theorem framed_plain {before hash after : List Char} {n : ℕ}
    (hhash : isSha256 (String.ofList hash) = true) (hbefore : ∀ c ∈ before, Plain c)
    (hafter : ∀ c ∈ after, Plain c) : ∀ c ∈ framed before hash n after, Plain c := by
  have hsemicolon : Plain ';' := plain_of_range (by decide)
  intro c hc
  simp only [framed, List.mem_append, List.mem_cons] at hc
  rcases hc with hc | rfl | hc | rfl | hc | rfl | hc
  · exact hbefore c hc
  · exact hsemicolon
  · exact (sha256_plain hhash c hc).1
  · exact hsemicolon
  · exact (digits_plain hc).1
  · exact hsemicolon
  · exact hafter c hc

theorem joined_plain {references : List (List Char)} (h : ∀ r ∈ references, isStoreName r = true) :
    ∀ c ∈ joined references, Plain c := by
  rcases joined_cases h with ⟨-, hempty⟩ | ⟨-, hname⟩
  · rw [hempty]
    simp
  · exact storeName_plain hname

def SignedFields.Shared (f : SignedFields) : Prop :=
  ∃ g : SignedFields, g.Valid ∧ g.text = f.text ∧ g ≠ f

theorem shared_of_many (hf : f.Valid) (h : 1 < f.references.length) : f.Shared := by
  have hne : f.references ≠ [] := by
    intro hempty
    simp [hempty] at h
  refine ⟨{ f with references := [joined f.references] },
    ⟨hf.storePath, hf.narHash, hf.narSize, ?_⟩, ?_, fun heq => ?_⟩
  · exact List.forall_mem_singleton.mpr (joined_storeName hf.references hne)
  · simp [SignedFields.text, joined_singleton]
  · have hlength := congrArg (fun f => f.references.length) heq
    dsimp only [List.length_singleton] at hlength
    omega

theorem shared_of_comma {x y : List Char} (hf : f.Valid) (hr : f.references = [x ++ ',' :: y])
    (hx : isStoreName x = true) (hy : isStoreName y = true) : f.Shared := by
  refine ⟨{ f with references := [x, y] }, ⟨hf.storePath, hf.narHash, hf.narSize, ?_⟩, ?_, fun heq => ?_⟩
  · exact List.forall_mem_cons.mpr ⟨hx, List.forall_mem_singleton.mpr hy⟩
  · rw [SignedFields.text, SignedFields.text, hr, joined_singleton, joined_cons_cons, joined_singleton]
  · have hlength := congrArg (fun f => f.references.length) heq
    simp [hr] at hlength

theorem framed_append (x before hash after : List Char) (n : ℕ) :
    x ++ framed before hash n after = framed (x ++ before) hash n after := by
  simp [framed]

theorem framed_framed (before hash middle hash' after : List Char) (n n' : ℕ) :
    framed before hash n (framed middle hash' n' after) =
      framed (framed before hash n middle) hash' n' after := by
  simp [framed]

theorem framed_length (before hash after : List Char) (n : ℕ) :
    before.length < (framed before hash n after).length := by
  simp [framed]

theorem shared_of_storePath {before hash after : List Char} {n : ℕ} (hf : f.Valid)
    (hcut : Cut f.storePath before hash n after) (hbefore : isStorePath (String.ofList before) = true)
    (hafter : isStoreName (after ++ [';']) = true) : f.Shared := by
  obtain ⟨hpath, hhash, hsize⟩ := hcut
  have hreference : isStoreName (framed after f.narHash f.narSize (joined f.references)) = true := by
    have hsplit : framed after f.narHash f.narSize (joined f.references) =
        (after ++ [';']) ++ (f.narHash ++ ';' :: (digits f.narSize ++ ';' :: joined f.references)) := by
      simp [framed]
    rw [hsplit]
    refine storeName_append hafter fun c hc => ?_
    have hframed := framed_plain (n := f.narSize) hf.narHash (List.forall_mem_nil Plain)
      (joined_plain hf.references)
    exact hframed c (by simp [framed] at hc ⊢; tauto)
  refine ⟨⟨before, hash, n, [framed after f.narHash f.narSize (joined f.references)]⟩,
    ⟨hbefore, hhash, hsize, List.forall_mem_singleton.mpr hreference⟩, ?_, fun heq => ?_⟩
  · simp only [SignedFields.text, joined_singleton]
    rw [framed_framed, ← hpath]
  · have hlength := framed_length before hash after n
    have hsame : before = f.storePath := congrArg SignedFields.storePath heq
    rw [← hpath, ← hsame] at hlength
    exact lt_irrefl _ hlength

theorem shared_of_reference {r before hash after : List Char} {n : ℕ} (hf : f.Valid)
    (hr : f.references = [r]) (hcut : Cut r before hash n after)
    (hafter : after = [] ∨ isStoreName after = true) : f.Shared := by
  obtain ⟨hname, hhash, hsize⟩ := hcut
  obtain ⟨references, hreferences, hjoined⟩ : ∃ references : List (List Char),
      (∀ r ∈ references, isStoreName r = true) ∧ joined references = after := by
    rcases hafter with rfl | hafter
    · exact ⟨[], by simp, rfl⟩
    · exact ⟨[after], List.forall_mem_singleton.mpr hafter, joined_singleton after⟩
  have hplain : ∀ c ∈ before, Plain c := by
    have hr' : isStoreName r = true := hf.references r (by simp [hr])
    exact fun c hc => storeName_plain hr' c (hname ▸ by simp [framed, hc])
  have hpath : isStorePath (String.ofList (framed f.storePath f.narHash f.narSize before)) = true := by
    have hframed := framed_plain (n := f.narSize) hf.narHash (List.forall_mem_nil Plain) hplain
    have hsplit : framed f.storePath f.narHash f.narSize before =
        f.storePath ++ framed [] f.narHash f.narSize before := by
      rw [framed_append, List.append_nil]
    rw [hsplit]
    exact storePath_append hf.storePath hframed
  refine ⟨⟨framed f.storePath f.narHash f.narSize before, hash, n, references⟩,
    ⟨hpath, hhash, hsize, hreferences⟩, ?_, fun heq => ?_⟩
  · simp only [SignedFields.text, hr, joined_singleton, hjoined]
    rw [hname, framed_framed]
  · have hlength := framed_length f.storePath f.narHash before f.narSize
    have hsame : framed f.storePath f.narHash f.narSize before = f.storePath :=
      congrArg SignedFields.storePath heq
    rw [hsame] at hlength
    exact lt_irrefl _ hlength

theorem SignedFields.Valid.settled_iff (hf : f.Valid) :
    f.Settled ↔ ∀ g : SignedFields, g.Valid → g.text = f.text → g = f := by
  refine ⟨fun hsettled g hg h => (hsettled.unique hf hg h.symm).symm, fun h => ?_⟩
  have hnot : ¬f.Shared := fun ⟨g, hg, htext, hne⟩ => hne (h g hg htext)
  have hfew : f.references.length ≤ 1 := not_lt.mp fun hmany => hnot (shared_of_many hf hmany)
  have hone : ∀ r ∈ f.references, f.references = [r] := by
    intro r hr
    obtain ⟨x, rest, hreferences⟩ := List.exists_cons_of_ne_nil (List.ne_nil_of_mem hr)
    rw [hreferences, List.length_cons] at hfew
    obtain rfl : rest = [] := List.eq_nil_of_length_eq_zero (by omega)
    have hx : r = x := by simpa [hreferences] using hr
    rw [hreferences, hx]
  refine ⟨hfew, ?_, ?_, ?_⟩
  · rintro r hr x y rfl ⟨hx, hy⟩
    exact hnot (shared_of_comma hf (hone _ hr) hx hy)
  · rintro before hash n after hcut ⟨hbefore, hafter⟩
    exact hnot (shared_of_storePath hf hcut hbefore hafter)
  · intro r hr before hash n after hcut hafter
    exact hnot (shared_of_reference hf (hone r hr) hcut hafter)

end Readings

section Texts

variable {scanned next : Scanned} {line field value : List Char} {lines : List (List Char)}
variable {scalars : List (String × String)} {text : String} {record : NarInfo} {f : SignedFields}

theorem splitField_eq (h : splitField line = some (field, value)) : line = field ++ ':' :: ' ' :: value := by
  induction line generalizing field with
  | nil => cases h
  | cons c rest ih =>
    rw [splitField] at h
    split_ifs at h with hc
    · obtain ⟨rfl, hspace⟩ := hc
      obtain ⟨tail, rfl⟩ := List.head?_eq_some_iff.mp hspace
      cases h
      rfl
    · obtain ⟨⟨field', value'⟩, hrest, heq⟩ := Option.map_eq_some_iff.mp h
      cases heq
      rw [ih hrest, List.cons_append]

theorem splitField_append (h : ':' ∉ field) (value : List Char) :
    splitField (field ++ ':' :: ' ' :: value) = some (field, value) := by
  induction field with
  | nil => rfl
  | cons c field ih =>
    have hc : c ≠ ':' := fun hc => h (by simp [hc])
    have hfield : ':' ∉ field := fun hmem => h (List.mem_cons_of_mem _ hmem)
    rw [List.cons_append, splitField, if_neg (fun hboth => hc hboth.1), ih hfield]
    rfl

theorem foldlM_scalars {c : Char} (h : lines.foldlM scanLine scanned = .ok next)
    (hlines : ∀ line ∈ lines, c ∉ line) (hscanned : ∀ p ∈ scanned.scalars, c ∉ p.2.toList) :
    ∀ p ∈ next.scalars, c ∉ p.2.toList := by
  induction lines generalizing scanned with
  | nil =>
    cases h
    exact hscanned
  | cons line lines ih =>
    rw [List.foldlM_cons] at h
    obtain ⟨middle, hline, h⟩ := bind_eq_ok.mp h
    obtain ⟨hfirst, hrest⟩ := List.forall_mem_cons.mp hlines
    refine ih h hrest ?_
    unfold scanLine at hline
    split at hline
    · cases hline
    · next field value hsplit =>
      split_ifs at hline
      · obtain ⟨signature, -, hline⟩ := bind_eq_ok.mp hline
        cases hline
        exact hscanned
      · cases hline
        intro p hp
        rcases List.mem_append.mp hp with hp | hp
        · exact hscanned p hp
        · rw [List.mem_singleton.mp hp, String.toList_ofList]
          exact fun hc => hfirst (splitField_eq hsplit ▸ by simp [hc])

theorem mem_of_lookup {name value : String} (h : scalars.lookup name = some value) :
    (name, value) ∈ scalars := by
  induction scalars with
  | nil => cases h
  | cons p scalars ih =>
    obtain ⟨k, v⟩ := p
    rw [List.lookup_cons] at h
    split at h
    · next heq =>
      cases h
      rw [beq_iff_eq.mp heq]
      exact List.mem_cons_self
    · exact List.mem_cons_of_mem _ (ih h)

theorem scalar_mem {c : Char} (h : ∀ p ∈ scalars, c ∉ p.2.toList) (field : NarInfoField) :
    c ∉ (scalar scalars field).toList := by
  rw [scalar]
  cases hlookup : scalars.lookup field.name with
  | none => simp
  | some value => exact h _ (mem_of_lookup hlookup)

theorem readScalars_signed (h : readScalars scalars = .ok record) :
    record.signed.Valid ∧ record.fingerprint = String.ofList record.signed.text ∧
      record.storePath = scalar scalars .storePath ∧ record.narHash = scalar scalars .narHash ∧
      record.references = referencesOf (scalar scalars .references) := by
  unfold readScalars at h
  split at h
  · cases h
  · dsimp only at h
    split_ifs at h with hpath hurl hcompression hhash hreferences
    · obtain ⟨fileSize, -, h⟩ := bind_eq_ok.mp h
      obtain ⟨narSize, -, h⟩ := bind_eq_ok.mp h
      cases h
    · obtain ⟨fileSize, -, h⟩ := bind_eq_ok.mp h
      obtain ⟨narSize, hsize, h⟩ := bind_eq_ok.mp h
      cases h
      refine ⟨⟨?_, ?_, ?_, ?_⟩, ?_, rfl, rfl, rfl⟩
      · simpa [NarInfo.signed] using hpath
      · simpa [NarInfo.signed] using (not_or.mp hhash).2
      · unfold unsignedInteger at hsize
        split_ifs at hsize with _ hsafe
        cases hsize
        simpa [NarInfo.signed] using hsafe
      · intro r hr
        obtain ⟨reference, hreference, rfl⟩ := List.mem_map.mp hr
        by_contra hname
        exact hreferences (List.any_eq_true.mpr ⟨reference, hreference, by simpa using hname⟩)
      · rw [← String.toList_inj, String.toList_ofList]
        simp [NarInfo.signed, SignedFields.text, framed, digits, joined, String.toList_intercalate]

theorem mem_joined {c : Char} {references : List (List Char)} (h : c ∈ joined references) :
    c = ',' ∨ ∃ r ∈ references, c ∈ r := by
  induction references with
  | nil => cases h
  | cons x references ih =>
    cases references with
    | nil =>
      rw [joined_singleton] at h
      exact Or.inr ⟨x, by simp, h⟩
    | cons y references =>
      rw [joined_cons_cons] at h
      rcases List.mem_append.mp h with h | h
      · exact Or.inr ⟨x, by simp, h⟩
      · rcases List.mem_cons.mp h with h | h
        · exact Or.inl h
        · exact (ih h).imp_right fun ⟨r, hr, hc⟩ => ⟨r, List.mem_cons_of_mem _ hr, hc⟩

theorem mem_joined_of_mem {c : Char} {r : List Char} {references : List (List Char)}
    (hr : r ∈ references) (hc : c ∈ r) : c ∈ joined references := by
  induction references with
  | nil => cases hr
  | cons x references ih =>
    cases references with
    | nil =>
      rw [joined_singleton]
      exact List.mem_singleton.mp hr ▸ hc
    | cons y references =>
      rw [joined_cons_cons, List.mem_append, List.mem_cons]
      rcases List.mem_cons.mp hr with rfl | hr
      · exact Or.inl hc
      · exact Or.inr (Or.inr (ih hr))

/-- The signed fields of an accepted text: they are valid, its fingerprint is their text, and the text
of the fingerprint has no null character. -/
theorem parseNarInfo_signed (h : parseNarInfo text = .ok record) :
    record.signed.Valid ∧ record.fingerprint = String.ofList record.signed.text ∧
      '\x00' ∉ record.signed.text := by
  obtain ⟨⟨-, -, hzero⟩, scanned, scalars, hscanned, hscalars, rfl⟩ := parseNarInfo_eq_ok.mp h
  obtain ⟨hvalid, hfingerprint, hpath, hhash, hreferences⟩ := readScalars_signed hscalars
  refine ⟨hvalid, hfingerprint, ?_⟩
  have hlines : ∀ line ∈ linesOf text, '\x00' ∉ line := fun line hline hc =>
    hzero (List.dropLast_subset _ ((mem_splitOn hline).2 hc))
  have hall := scalar_mem (foldlM_scalars hscanned hlines (by simp))
  have hreference : ∀ r ∈ scalars.references, '\x00' ∉ r.toList := by
    intro r hr hc
    rw [hreferences, referencesOf] at hr
    obtain ⟨piece, hpiece, rfl⟩ := List.mem_map.mp hr
    rw [String.toList_ofList] at hc
    exact hall .references ((mem_splitOn (List.mem_of_mem_filter hpiece)).2 hc)
  have hjoined : '\x00' ∉ joined (scalars.references.map String.toList) := by
    intro hc
    rcases mem_joined hc with hc | ⟨r, hr, hc⟩
    · exact absurd hc (by decide)
    · obtain ⟨reference, hmem, rfl⟩ := List.mem_map.mp hr
      exact hreference reference hmem hc
  have hdigits : '\x00' ∉ digits scalars.narSize := by
    intro hc
    have hdigit := toDigits_digit (n := scalars.narSize) (by simpa [digits, Nat.toList_repr] using hc)
    exact absurd hdigit (by decide)
  have hfields : '\x00' ∉ scalars.storePath.toList ∧ '\x00' ∉ scalars.narHash.toList := by
    rw [hpath, hhash]
    exact ⟨hall .storePath, hall .narHash⟩
  simp [NarInfo.signed, SignedFields.text, framed, hfields, hdigits, hjoined]

end Texts

section Built

variable {scanned : Scanned} {f : SignedFields}

def scalarLine (field : NarInfoField) (value : List Char) : List Char :=
  field.name.toList ++ ':' :: ' ' :: value

/-- The values of a record with given signed fields. -/
def SignedFields.value (f : SignedFields) : NarInfoField → List Char
  | .storePath => f.storePath
  | .narHash => f.narHash
  | .narSize => digits f.narSize
  | .references => f.references.flatMap fun r => ' ' :: r
  | .fileHash => "sha256:0".toList
  | .fileSize => "0".toList
  | _ => "x".toList

theorem value_references (f : SignedFields) :
    f.value .references = f.references.flatMap fun r => ' ' :: r :=
  rfl

theorem value_narSize (f : SignedFields) : f.value .narSize = digits f.narSize :=
  rfl

def SignedFields.scalars (f : SignedFields) (fields : List NarInfoField) : List (String × String) :=
  fields.map fun field => (field.name, String.ofList (f.value field))

def SignedFields.recordText (f : SignedFields) : String :=
  String.ofList (scalarLine .storePath f.storePath ++
    ((requiredNarInfoFields.tail.map fun field => scalarLine field (f.value field)).flatMap fun line =>
      '\n' :: line) ++ ['\n'])

theorem NarInfoField.name_injective : Function.Injective NarInfoField.name := by
  intro a b h
  cases a <;> cases b <;> first | rfl | exact absurd h (by decide)

theorem scanLine_scalar (field : NarInfoField) (value : List Char)
    (hnew : scanned.scalars.lookup field.name = none) : scanLine scanned (scalarLine field value) =
      .ok { scanned with scalars := scanned.scalars ++ [(field.name, String.ofList value)] } := by
  have hname : ':' ∉ field.name.toList ∧ field.name.toList ≠ [] ∧ field.name.toList ≠ "Sig".toList ∧
      (semanticFields.map NarInfoField.name).contains field.name = true := by
    cases field <;> decide
  obtain ⟨hcolon, hempty, hsig, hknown⟩ := hname
  rw [scanLine, scalarLine, splitField_append hcolon]
  simp only [if_neg hempty, if_neg hsig, String.ofList_toList, hknown, hnew, Bool.true_eq_false, if_false,
    Option.isSome_none, Bool.false_eq_true]

theorem foldlM_scalarLine (fields : List NarInfoField) (hnodup : fields.Nodup)
    (hnew : ∀ field ∈ fields, scanned.scalars.lookup field.name = none) :
    (fields.map fun field => scalarLine field (f.value field)).foldlM scanLine scanned =
      .ok { scanned with scalars := scanned.scalars ++ f.scalars fields } := by
  induction fields generalizing scanned with
  | nil => simp [SignedFields.scalars, pure, Except.pure]
  | cons field fields ih =>
    obtain ⟨hfirst, hrest⟩ := List.forall_mem_cons.mp hnew
    obtain ⟨hfresh, hnodup⟩ := List.nodup_cons.mp hnodup
    rw [List.map_cons, List.foldlM_cons, scanLine_scalar _ _ hfirst]
    simp only [bind, Except.bind]
    rw [ih hnodup]
    · simp [SignedFields.scalars]
    · intro other hother
      have hne : other.name ≠ field.name := fun h =>
        hfresh (NarInfoField.name_injective h ▸ hother)
      rw [List.lookup_append, hrest other hother]
      simp [List.lookup_cons, beq_eq_false_iff_ne.mpr hne]

theorem lookup_scalars {fields : List NarInfoField} {field : NarInfoField} (h : field ∈ fields) :
    (f.scalars fields).lookup field.name = some (String.ofList (f.value field)) := by
  induction fields with
  | nil => cases h
  | cons first fields ih =>
    rw [SignedFields.scalars, List.map_cons, List.lookup_cons]
    by_cases hfirst : field = first
    · rw [hfirst, beq_self_eq_true]
    · have hne : field.name ≠ first.name := fun heq => hfirst (NarInfoField.name_injective heq)
      rw [beq_eq_false_iff_ne.mpr hne]
      exact ih ((List.mem_cons.mp h).resolve_left hfirst)

theorem referencesOf_value (hf : f.Valid) :
    referencesOf (String.ofList (f.value .references)) = f.references.map String.ofList := by
  have hspace : ∀ r ∈ f.references, ' ' ∉ r := fun r hr hc =>
    absurd (storeName_plain (hf.references r hr) _ hc).2 (by decide)
  have hsplit := splitOn_appended [] hspace
  rw [List.nil_append] at hsplit
  rw [referencesOf, String.toList_ofList, value_references, hsplit]
  have hfilter : f.references.filter (· ≠ []) = f.references :=
    List.filter_eq_self.mpr fun r hr => by simpa using storeName_ne_nil (hf.references r hr)
  rw [List.splitOn_nil, List.singleton_append, List.filter_cons_of_neg (by simp), hfilter]

theorem readScalars_scalars (hf : f.Valid) : ∃ record,
    readScalars (f.scalars requiredNarInfoFields) = .ok record ∧ record.signed = f := by
  have hscalar : ∀ field ∈ requiredNarInfoFields,
      scalar (f.scalars requiredNarInfoFields) field = String.ofList (f.value field) := by
    intro field hfield
    rw [scalar, lookup_scalars hfield]
    rfl
  have hpresent : requiredNarInfoFields.find? (fun field =>
      ((f.scalars requiredNarInfoFields).lookup field.name).isNone) = none := by
    refine List.find?_eq_none.mpr fun field hfield => ?_
    rw [lookup_scalars hfield]
    simp
  have hsize : unsignedInteger (String.ofList (f.value .narSize)) "NarSize" = .ok f.narSize := by
    have hdigits : ∀ c ∈ digits f.narSize, isDigit c = true := fun c hc => by
      have hdigit := toDigits_digit (n := f.narSize) (by simpa [digits, Nat.toList_repr] using hc)
      simpa [isDigit] using hdigit
    have hne : digits f.narSize ≠ [] := by simp [digits, Nat.toList_repr, Nat.toDigits_ne_nil]
    have hdecimal : decimal (String.ofList (digits f.narSize)) = f.narSize := by
      rw [digits, String.ofList_toList, decimal_toString]
    rw [value_narSize, unsignedInteger, if_neg, hdecimal, if_neg]
    · simp [hf.narSize]
    · rw [String.toList_ofList, List.all_eq_true.mpr hdigits]
      simp [hne]
  have hfileSize : unsignedInteger (String.ofList (f.value .fileSize)) "FileSize" = .ok 0 := by
    change unsignedInteger (String.ofList "0".toList) "FileSize" = .ok 0
    decide +kernel
  unfold readScalars
  rw [hpresent]
  simp only [hscalar _ (show NarInfoField.storePath ∈ requiredNarInfoFields by decide),
    hscalar _ (show NarInfoField.url ∈ requiredNarInfoFields by decide),
    hscalar _ (show NarInfoField.compression ∈ requiredNarInfoFields by decide),
    hscalar _ (show NarInfoField.fileHash ∈ requiredNarInfoFields by decide),
    hscalar _ (show NarInfoField.narHash ∈ requiredNarInfoFields by decide),
    hscalar _ (show NarInfoField.fileSize ∈ requiredNarInfoFields by decide),
    hscalar _ (show NarInfoField.narSize ∈ requiredNarInfoFields by decide),
    hscalar _ (show NarInfoField.references ∈ requiredNarInfoFields by decide)]
  have hpath : isStorePath (String.ofList (f.value .storePath)) = true := hf.storePath
  have hhash : isSha256 (String.ofList (f.value .narHash)) = true := hf.narHash
  have hothers : isNarUrl (String.ofList (f.value .url)) = true ∧
      isCompression (String.ofList (f.value .compression)) = true ∧
      isSha256 (String.ofList (f.value .fileHash)) = true := by
    change isNarUrl (String.ofList "x".toList) = true ∧ isCompression (String.ofList "x".toList) = true ∧
      isSha256 (String.ofList "sha256:0".toList) = true
    decide +kernel
  have hnames : (f.references.map String.ofList).any (fun reference =>
      decide ¬isStoreName reference.toList = true) = false := by
    simpa using hf.references
  simp only [hpath, hhash, hothers, hsize, hfileSize, referencesOf_value hf, hnames, Bool.true_eq_false,
    Bool.false_eq_true, or_self, if_false, bind, Except.bind, pure, Except.pure]
  refine ⟨_, rfl, ?_⟩
  have hstorePath : f.value .storePath = f.storePath := rfl
  have hnarHash : f.value .narHash = f.narHash := rfl
  simp [NarInfo.signed, hstorePath, hnarHash]

def Clean (c : Char) : Prop :=
  c ≠ '\n' ∧ c ≠ '\r' ∧ c ≠ '\x00'

theorem clean_of_not_space {c : Char} (hspace : isSpace c = false) (hzero : c ≠ '\x00') : Clean c := by
  refine ⟨?_, ?_, hzero⟩
  · rintro rfl
    exact absurd hspace (by decide)
  · rintro rfl
    exact absurd hspace (by decide)

theorem value_clean (hf : f.Valid) (hzero : '\x00' ∉ f.text) (field : NarInfoField) :
    ∀ c ∈ f.value field, Clean c := by
  have hnull : ∀ c ∈ f.text, c ≠ '\x00' := fun c hc heq => hzero (heq ▸ hc)
  intro c hc
  cases field with
  | storePath =>
    change c ∈ f.storePath at hc
    refine clean_of_not_space ?_ (hnull c (by simp [SignedFields.text, framed, hc]))
    obtain ⟨name, hname, hstore⟩ := isStorePath_iff.mp hf.storePath
    rw [hname] at hc
    rcases List.mem_append.mp hc with hc | hc
    · have hfront : ∀ c ∈ "/nix/store/".toList, isSpace c = false :=
        Texts.forall_of_all (by decide)
      exact hfront c hc
    · exact (storeName_plain hstore c hc).2
  | narHash =>
    change c ∈ f.narHash at hc
    exact clean_of_not_space (sha256_plain hf.narHash c hc).1.2
      (hnull c (by simp [SignedFields.text, framed, hc]))
  | narSize =>
    change c ∈ digits f.narSize at hc
    exact clean_of_not_space (digits_plain hc).1.2 (hnull c (by simp [SignedFields.text, framed, hc]))
  | references =>
    rw [value_references, List.mem_flatMap] at hc
    obtain ⟨r, hr, hc⟩ := hc
    rcases List.mem_cons.mp hc with rfl | hc
    · exact ⟨by decide, by decide, by decide⟩
    · refine clean_of_not_space (storeName_plain (hf.references r hr) c hc).2 (hnull c ?_)
      have hjoined : c ∈ joined f.references := mem_joined_of_mem hr hc
      simp [SignedFields.text, framed, hjoined]
  | fileHash =>
    have hall : ∀ c ∈ "sha256:0".toList, c ≠ '\n' ∧ c ≠ '\r' ∧ c ≠ '\x00' :=
      Texts.forall_of_all (by decide)
    exact hall c hc
  | fileSize =>
    have hall : ∀ c ∈ "0".toList, c ≠ '\n' ∧ c ≠ '\r' ∧ c ≠ '\x00' :=
      Texts.forall_of_all (by decide)
    exact hall c hc
  | url | compression | deriver | system | ca =>
    have hall : ∀ c ∈ "x".toList, c ≠ '\n' ∧ c ≠ '\r' ∧ c ≠ '\x00' :=
      Texts.forall_of_all (by decide)
    exact hall c hc

theorem scalarLine_clean (hf : f.Valid) (hzero : '\x00' ∉ f.text) (field : NarInfoField) :
    ∀ c ∈ scalarLine field (f.value field), Clean c := by
  have hname : ∀ c ∈ field.name.toList, c ≠ '\n' ∧ c ≠ '\r' ∧ c ≠ '\x00' := by
    apply Texts.forall_of_all
    cases field <;> decide
  intro c hc
  rw [scalarLine, List.mem_append, List.mem_cons, List.mem_cons] at hc
  rcases hc with hc | rfl | rfl | hc
  · exact hname c hc
  · exact ⟨by decide, by decide, by decide⟩
  · exact ⟨by decide, by decide, by decide⟩
  · exact value_clean hf hzero field c hc

theorem parseNarInfo_recordText (hf : f.Valid) (hzero : '\x00' ∉ f.text) :
    ∃ record, parseNarInfo f.recordText = .ok record ∧ record.signed = f := by
  obtain ⟨record, hrecord, hsigned⟩ := readScalars_scalars hf
  have hlines : linesOf f.recordText =
      requiredNarInfoFields.map fun field => scalarLine field (f.value field) := by
    have hnewline : ∀ field, '\n' ∉ scalarLine field (f.value field) := fun field hc =>
      (scalarLine_clean hf hzero field _ hc).1 rfl
    rw [linesOf, SignedFields.recordText, String.toList_ofList, List.dropLast_concat, splitOn_appended]
    · have hfirst : '\n' ∉ scalarLine .storePath f.storePath := hnewline .storePath
      rw [List.splitOn_eq_singleton hfirst]
      rfl
    · exact List.forall_mem_map.mpr fun field _ => hnewline field
  have hscan : scan (linesOf f.recordText) = .ok ⟨f.scalars requiredNarInfoFields, []⟩ := by
    rw [hlines]
    exact foldlM_scalarLine requiredNarInfoFields (by decide) (by simp)
  refine ⟨{ record with signatures := [], rawText := f.recordText }, ?_, hsigned⟩
  have habsent : ∀ c, c ≠ '\n' → c ∈ f.recordText.toList →
      ∃ field, c ∈ scalarLine field (f.value field) := by
    intro c hne hc
    rw [SignedFields.recordText, String.toList_ofList] at hc
    simp only [List.mem_append, List.mem_flatMap, List.mem_map, List.mem_cons, hne, List.not_mem_nil,
      or_false, false_or] at hc
    rcases hc with hc | ⟨line, ⟨field, -, rfl⟩, hc⟩
    · exact ⟨.storePath, hc⟩
    · exact ⟨field, hc⟩
  refine parseNarInfo_eq_ok.mpr ⟨⟨?_, fun hc => ?_, fun hc => ?_⟩, _, record, hscan, hrecord, rfl⟩
  · simp [SignedFields.recordText]
  · obtain ⟨field, hc⟩ := habsent _ (by decide) hc
    exact (scalarLine_clean hf hzero field _ hc).2.1 rfl
  · obtain ⟨field, hc⟩ := habsent _ (by decide) hc
    exact (scalarLine_clean hf hzero field _ hc).2.2 rfl

/-- The fields of an accepted text are the only ones with its fingerprint exactly when they are settled. -/
theorem fingerprint_settled {text : String} {record : NarInfo} (h : parseNarInfo text = .ok record) :
    (∀ other otherRecord, parseNarInfo other = .ok otherRecord →
      otherRecord.fingerprint = record.fingerprint → otherRecord.storePath = record.storePath ∧
        otherRecord.narHash = record.narHash ∧ otherRecord.narSize = record.narSize ∧
          otherRecord.references = record.references) ↔ record.signed.Settled := by
  obtain ⟨hvalid, hfingerprint, hzero⟩ := parseNarInfo_signed h
  rw [hvalid.settled_iff]
  constructor
  · intro hunique g hg htext
    obtain ⟨otherRecord, hother, rfl⟩ := parseNarInfo_recordText hg (htext ▸ hzero)
    have hsame : otherRecord.fingerprint = record.fingerprint := by
      rw [(parseNarInfo_signed hother).2.1, hfingerprint, htext]
    obtain ⟨hpath, hhash, hsize, hreferences⟩ := hunique _ _ hother hsame
    rw [NarInfo.signed, NarInfo.signed, hpath, hhash, hsize, hreferences]
  · intro hunique other otherRecord hother hsame
    obtain ⟨hvalid', hfingerprint', -⟩ := parseNarInfo_signed hother
    have htext : otherRecord.signed.text = record.signed.text := by
      rw [← String.toList_ofList (l := otherRecord.signed.text), ← hfingerprint', hsame, hfingerprint,
        String.toList_ofList]
    have hfields := hunique _ hvalid' htext
    simp only [NarInfo.signed, SignedFields.mk.injEq, String.toList_inj] at hfields
    obtain ⟨hpath, hhash, hsize, hreferences⟩ := hfields
    exact ⟨hpath, hhash, hsize, List.map_injective_iff.mpr (fun _ _ => String.toList_inj.mp) hreferences⟩

theorem settled_of_plain (hfew : f.references.length ≤ 1) (hpath : ';' ∉ f.storePath)
    (hreferences : ∀ r ∈ f.references, ';' ∉ r ∧ ',' ∉ r) : f.Settled := by
  refine ⟨hfew, ?_, ?_, ?_⟩
  · rintro r hr x y rfl
    exact absurd (by simp) (hreferences _ hr).2
  · intro before hash n after hcut
    exact absurd (hcut.1 ▸ by simp [framed]) hpath
  · intro r hr before hash n after hcut
    exact absurd (hcut.1 ▸ by simp [framed]) (hreferences r hr).1

def sampleName (rest : String) : List Char :=
  List.replicate 32 '0' ++ '-' :: rest.toList

def sampleFields (references : List (List Char)) : SignedFields :=
  ⟨"/nix/store/".toList ++ sampleName "a", "sha256:0".toList, 1, references⟩

theorem sampleFields_valid (references : List (List Char))
    (h : ∀ r ∈ references, isStoreName r = true) : (sampleFields references).Valid := by
  refine ⟨isStorePath_iff.mpr ⟨sampleName "a", rfl, by decide +kernel⟩, ?_, ?_, h⟩
  · change isSha256 (String.ofList "sha256:0".toList) = true
    decide +kernel
  · change isSafeInteger 1 = true
    decide

theorem fingerprint_settled_plain : ∃ record,
    parseNarInfo (sampleFields [sampleName "b"]).recordText = .ok record ∧
      ∀ other otherRecord, parseNarInfo other = .ok otherRecord →
        otherRecord.fingerprint = record.fingerprint → otherRecord.storePath = record.storePath ∧
          otherRecord.narHash = record.narHash ∧ otherRecord.narSize = record.narSize ∧
            otherRecord.references = record.references := by
  obtain ⟨record, hrecord, hsigned⟩ :=
    parseNarInfo_recordText (sampleFields_valid [sampleName "b"] (by decide +kernel)) (by decide +kernel)
  refine ⟨record, hrecord, (fingerprint_settled hrecord).mpr ?_⟩
  rw [hsigned]
  exact settled_of_plain (le_refl 1) (by decide +kernel) (by decide +kernel)

/-- Two references, and one with the name of both. -/
theorem fingerprint_shared : ∃ two one,
    parseNarInfo (sampleFields [sampleName "b", sampleName "c"]).recordText = .ok two ∧
      parseNarInfo (sampleFields [sampleName "b" ++ ',' :: sampleName "c"]).recordText = .ok one ∧
        two.fingerprint = one.fingerprint ∧ two.references.length = 2 ∧ one.references.length = 1 := by
  have hzero : '\x00' ∉ (sampleFields [sampleName "b", sampleName "c"]).text := by decide +kernel
  obtain ⟨two, htwo, htwo'⟩ := parseNarInfo_recordText
    (sampleFields_valid [sampleName "b", sampleName "c"] (by decide +kernel)) hzero
  obtain ⟨one, hone, hone'⟩ := parseNarInfo_recordText
    (sampleFields_valid [sampleName "b" ++ ',' :: sampleName "c"] (by decide +kernel)) hzero
  refine ⟨two, one, htwo, hone, ?_, ?_, ?_⟩
  · rw [(parseNarInfo_signed htwo).2.1, (parseNarInfo_signed hone).2.1, htwo', hone']
    rfl
  · have hlength := congrArg (fun f => f.references.length) htwo'
    exact (List.length_map _).symm.trans hlength
  · have hlength := congrArg (fun f => f.references.length) hone'
    exact (List.length_map _).symm.trans hlength

end Built

end NixstrCache.Protocol
