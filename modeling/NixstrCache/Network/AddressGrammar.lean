import Mathlib.Data.List.Forall2
import Mathlib.Data.List.TakeWhile
import Mathlib.Data.Nat.Digits.Defs
import NixstrCache.Lib.Texts
import NixstrCache.Network.AddressPolicy

/-!
The texts of addresses.

An IPv4 address is four numbers with dots, and an IPv6 address is eight groups with colons, where two
colons may stand for the groups that are missing and a dotted address for the last two groups.  The
parsers accept these texts and no others, so whether an address is forbidden does not depend on the
way it is written.
-/

namespace NixstrCache.Network

open Texts

section Grammar

/-- Four bytes in decimal, without leading zeros. -/
def DottedQuad (text : List Char) (bytes : List ℕ) : Prop :=
  bytes.length = 4 ∧ (∀ byte ∈ bytes, byte < 2 ^ 8) ∧
    text = ['.'].intercalate (bytes.map (Nat.toDigits 10))

def HexDigit (c : Char) (digit : ℕ) : Prop :=
  digit < 16 ∧ (c = Nat.digitChar digit ∨ c = (Nat.digitChar digit).toUpper)

def HexGroup (word : List Char) (value : ℕ) : Prop :=
  1 ≤ word.length ∧ word.length ≤ 4 ∧
    ∃ digits, List.Forall₂ HexDigit word digits ∧ value = Nat.ofDigits 16 digits.reverse

def Groups (text : List Char) (values : List ℕ) : Prop :=
  ∃ words, List.Forall₂ HexGroup words values ∧ text = [':'].intercalate words

def DottedGroups (text : List Char) (values : List ℕ) : Prop :=
  ∃ words front quad a b c d, List.Forall₂ HexGroup words front ∧ DottedQuad quad [a, b, c, d] ∧
    text = (words.flatMap fun word => word ++ [':']) ++ quad ∧
    values = front ++ [256 * a + b, 256 * c + d]

def Tail (text : List Char) (values : List ℕ) : Prop :=
  Groups text values ∨ DottedGroups text values

/-- The eight groups that a text stands for when its last part is one of `part`. -/
inductive Literal (part : List Char → List ℕ → Prop) : List Char → List ℕ → Prop
  | full {text : List Char} {values : List ℕ} (htail : part text values)
      (hlength : values.length = 8) : Literal part text values
  | compressed {left right : List Char} {front back : List ℕ} (hleft : Groups left front)
      (hright : part right back) (hmissing : front.length + back.length < 8) :
      Literal part (left ++ ':' :: ':' :: right)
        (front ++ List.replicate (8 - front.length - back.length) 0 ++ back)

/-- The text of an IPv6 address with these groups. -/
def Ipv6Literal : List Char → List ℕ → Prop := Literal Tail

def groupBytes (values : List ℕ) : List ℕ :=
  values.flatMap fun value => [value / 256, value % 256]

inductive Address
  | v4 (bytes : List ℕ)
  | v6 (bytes : List ℕ)
deriving DecidableEq, Repr

/-- The text is a spelling of the address. -/
def Spells (text : String) : Address → Prop
  | .v4 bytes => DottedQuad text.toList bytes
  | .v6 bytes => ∃ values, Ipv6Literal text.toList values ∧ bytes = groupBytes values

/-- The IPv6 address that stands for an IPv4 address. -/
def mappedAddress (bytes : List ℕ) : Address :=
  .v6 (List.replicate 10 0 ++ [255, 255] ++ bytes)

end Grammar

section Quads

variable {text part : List Char} {bytes : List ℕ}

theorem decimalValue_eq (part : List Char) : decimalValue part = Nat.ofDigitChars 10 part 0 :=
  Nat.ofDigitChars_eq_foldl.symm

theorem decimalValue_toDigits (n : ℕ) : decimalValue (Nat.toDigits 10 n) = n := by
  rw [decimalValue_eq, Nat.ofDigitChars_ten_toDigits]

theorem decimalByte_iff :
    isDecimalByte part = true ∧ decimalValue part ≤ 255 ∧ (part = ['0'] ∨ part.head? ≠ some '0') ↔
      ∃ byte < 2 ^ 8, part = Nat.toDigits 10 byte := by
  constructor
  · rintro ⟨hbyte, hvalue, hhead⟩
    simp only [isDecimalByte, decide_eq_true_eq] at hbyte
    obtain ⟨hpos, -, hdigits⟩ := hbyte
    refine ⟨decimalValue part, by omega, ?_⟩
    rw [decimalValue_eq]
    exact (toDigits_of_isDecimal
      ⟨List.length_pos_iff.mp hpos, List.all_eq_true.mp hdigits, hhead⟩).symm
  · rintro ⟨byte, hbyte, rfl⟩
    obtain ⟨hne, hdigits, hhead⟩ := isDecimal_toDigits byte
    rw [decimalValue_toDigits]
    refine ⟨?_, by omega, hhead⟩
    simp only [isDecimalByte, decide_eq_true_eq]
    refine ⟨List.length_pos_iff.mpr hne, ?_, List.all_eq_true.mpr hdigits⟩
    exact (Nat.length_toDigits_le_iff (by decide) (by decide)).mpr (by omega)

theorem notMem_toDigits {c : Char} (n : ℕ) (h : c.isDigit = false) : c ∉ Nat.toDigits 10 n := by
  intro hc
  rw [Nat.isDigit_of_mem_toDigits (by decide) (by decide) hc] at h
  cases h

theorem ipv4Parts_sound (h : ipv4Parts text = some bytes) : DottedQuad text bytes := by
  obtain ⟨hlength, hbytes⟩ := ipv4Parts_bytes h
  refine ⟨hlength, hbytes, ?_⟩
  simp only [ipv4Parts, Option.ite_none_right_eq_some, Option.some.injEq] at h
  obtain ⟨⟨-, hdecimal, hparts⟩, rfl⟩ := h
  have hwritten : ∀ part ∈ text.splitOn '.', Nat.toDigits 10 (decimalValue part) = part := by
    intro part hpart
    have hvalue := List.all_eq_true.mp hparts part hpart
    rw [decide_eq_true_eq] at hvalue
    obtain ⟨byte, -, rfl⟩ := decimalByte_iff.mp ⟨List.all_eq_true.mp hdecimal part hpart, hvalue⟩
    rw [decimalValue_toDigits]
  have hmap : ((text.splitOn '.').map decimalValue).map (Nat.toDigits 10) = text.splitOn '.' := by
    rw [List.map_map]
    exact (List.map_congr_left hwritten).trans (List.map_id _)
  rw [hmap, List.intercalate_splitOn]

theorem ipv4Parts_complete (h : DottedQuad text bytes) : ipv4Parts text = some bytes := by
  obtain ⟨hlength, hbytes, rfl⟩ := h
  have hsplit : (['.'].intercalate (bytes.map (Nat.toDigits 10))).splitOn '.' =
      bytes.map (Nat.toDigits 10) := by
    apply List.splitOn_intercalate
    · intro part hpart
      obtain ⟨byte, -, rfl⟩ := List.mem_map.mp hpart
      exact notMem_toDigits byte (by decide)
    · rintro hnil
      simp [List.map_eq_nil_iff.mp hnil] at hlength
  have hparts : ∀ part ∈ bytes.map (Nat.toDigits 10), isDecimalByte part = true ∧
      decimalValue part ≤ 255 ∧ (part = ['0'] ∨ part.head? ≠ some '0') := by
    intro part hpart
    obtain ⟨byte, hbyte, rfl⟩ := List.mem_map.mp hpart
    exact decimalByte_iff.mpr ⟨byte, hbytes byte hbyte, rfl⟩
  have hvalues : (bytes.map (Nat.toDigits 10)).map decimalValue = bytes := by
    rw [List.map_map]
    exact (List.map_congr_left fun byte _ => decimalValue_toDigits byte).trans (List.map_id _)
  simp only [ipv4Parts, hsplit, hvalues]
  rw [if_pos]
  refine ⟨by simpa using hlength, ?_, ?_⟩
  · exact List.all_eq_true.mpr fun part hpart => (hparts part hpart).1
  · exact List.all_eq_true.mpr fun part hpart => decide_eq_true (hparts part hpart).2

theorem ipv4Parts_iff : ipv4Parts text = some bytes ↔ DottedQuad text bytes :=
  ⟨ipv4Parts_sound, ipv4Parts_complete⟩

end Quads

section Letters

variable {c x : Char} {text word : List Char} {values : List ℕ}

theorem toLower_cases (c : Char) :
    65 ≤ c.toNat ∧ c.toNat ≤ 90 ∧ c.toLower.toNat = c.toNat + 32 ∨ c.toLower = c := by
  by_cases hupper : 65 ≤ c.toNat ∧ c.toNat ≤ 90
  · have hall : ∀ n < 91, 65 ≤ n → (Char.ofNat n).toLower.toNat = n + 32 := by decide
    have hc := hall c.toNat (by omega) hupper.1
    rw [Char.ofNat_toNat] at hc
    exact Or.inl ⟨hupper.1, hupper.2, hc⟩
  · right
    unfold Char.toLower
    rw [dif_neg]
    rintro ⟨hlow, hhigh⟩
    exact hupper ⟨UInt32.le_iff_toNat_le.mp hlow, UInt32.le_iff_toNat_le.mp hhigh⟩

theorem letter_range (h : x.isAlpha = false) :
    ¬ (65 ≤ x.toNat ∧ x.toNat ≤ 90) ∧ ¬ (97 ≤ x.toNat ∧ x.toNat ≤ 122) := by
  rw [← Bool.not_eq_true, Texts.isAlpha_iff, not_or] at h
  exact h

theorem toLower_eq_iff (hx : x.isAlpha = false) : c.toLower = x ↔ c = x := by
  obtain ⟨hupper, hlower⟩ := letter_range hx
  constructor
  · rintro rfl
    rcases toLower_cases c with ⟨hlow, hhigh, hvalue⟩ | hsame
    · omega
    · exact hsame.symm
  · rintro rfl
    rcases toLower_cases c with ⟨hlow, hhigh, -⟩ | hsame
    · exact absurd ⟨hlow, hhigh⟩ hupper
    · exact hsame

theorem hexDigit_iff {digit : ℕ} : hexDigit c = some digit ↔ digit < 16 ∧ c = Nat.digitChar digit := by
  constructor
  · intro h
    refine ⟨hexDigit_lt h, ?_⟩
    unfold hexDigit at h
    split_ifs at h with hdigit hletter
    · obtain rfl := Option.some.inj h
      exact (digit_value hdigit).2.symm
    · obtain rfl := Option.some.inj h
      have hlow : 97 ≤ c.toNat := UInt32.le_iff_toNat_le.mp hletter.1
      have hhigh : c.toNat ≤ 102 := UInt32.le_iff_toNat_le.mp hletter.2
      have hall : ∀ n < 103, 97 ≤ n → Char.ofNat n = Nat.digitChar (n - 'a'.toNat + 10) := by decide
      have hc := hall c.toNat (by omega) hlow
      rwa [Char.ofNat_toNat] at hc
  · rintro ⟨hdigit, rfl⟩
    revert digit
    decide

theorem hexDigit_toLower {digit : ℕ} : hexDigit c.toLower = some digit ↔ HexDigit c digit := by
  rw [hexDigit_iff, HexDigit, and_congr_right_iff]
  intro hdigit
  rcases toLower_cases c with ⟨-, hhigh, -⟩ | hsame
  · have hall : ∀ n < 91, ∀ d < 16, (Char.ofNat n).toLower = Nat.digitChar d ↔
        Char.ofNat n = Nat.digitChar d ∨ Char.ofNat n = (Nat.digitChar d).toUpper := by
      decide +kernel
    have hc := hall c.toNat (by omega) digit hdigit
    rwa [Char.ofNat_toNat] at hc
  · rw [hsame]
    refine ⟨Or.inl, ?_⟩
    rintro (h | h)
    · exact h
    · have hall : ∀ d < 16, (Nat.digitChar d).toUpper.toLower = Nat.digitChar d := by decide
      rw [← hsame, h]
      exact hall digit hdigit

theorem mapM_eq_some_iff {α β : Type} {f : α → Option β} {l : List α} {values : List β} :
    l.mapM f = some values ↔ List.Forall₂ (fun a value => f a = some value) l values := by
  induction l generalizing values with
  | nil => simp [List.forall₂_nil_left_iff, eq_comm]
  | cons a rest ih =>
    rw [List.mapM_cons, List.forall₂_cons_left_iff]
    simp only [Option.bind_eq_bind, Option.bind_eq_some_iff, Option.pure_def, Option.some.injEq]
    constructor
    · rintro ⟨value, hvalue, others, hothers, rfl⟩
      exact ⟨value, others, hvalue, ih.mp hothers, rfl⟩
    · rintro ⟨value, others, hvalue, hothers, rfl⟩
      exact ⟨value, hvalue, others, ih.mpr hothers, rfl⟩

theorem ofDigits_reverse (digits : List ℕ) :
    Nat.ofDigits 16 digits.reverse = digits.foldl (fun n d => 16 * n + d) 0 := by
  rw [Nat.ofDigits_eq_foldr, List.foldr_reverse]
  simp only [Nat.cast_id, add_comm]

theorem hexWord_toLower {value : ℕ} :
    hexWord (word.map Char.toLower) = some value ↔ HexGroup word value := by
  simp only [hexWord, List.length_map, Option.ite_none_right_eq_some, Option.map_eq_some_iff,
    mapM_eq_some_iff, List.forall₂_map_left_iff, hexDigit_toLower, HexGroup, ofDigits_reverse, and_assoc]
  simp only [eq_comm]

theorem splitOn_toLower (hx : x.isAlpha = false) :
    (text.map Char.toLower).splitOn x = (text.splitOn x).map (List.map Char.toLower) := by
  induction text with
  | nil => simp
  | cons c rest ih =>
    rw [List.map_cons, List.splitOn_cons_eq_if_modifyHead, List.splitOn_cons_eq_if_modifyHead]
    have hc : (c.toLower == x) = (c == x) := by
      rw [Bool.eq_iff_iff, beq_iff_eq, beq_iff_eq, toLower_eq_iff hx]
    rw [hc, ih]
    split_ifs
    · simp
    · cases rest.splitOn x with
      | nil => simp
      | cons first others => simp

theorem forall₂_mem {α β : Type} {R : α → β → Prop} {l : List α} {m : List β} (h : List.Forall₂ R l m)
    {a : α} (ha : a ∈ l) : ∃ b, R a b := by
  induction h with
  | nil => cases ha
  | cons hab _ ih =>
    rcases List.mem_cons.mp ha with rfl | ha
    · exact ⟨_, hab⟩
    · exact ih ha

theorem hexDigit_char {digit : ℕ} (h : HexDigit c digit) : c.isDigit = true ∨ c.isAlpha = true := by
  obtain ⟨hdigit, hc⟩ := h
  rcases hc with rfl | rfl
  · revert digit
    decide
  · revert digit
    decide

theorem hexGroup_char {value : ℕ} (h : HexGroup word value) (hc : c ∈ word) :
    c.isDigit = true ∨ c.isAlpha = true := by
  obtain ⟨-, -, digits, hdigits, -⟩ := h
  obtain ⟨digit, hdigit⟩ := forall₂_mem hdigits hc
  exact hexDigit_char hdigit

theorem hexGroup_ne_nil {value : ℕ} (h : HexGroup word value) : word ≠ [] :=
  List.length_pos_iff.mp h.1

theorem hexGroup_colon {value : ℕ} (h : HexGroup word value) : ':' ∉ word := by
  intro hcolon
  rcases hexGroup_char h hcolon with h | h <;> revert h <;> decide

theorem groups_colon {words : List (List Char)} (h : List.Forall₂ HexGroup words values) :
    ∀ word ∈ words, ':' ∉ word ∧ word ≠ [] := by
  intro word hword
  obtain ⟨value, hvalue⟩ := forall₂_mem h hword
  exact ⟨hexGroup_colon hvalue, hexGroup_ne_nil hvalue⟩

theorem splitOn_groups {words : List (List Char)} (h : List.Forall₂ HexGroup words values)
    (hne : words ≠ []) : ([':'].intercalate words).splitOn ':' = words :=
  List.splitOn_intercalate ':' (fun word hword => (groups_colon h word hword).1) hne

theorem parseHalf_toLower : parseHalf (text.map Char.toLower) = some values ↔ Groups text values := by
  unfold parseHalf Groups
  by_cases hnil : text = []
  · subst hnil
    constructor
    · intro h
      obtain rfl := Option.some.inj h
      exact ⟨[], List.Forall₂.nil, rfl⟩
    · rintro ⟨words, hwords, htext⟩
      by_cases hwordsNil : words = []
      · subst hwordsNil
        cases hwords
        rfl
      · have hsplit := splitOn_groups hwords hwordsNil
        rw [← htext, List.splitOn_nil] at hsplit
        exact absurd rfl (groups_colon hwords [] (by simp [← hsplit])).2
  · rw [if_neg (by simpa using hnil), splitOn_toLower (by decide), mapM_eq_some_iff]
    simp only [List.forall₂_map_left_iff, hexWord_toLower]
    constructor
    · intro h
      exact ⟨_, h, (List.intercalate_splitOn ':').symm⟩
    · rintro ⟨words, hwords, rfl⟩
      rwa [splitOn_groups hwords]
      rintro rfl
      exact hnil rfl

end Letters

section Compression

variable {text word : List Char} {values : List ℕ}

theorem splitDouble_ne_nil (text : List Char) : splitDouble text ≠ [] := by
  fun_cases splitDouble text <;> simp_all

theorem splitDouble_join (text : List Char) : [':', ':'].intercalate (splitDouble text) = text := by
  fun_induction splitDouble text with
  | case1 => rfl
  | case2 rest ih =>
    obtain ⟨first, others, hsplit⟩ := List.exists_cons_of_ne_nil (splitDouble_ne_nil rest)
    rw [hsplit] at ih ⊢
    rw [List.intercalate_cons_cons, ih]
    rfl
  | case3 c rest hnot hsplit ih => exact absurd hsplit (splitDouble_ne_nil rest)
  | case4 c rest hnot first others hsplit ih =>
    rw [hsplit] at ih
    rw [← ih]
    cases others with
    | nil => simp
    | cons second others => simp [List.intercalate_cons_cons]

theorem splitDouble_cons {c : Char} (h : ∀ rest, c = ':' → text = ':' :: rest → False) :
    splitDouble (c :: text) = (splitDouble text).modifyHead (c :: ·) := by
  obtain ⟨first, others, hsplit⟩ := List.exists_cons_of_ne_nil (splitDouble_ne_nil text)
  rw [splitDouble, hsplit]
  · rfl
  · exact h

theorem splitDouble_word (h : ':' ∉ word) (text : List Char) :
    splitDouble (word ++ text) = (splitDouble text).modifyHead (word ++ ·) := by
  obtain ⟨first, others, hsplit⟩ := List.exists_cons_of_ne_nil (splitDouble_ne_nil text)
  rw [hsplit]
  induction word with
  | nil => exact hsplit
  | cons c word ih =>
    rw [List.mem_cons, not_or] at h
    rw [List.cons_append, splitDouble_cons (fun _ hcolon _ => h.1 hcolon.symm), ih h.2]
    rfl

theorem splitDouble_groups {words : List (List Char)} (h : List.Forall₂ HexGroup words values)
    (text : List Char) : splitDouble ([':'].intercalate words ++ text) =
      (splitDouble text).modifyHead ([':'].intercalate words ++ ·) := by
  induction h with
  | nil =>
    obtain ⟨first, others, hsplit⟩ := List.exists_cons_of_ne_nil (splitDouble_ne_nil text)
    rw [List.intercalate_nil, List.nil_append, hsplit]
    rfl
  | @cons word value words values hword hwords ih =>
    cases hwords with
    | nil => rw [List.intercalate_singleton, splitDouble_word (hexGroup_colon hword)]
    | @cons next _ words _ hnext hrest =>
      obtain ⟨first, others, hsplit⟩ := List.exists_cons_of_ne_nil (splitDouble_ne_nil text)
      have hhead : ∀ rest, ':' = ':' → [':'].intercalate (next :: words) ++ text = ':' :: rest → False := by
        intro rest _ heq
        obtain ⟨c, tail, rfl⟩ := List.exists_cons_of_ne_nil (hexGroup_ne_nil hnext)
        have hc : c = ':' := by
          cases words <;> simp [List.intercalate_cons_cons] at heq <;> exact heq.1
        exact hexGroup_colon hnext (by simp [hc])
      rw [List.intercalate_cons_cons, List.append_assoc, List.append_assoc,
        splitDouble_word (hexGroup_colon hword), List.singleton_append, splitDouble_cons hhead, ih, hsplit]
      simp

theorem splitDouble_toLower (text : List Char) :
    splitDouble (text.map Char.toLower) = (splitDouble text).map (List.map Char.toLower) := by
  fun_induction splitDouble text with
  | case1 => rfl
  | case2 rest ih =>
    have hcolon : Char.toLower ':' = ':' := by decide
    rw [List.map_cons, List.map_cons, hcolon, splitDouble, ih]
    rfl
  | case3 c rest hnot hsplit ih => exact absurd hsplit (splitDouble_ne_nil rest)
  | case4 c rest hnot first others hsplit ih =>
    rw [List.map_cons, splitDouble_cons, ih, hsplit]
    · rfl
    · intro tail hc htail
      rw [toLower_eq_iff (by decide)] at hc
      obtain ⟨d, tail, rfl, hd, -⟩ := List.map_eq_cons_iff.mp htail
      rw [toLower_eq_iff (by decide)] at hd
      exact hnot tail hc (by rw [hd])

theorem ipv6Words_toLower :
    ipv6Words (text.map Char.toLower) = some values ↔ Literal Groups text values := by
  unfold ipv6Words
  rw [splitDouble_toLower]
  constructor
  · have hjoin := splitDouble_join text
    intro h
    rcases hsplit : splitDouble text with _ | ⟨first, _ | ⟨second, _ | ⟨third, others⟩⟩⟩
    · exact absurd hsplit (splitDouble_ne_nil text)
    · rw [hsplit] at h hjoin
      simp only [List.map_cons, List.map_nil, Option.bind_eq_bind, Option.bind_eq_some_iff,
        Option.ite_none_right_eq_some, Option.some.injEq, parseHalf_toLower] at h
      obtain ⟨words, hwords, hlength, rfl⟩ := h
      rw [List.intercalate_singleton] at hjoin
      exact hjoin ▸ Literal.full hwords hlength
    · rw [hsplit] at h hjoin
      simp only [List.map_cons, List.map_nil, Option.bind_eq_bind, Option.bind_eq_some_iff,
        Option.ite_none_right_eq_some, Option.some.injEq, parseHalf_toLower] at h
      obtain ⟨front, hfront, back, hback, hmissing, rfl⟩ := h
      rw [List.intercalate_cons_cons, List.intercalate_singleton, List.append_assoc] at hjoin
      exact hjoin ▸ Literal.compressed hfront hback hmissing
    · rw [hsplit] at h
      cases h
  · intro h
    cases h with
    | full htail hlength =>
      have hgroups := htail
      obtain ⟨words, hwords, rfl⟩ := htail
      have hsplit := splitDouble_groups hwords []
      rw [List.append_nil] at hsplit
      simp only [hsplit, splitDouble, List.modifyHead_cons, List.append_nil, List.map_cons, List.map_nil,
        Option.bind_eq_bind, parseHalf_toLower.mpr hgroups, Option.bind_some, if_pos hlength]
    | @compressed left right front back hleft hright hmissing =>
      have hgroups := hleft
      have hrightGroups := hright
      obtain ⟨words, hwords, rfl⟩ := hleft
      obtain ⟨others, hothers, rfl⟩ := hright
      have hrest := splitDouble_groups hothers []
      rw [List.append_nil] at hrest
      have hsplit := splitDouble_groups hwords (':' :: ':' :: [':'].intercalate others)
      rw [splitDouble, hrest] at hsplit
      simp only [hsplit, splitDouble, List.modifyHead_cons, List.append_nil, List.map_cons, List.map_nil,
        Option.bind_eq_bind, parseHalf_toLower.mpr hgroups, parseHalf_toLower.mpr hrightGroups,
        Option.bind_some, if_pos hmissing]

end Compression

section Dots

variable {text quad front tail : List Char} {bytes values : List ℕ} {a b c d : ℕ}

theorem dottedQuad_text (h : DottedQuad text [a, b, c, d]) :
    text = Nat.toDigits 10 a ++ '.' :: (Nat.toDigits 10 b ++ '.' :: (Nat.toDigits 10 c ++ '.' ::
      Nat.toDigits 10 d)) := by
  obtain ⟨-, -, rfl⟩ := h
  simp [List.intercalate_cons_cons]

theorem dottedQuad_bytes (h : DottedQuad text bytes) : ∃ a b c d, bytes = [a, b, c, d] := by
  obtain ⟨hlength, -, -⟩ := h
  match bytes, hlength with
  | [a, b, c, d], _ => exact ⟨a, b, c, d, rfl⟩

theorem dottedQuad_char {x : Char} (h : DottedQuad text bytes) (hx : x ∈ text) :
    x = '.' ∨ x.isDigit = true := by
  obtain ⟨a, b, c, d, rfl⟩ := dottedQuad_bytes h
  rw [dottedQuad_text h] at hx
  have hdigit : ∀ n, x ∈ Nat.toDigits 10 n → x.isDigit = true := fun n =>
    Nat.isDigit_of_mem_toDigits (by decide) (by decide)
  simp only [List.mem_append, List.mem_cons] at hx
  rcases hx with hx | hx | hx | hx | hx | hx | hx
  all_goals first | exact Or.inl hx | exact Or.inr (hdigit _ hx)

theorem dottedQuad_colon (h : DottedQuad text bytes) : ':' ∉ text := by
  intro hcolon
  rcases dottedQuad_char h hcolon with h | h <;> revert h <;> decide

theorem dottedQuad_dot (h : DottedQuad text bytes) : '.' ∈ text := by
  obtain ⟨a, b, c, d, rfl⟩ := dottedQuad_bytes h
  simp [dottedQuad_text h]

theorem map_toLower_eq_iff {plain : List Char} (h : ∀ x ∈ plain, x.isAlpha = false) :
    text.map Char.toLower = plain ↔ text = plain := by
  induction plain generalizing text with
  | nil => simp
  | cons x plain ih =>
    obtain ⟨hx, hplain⟩ := List.forall_mem_cons.mp h
    cases text with
    | nil => simp
    | cons y text => rw [List.map_cons, List.cons_eq_cons, toLower_eq_iff hx, ih hplain, List.cons_eq_cons]

theorem ipv4Parts_toLower (text : List Char) : ipv4Parts (text.map Char.toLower) = ipv4Parts text := by
  have hsame : ∀ bytes, DottedQuad (text.map Char.toLower) bytes ↔ DottedQuad text bytes := by
    intro bytes
    have hplain : ∀ plain, DottedQuad plain bytes → ∀ x ∈ plain, x.isAlpha = false := by
      intro plain hplain x hx
      rcases dottedQuad_char hplain hx with rfl | hx
      · decide
      · obtain ⟨hlt, hchar⟩ := digit_value hx
        have hall : ∀ n < 10, (Nat.digitChar n).isAlpha = false := by decide
        rw [← hchar, hall _ hlt]
    constructor
    · intro h
      rwa [← (map_toLower_eq_iff (hplain _ h)).mp rfl] at h
    · intro h
      rwa [(map_toLower_eq_iff (hplain _ h)).mpr rfl]
  ext bytes
  rw [ipv4Parts_iff, ipv4Parts_iff, hsame]

/-- The digits of a number below `2 ^ 16` are a group for it. -/
theorem toDigits_digits (n : ℕ) : ∃ digits, n = Nat.ofDigits 16 digits.reverse ∧
    List.Forall₂ (fun x digit => digit < 16 ∧ x = Nat.digitChar digit) (Nat.toDigits 16 n) digits := by
  induction n using Nat.strong_induction_on with
  | _ n ih =>
    by_cases hlt : n < 16
    · rw [Nat.toDigits_of_lt_base hlt]
      exact ⟨[n], by simp, List.Forall₂.cons ⟨hlt, rfl⟩ List.Forall₂.nil⟩
    · rw [Nat.toDigits_of_base_le (by decide) (by omega)]
      obtain ⟨digits, hvalue, hdigits⟩ := ih (n / 16) (by omega)
      refine ⟨digits ++ [n % 16], ?_, ?_⟩
      · rw [List.reverse_append, List.reverse_singleton, List.singleton_append, Nat.ofDigits_cons,
          ← hvalue]
        omega
      · exact List.rel_append hdigits (List.Forall₂.cons ⟨by omega, rfl⟩ List.Forall₂.nil)

theorem hexGroup_toDigits {n : ℕ} (h : n < 2 ^ 16) : HexGroup (Nat.toDigits 16 n) n := by
  obtain ⟨digits, hvalue, hdigits⟩ := toDigits_digits n
  refine ⟨Nat.length_toDigits_pos, ?_, digits, ?_, hvalue⟩
  · exact (Nat.length_toDigits_le_iff (by decide) (by decide)).mpr h
  · exact hdigits.imp fun x digit hx => ⟨hx.1, Or.inl hx.2⟩

theorem toDigits_toLower (n : ℕ) : (Nat.toDigits 16 n).map Char.toLower = Nat.toDigits 16 n := by
  obtain ⟨digits, -, hdigits⟩ := toDigits_digits n
  apply (List.map_congr_left fun x hx => ?_).trans (List.map_id _)
  obtain ⟨digit, hdigit, rfl⟩ := forall₂_mem hdigits hx
  have hall : ∀ n < 16, (Nat.digitChar n).toLower = Nat.digitChar n := by decide
  exact hall digit hdigit

theorem lastColon (text : List Char) :
    ':' ∉ text ∨ ∃ start tail, text = start ++ ':' :: tail ∧ ':' ∉ tail := by
  by_cases h : ':' ∈ text
  · obtain ⟨before, after, hreverse, hbefore⟩ := List.eq_append_cons_of_mem (List.mem_reverse.mpr h)
    refine Or.inr ⟨after.reverse, before.reverse, ?_, by simpa using hbefore⟩
    rw [← List.reverse_reverse text, hreverse]
    simp
  · exact Or.inl h

theorem withoutDots_noColon (hdot : '.' ∈ text) (hcolon : ':' ∉ text) : withoutDots text = none := by
  have hdrop : text.reverse.dropWhile (· ≠ ':') = [] := by
    rw [List.dropWhile_eq_nil_iff]
    intro x hx
    rw [decide_eq_true_eq]
    rintro rfl
    exact hcolon (List.mem_reverse.mp hx)
  simp only [withoutDots, if_pos hdot, hdrop, List.reverse_nil, if_true]

theorem withoutDots_colon (hdot : '.' ∈ front ++ ':' :: tail) (hcolon : ':' ∉ tail) :
    withoutDots (front ++ ':' :: tail) =
      match ipv4Parts tail with
      | some [a, b, c, d] => some (front ++ [':'] ++ Nat.toDigits 16 (256 * a + b) ++
          ':' :: Nat.toDigits 16 (256 * c + d))
      | _ => none := by
  have hall : ∀ x ∈ tail.reverse, decide (x ≠ ':') = true := by
    intro x hx
    rw [decide_eq_true_eq]
    rintro rfl
    exact hcolon (List.mem_reverse.mp hx)
  have hreverse : (front ++ ':' :: tail).reverse = tail.reverse ++ ':' :: front.reverse := by simp
  have htake : (front ++ ':' :: tail).reverse.takeWhile (· ≠ ':') = tail.reverse := by
    rw [hreverse, List.takeWhile_append_of_pos hall, List.takeWhile_cons_of_neg (by simp),
      List.append_nil]
  have hdrop : (front ++ ':' :: tail).reverse.dropWhile (· ≠ ':') = ':' :: front.reverse := by
    rw [hreverse, List.dropWhile_append_of_pos hall, List.dropWhile_cons_of_neg (by simp)]
  simp only [withoutDots, if_pos hdot, htake, hdrop, List.reverse_reverse, List.reverse_cons]
  exact if_neg (by simp)

theorem withoutDots_toLower (text : List Char) :
    withoutDots (text.map Char.toLower) = (withoutDots text).map (List.map Char.toLower) := by
  have hchar : ∀ (x : Char) (plain : List Char), x.isAlpha = false →
      (x ∈ plain.map Char.toLower ↔ x ∈ plain) := by
    intro x plain hx
    rw [List.mem_map]
    constructor
    · rintro ⟨y, hy, hlower⟩
      rwa [← (toLower_eq_iff hx).mp hlower]
    · intro hmem
      exact ⟨x, hmem, (toLower_eq_iff hx).mpr rfl⟩
  by_cases hdot : '.' ∈ text
  · rcases lastColon text with hcolon | ⟨start, tail, rfl, hcolon⟩
    · rw [withoutDots_noColon hdot hcolon, withoutDots_noColon ((hchar _ _ (by decide)).mpr hdot)
        (fun h => hcolon ((hchar _ _ (by decide)).mp h))]
      rfl
    · have hlower : (start ++ ':' :: tail).map Char.toLower =
          start.map Char.toLower ++ ':' :: tail.map Char.toLower := by
        rw [List.map_append, List.map_cons, (toLower_eq_iff (by decide)).mpr rfl]
      have hdotLower := (hchar '.' _ (by decide)).mpr hdot
      rw [hlower] at hdotLower ⊢
      rw [withoutDots_colon hdot hcolon, withoutDots_colon hdotLower
        (fun h => hcolon ((hchar _ _ (by decide)).mp h)), ipv4Parts_toLower]
      split
      · have hcolonLower : Char.toLower ':' = ':' := by decide
        simp [toDigits_toLower, hcolonLower]
      · rfl
  · have hdotLower : '.' ∉ text.map Char.toLower := fun h => hdot ((hchar _ _ (by decide)).mp h)
    simp only [withoutDots, if_neg hdot, if_neg hdotLower, Option.map_some]

theorem parseIpv6_iff_groups : parseIpv6 text = some bytes ↔
    ('%' ∉ text ∧ '[' ∉ text ∧ ']' ∉ text) ∧ ∃ plain, withoutDots text = some plain ∧
      ∃ values, Literal Groups plain values ∧ bytes = groupBytes values := by
  simp only [parseIpv6, withoutDots_toLower, Option.bind_eq_bind, Option.ite_none_left_eq_some,
    Option.bind_eq_some_iff, Option.map_eq_some_iff, Option.pure_def, Option.some.injEq, not_or,
    exists_exists_and_eq_and, ipv6Words_toLower, groupBytes]
  simp only [eq_comm]

end Dots

section Parts

variable {text front tail other quad : List Char} {bytes values : List ℕ} {words : List (List Char)}
  {a b c d : ℕ}

def BeforeTail (front : List Char) : Prop :=
  front = [] ∨ ∃ start, front = start ++ [':']

def withoutQuad (a b c d : ℕ) : List Char :=
  Nat.toDigits 16 (256 * a + b) ++ ':' :: Nat.toDigits 16 (256 * c + d)

theorem beforeTail_words (h : BeforeTail front) : ∃ words : List (List Char),
    (∀ word ∈ words, ':' ∉ word) ∧ front = words.flatMap fun word => word ++ [':'] := by
  rcases h with rfl | ⟨start, rfl⟩
  · exact ⟨[], by simp, rfl⟩
  · refine ⟨start.splitOn ':', fun word hword => (mem_splitOn hword).1, ?_⟩
    have hjoin : [':'].intercalate ((start ++ [':']).splitOn ':') = start ++ [':'] :=
      List.intercalate_splitOn ':'
    rw [List.splitOn_append_cons_self, List.splitOn_nil, intercalate_concat, List.append_nil] at hjoin
    exact hjoin.symm

theorem forall₂_append_left {α β : Type} {R : α → β → Prop} {l₁ l₂ : List α} {m : List β} :
    List.Forall₂ R (l₁ ++ l₂) m ↔
      ∃ m₁ m₂, List.Forall₂ R l₁ m₁ ∧ List.Forall₂ R l₂ m₂ ∧ m = m₁ ++ m₂ := by
  induction l₁ generalizing m with
  | nil =>
    constructor
    · intro h
      exact ⟨[], m, List.Forall₂.nil, h, rfl⟩
    · rintro ⟨m₁, m₂, hnil, h, rfl⟩
      cases hnil
      exact h
  | cons x l₁ ih =>
    constructor
    · intro h
      cases h with
      | cons hx hrest =>
        obtain ⟨m₁, m₂, h₁, h₂, rfl⟩ := ih.mp hrest
        exact ⟨_ :: m₁, m₂, List.Forall₂.cons hx h₁, h₂, rfl⟩
    · rintro ⟨m₁, m₂, hcons, h₂, rfl⟩
      cases hcons with
      | cons hx h₁ => exact List.Forall₂.cons hx (ih.mpr ⟨_, _, h₁, h₂, rfl⟩)

theorem hexGroup_unique {word : List Char} {m n : ℕ} (hm : HexGroup word m) (hn : HexGroup word n) :
    m = n := by
  rw [← hexWord_toLower] at hm hn
  exact Option.some.inj (hm.symm.trans hn)

theorem quad_groups (h : DottedQuad quad [a, b, c, d]) :
    HexGroup (Nat.toDigits 16 (256 * a + b)) (256 * a + b) ∧
      HexGroup (Nat.toDigits 16 (256 * c + d)) (256 * c + d) := by
  obtain ⟨-, hbytes, -⟩ := h
  simp only [List.forall_mem_cons, List.not_mem_nil, false_imp_iff, implies_true, and_true] at hbytes
  exact ⟨hexGroup_toDigits (by omega), hexGroup_toDigits (by omega)⟩

theorem groups_withoutQuad (hwords : ∀ word ∈ words, ':' ∉ word) (h : DottedQuad quad [a, b, c, d]) :
    Groups ((words.flatMap fun word => word ++ [':']) ++ withoutQuad a b c d) values ↔
      ∃ front, List.Forall₂ HexGroup words front ∧ values = front ++ [256 * a + b, 256 * c + d] := by
  obtain ⟨hhigh, hlow⟩ := quad_groups h
  constructor
  · rintro ⟨parts, hparts, htext⟩
    have hne : parts ≠ [] := by
      rintro rfl
      simp [withoutQuad] at htext
    have hsplit := splitOn_groups hparts hne
    rw [← htext, splitOn_words hwords, withoutQuad, List.splitOn_append_cons_self,
      List.splitOn_eq_singleton (hexGroup_colon hhigh),
      List.splitOn_eq_singleton (hexGroup_colon hlow)] at hsplit
    rw [← hsplit] at hparts
    obtain ⟨front, back, hfront, hback, rfl⟩ := forall₂_append_left.mp hparts
    refine ⟨front, hfront, ?_⟩
    rcases hback with _ | ⟨hfirst, _ | ⟨hsecond, ⟨⟩⟩⟩
    rw [hexGroup_unique hfirst hhigh, hexGroup_unique hsecond hlow]
  · rintro ⟨front, hfront, rfl⟩
    refine ⟨words ++ [Nat.toDigits 16 (256 * a + b)] ++ [Nat.toDigits 16 (256 * c + d)], ?_, ?_⟩
    · rw [List.append_assoc]
      exact forall₂_append_left.mpr
        ⟨front, _, hfront, List.Forall₂.cons hhigh (List.Forall₂.cons hlow List.Forall₂.nil), rfl⟩
    · rw [intercalate_concat, List.flatMap_append, withoutQuad]
      simp

theorem dottedGroups_iff (hwords : ∀ word ∈ words, ':' ∉ word) (h : DottedQuad quad [a, b, c, d]) :
    DottedGroups ((words.flatMap fun word => word ++ [':']) ++ quad) values ↔
      ∃ front, List.Forall₂ HexGroup words front ∧ values = front ++ [256 * a + b, 256 * c + d] := by
  constructor
  · rintro ⟨parts, front, last, a', b', c', d', hparts, hlast, htext, rfl⟩
    have hsplit := congrArg (List.splitOn ':') htext
    rw [splitOn_words hwords, splitOn_words (fun part hpart => (groups_colon hparts part hpart).1),
      List.splitOn_eq_singleton (dottedQuad_colon h),
      List.splitOn_eq_singleton (dottedQuad_colon hlast)] at hsplit
    obtain ⟨rfl, hquad⟩ := List.append_inj' hsplit rfl
    obtain rfl := List.singleton_inj.mp hquad
    have hbytes := Option.some.inj ((ipv4Parts_complete h).symm.trans (ipv4Parts_complete hlast))
    simp only [List.cons.injEq, and_true] at hbytes
    obtain ⟨rfl, rfl, rfl, rfl⟩ := hbytes
    exact ⟨front, hparts, rfl⟩
  · rintro ⟨front, hfront, rfl⟩
    exact ⟨words, front, quad, a, b, c, d, hfront, h, rfl, rfl⟩

theorem groups_char {x : Char} (h : Groups text values) (hx : x ∈ text) :
    x = ':' ∨ x.isDigit = true ∨ x.isAlpha = true := by
  obtain ⟨parts, hparts, rfl⟩ := h
  rcases mem_intercalate hx with hx | ⟨part, hpart, hx⟩
  · exact Or.inl hx
  · obtain ⟨value, hvalue⟩ := forall₂_mem hparts hpart
    exact Or.inr (hexGroup_char hvalue hx)

theorem groups_dot (h : Groups text values) : '.' ∉ text := by
  intro hdot
  rcases groups_char h hdot with h | h | h <;> revert h <;> decide

theorem tail_iff_groups (hfront : BeforeTail front) (h : DottedQuad quad [a, b, c, d]) :
    Tail (front ++ quad) values ↔ Groups (front ++ withoutQuad a b c d) values := by
  obtain ⟨words, hwords, rfl⟩ := beforeTail_words hfront
  rw [groups_withoutQuad hwords h, ← dottedGroups_iff hwords h, Tail]
  refine or_iff_right fun hgroups => groups_dot hgroups ?_
  exact List.mem_append_right _ (dottedQuad_dot h)

/-- No part of the text that a colon follows is empty or ends with a colon. -/
def ColonsApart (text : List Char) : Prop :=
  ∀ left right, text = left ++ ':' :: right → ∃ before x, left = before ++ [x] ∧ x ≠ ':'

theorem colonsApart_quad (h : DottedQuad quad bytes) : ColonsApart quad := by
  rintro left right rfl
  exact absurd (by simp) (dottedQuad_colon h)

theorem colonsApart_withoutQuad (h : DottedQuad quad [a, b, c, d]) :
    ColonsApart (withoutQuad a b c d) := by
  intro left right htext
  obtain ⟨hhigh, hlow⟩ := quad_groups h
  have hleft : left = Nat.toDigits 16 (256 * a + b) :=
    ((List.append_cons_inj_of_notMem (hexGroup_colon hhigh) (hexGroup_colon hlow)).mp htext).1.symm
  obtain ⟨before, x, hsplit⟩ : ∃ before x, left = before ++ [x] := by
    rcases List.eq_nil_or_concat left with hnil | ⟨before, x, hsplit⟩
    · exact absurd (hleft.symm.trans hnil) (hexGroup_ne_nil hhigh)
    · exact ⟨before, x, by simpa using hsplit⟩
  refine ⟨before, x, hsplit, ?_⟩
  rintro rfl
  apply hexGroup_colon hhigh
  rw [← hleft, hsplit]
  simp

theorem append_double {left right : List Char} (hapart : ColonsApart tail)
    (h : left ++ ':' :: ':' :: right = front ++ tail) :
    ∃ rest, right = rest ++ tail ∧ front = left ++ ':' :: ':' :: rest := by
  have hassoc : (left ++ [':', ':']) ++ right = front ++ tail := by simpa using h
  rcases List.append_eq_append_iff.mp hassoc with ⟨rest, rfl, rfl⟩ | ⟨rest, hleft, rfl⟩
  · exact ⟨rest, rfl, by simp⟩
  · rcases List.eq_nil_or_concat rest with rfl | ⟨before, x, rfl⟩
    · exact ⟨[], by simp, by simpa using hleft.symm⟩
    · have hlast : (left ++ [':']) ++ [':'] = (front ++ before) ++ [x] := by simpa using hleft
      obtain ⟨hbefore, hx⟩ := List.append_inj' hlast rfl
      obtain rfl := List.singleton_inj.mp hx
      obtain ⟨start, y, rfl, hy⟩ := hapart before right (by simp)
      rw [← List.append_assoc] at hbefore
      exact absurd (List.singleton_inj.mp (List.append_inj' hbefore rfl).2).symm hy

theorem literal_congr {part other : List Char → List ℕ → Prop} {text text' : List Char}
    (hapart : ColonsApart text) (hfront : BeforeTail front)
    (hparts : ∀ front, BeforeTail front → ∀ values, part (front ++ text) values →
      other (front ++ text') values) (h : Literal part (front ++ text) values) :
    Literal other (front ++ text') values := by
  generalize hwhole : front ++ text = whole at h
  cases h with
  | full htail hlength =>
    subst hwhole
    exact Literal.full (hparts front hfront _ htail) hlength
  | @compressed left right start back hleft hright hmissing =>
    obtain ⟨rest, rfl, rfl⟩ := append_double hapart hwhole.symm
    have hrest : BeforeTail rest := by
      rcases List.eq_nil_or_concat rest with hnil | ⟨before, x, rfl⟩
      · exact Or.inl hnil
      · rcases hfront with hnil | ⟨start, hstart⟩
        · simp at hnil
        · have hlast : (left ++ ':' :: ':' :: before) ++ [x] = start ++ [':'] := by simpa using hstart
          obtain rfl := List.singleton_inj.mp (List.append_inj' hlast rfl).2
          exact Or.inr ⟨before, by simp⟩
    have hliteral := Literal.compressed hleft (hparts rest hrest _ hright) hmissing
    simpa using hliteral

theorem literal_mono {part other : List Char → List ℕ → Prop}
    (hparts : ∀ tail ⊆ text, ∀ values, part tail values → other tail values)
    (h : Literal part text values) : Literal other text values := by
  cases h with
  | full htail hlength => exact Literal.full (hparts _ (List.Subset.refl _) _ htail) hlength
  | compressed hleft hright hmissing =>
    refine Literal.compressed hleft (hparts _ ?_ _ hright) hmissing
    intro x hx
    simp [hx]

theorem beforeTail_flatMap (words : List (List Char)) :
    BeforeTail (words.flatMap fun word => word ++ [':']) := by
  rcases List.eq_nil_or_concat words with rfl | ⟨words, word, rfl⟩
  · exact Or.inl rfl
  · exact Or.inr ⟨(words.flatMap fun word => word ++ [':']) ++ word, by simp⟩

theorem literal_dotted (h : Ipv6Literal text values) (hdot : '.' ∈ text) : ∃ start quad a b c d,
    text = start ++ ':' :: quad ∧ DottedQuad quad [a, b, c, d] := by
  cases h with
  | full htail hlength =>
    rcases htail with hgroups | ⟨words, front, quad, a, b, c, d, hwords, hquad, rfl, rfl⟩
    · exact absurd hdot (groups_dot hgroups)
    · rcases beforeTail_flatMap words with hnil | ⟨start, hstart⟩
      · have hempty : words = [] := by
          cases words with
          | nil => rfl
          | cons word words => simp at hnil
        subst hempty
        cases hwords
        simp at hlength
      · exact ⟨start, quad, a, b, c, d, by simp [hstart], hquad⟩
  | @compressed left right front back hleft hright hmissing =>
    rcases hright with hgroups | ⟨words, front, quad, a, b, c, d, hwords, hquad, rfl, rfl⟩
    · have hnone := groups_dot hleft
      have hnone' := groups_dot hgroups
      simp [hnone, hnone'] at hdot
    · rcases beforeTail_flatMap words with hnil | ⟨start, hstart⟩
      · exact ⟨left ++ [':'], quad, a, b, c, d, by simp [hnil], hquad⟩
      · exact ⟨left ++ ':' :: ':' :: start, quad, a, b, c, d, by simp [hstart], hquad⟩

theorem tail_char {x : Char} (h : Tail text values) (hx : x ∈ text) :
    x = ':' ∨ x = '.' ∨ x.isDigit = true ∨ x.isAlpha = true := by
  rcases h with hgroups | ⟨words, front, quad, a, b, c, d, hwords, hquad, rfl, rfl⟩
  · rcases groups_char hgroups hx with h | h
    · exact Or.inl h
    · exact Or.inr (Or.inr h)
  · rcases List.mem_append.mp hx with hx | hx
    · obtain ⟨word, hword, hx⟩ := List.mem_flatMap.mp hx
      rcases List.mem_append.mp hx with hx | hx
      · obtain ⟨value, hvalue⟩ := forall₂_mem hwords hword
        exact Or.inr (Or.inr (hexGroup_char hvalue hx))
      · exact Or.inl (List.mem_singleton.mp hx)
    · rcases dottedQuad_char hquad hx with h | h
      · exact Or.inr (Or.inl h)
      · exact Or.inr (Or.inr (Or.inl h))

theorem literal_char {x : Char} (h : Ipv6Literal text values) (hx : x ∈ text) :
    x = ':' ∨ x = '.' ∨ x.isDigit = true ∨ x.isAlpha = true := by
  cases h with
  | full htail _ => exact tail_char htail hx
  | compressed hleft hright _ =>
    rw [List.mem_append, List.mem_cons, List.mem_cons] at hx
    rcases hx with hx | hx | hx | hx
    · exact tail_char (Or.inl hleft) hx
    · exact Or.inl hx
    · exact Or.inl hx
    · exact tail_char hright hx

theorem parseIpv6_sound (h : parseIpv6 text = some bytes) :
    ∃ values, Ipv6Literal text values ∧ bytes = groupBytes values := by
  obtain ⟨-, plain, hplain, values, hliteral, rfl⟩ := parseIpv6_iff_groups.mp h
  refine ⟨values, ?_, rfl⟩
  by_cases hdot : '.' ∈ text
  · rcases lastColon text with hcolon | ⟨start, tail, rfl, hcolon⟩
    · rw [withoutDots_noColon hdot hcolon] at hplain
      cases hplain
    · rw [withoutDots_colon hdot hcolon] at hplain
      split at hplain
      next a b c d hparts =>
        obtain rfl := Option.some.inj hplain
        have hquad := ipv4Parts_sound hparts
        have hwhole : start ++ [':'] ++ Nat.toDigits 16 (256 * a + b) ++
            ':' :: Nat.toDigits 16 (256 * c + d) = (start ++ [':']) ++ withoutQuad a b c d := by
          simp [withoutQuad]
        rw [hwhole] at hliteral
        have hresult := literal_congr (colonsApart_withoutQuad hquad) (Or.inr ⟨start, rfl⟩)
          (fun front hfront values => (tail_iff_groups hfront hquad).mpr) hliteral
        simpa [Ipv6Literal] using hresult
      next => cases hplain
  · simp only [withoutDots, if_neg hdot, Option.some.injEq] at hplain
    subst hplain
    exact literal_mono (fun _ _ _ => Or.inl) hliteral

theorem parseIpv6_complete (h : Ipv6Literal text values) :
    parseIpv6 text = some (groupBytes values) := by
  refine parseIpv6_iff_groups.mpr ⟨⟨?_, ?_, ?_⟩, ?_⟩
  · intro hx
    rcases literal_char h hx with h | h | h | h <;> revert h <;> decide
  · intro hx
    rcases literal_char h hx with h | h | h | h <;> revert h <;> decide
  · intro hx
    rcases literal_char h hx with h | h | h | h <;> revert h <;> decide
  by_cases hdot : '.' ∈ text
  · obtain ⟨start, quad, a, b, c, d, rfl, hquad⟩ := literal_dotted h hdot
    rw [withoutDots_colon hdot (dottedQuad_colon hquad), ipv4Parts_complete hquad]
    refine ⟨_, rfl, values, ?_, rfl⟩
    have hwhole : start ++ ':' :: quad = (start ++ [':']) ++ quad := by simp
    rw [hwhole] at h
    have hresult := literal_congr (colonsApart_quad hquad) (Or.inr ⟨start, rfl⟩)
      (fun front hfront values => (tail_iff_groups hfront hquad).mp) h
    simpa [withoutQuad] using hresult
  · refine ⟨text, by simp [withoutDots, hdot], values, ?_, rfl⟩
    refine literal_mono (fun tail hsubset values htail => ?_) h
    rcases htail with hgroups | ⟨words, front, quad, a, b, c, d, hwords, hquad, rfl, rfl⟩
    · exact hgroups
    · exact absurd (hsubset (List.mem_append_right _ (dottedQuad_dot hquad))) hdot

theorem parseIpv6_iff : parseIpv6 text = some bytes ↔
    ∃ values, Ipv6Literal text values ∧ bytes = groupBytes values := by
  refine ⟨parseIpv6_sound, ?_⟩
  rintro ⟨values, hliteral, rfl⟩
  exact parseIpv6_complete hliteral

example : parseIpv6 "64:FF9B::192.0.2.33".toList =
    some [0, 0x64, 0xff, 0x9b, 0, 0, 0, 0, 0, 0, 0, 0, 192, 0, 2, 33] := by
  decide +kernel

end Parts

section Spelling

variable {text other : String} {bytes : List ℕ} {address : Address}

def forbidden : Address → Bool
  | .v4 bytes => forbiddenV4 bytes
  | .v6 bytes => forbiddenV6 bytes

theorem isForbiddenAddress_of_spells (h : Spells text address) :
    isForbiddenAddress text = forbidden address := by
  unfold isForbiddenAddress
  cases address with
  | v4 bytes => rw [ipv4Parts_complete h, forbidden]
  | v6 bytes =>
    obtain ⟨values, hliteral, rfl⟩ := h
    have hnone : ipv4Parts text.toList = none := by
      rw [Option.eq_none_iff_forall_ne_some]
      intro bytes hbytes
      have hquad := ipv4Parts_sound hbytes
      obtain ⟨start, quad, -, -, -, -, htext, -⟩ := literal_dotted hliteral (dottedQuad_dot hquad)
      exact dottedQuad_colon hquad (by simp [htext])
    rw [hnone, parseIpv6_complete hliteral, forbidden]

theorem isForbiddenAddress_of_not_spells (h : ∀ address, ¬ Spells text address) :
    isForbiddenAddress text = true := by
  unfold isForbiddenAddress
  cases hv4 : ipv4Parts text.toList with
  | some bytes => exact absurd (ipv4Parts_sound hv4) (h (.v4 bytes))
  | none =>
    cases hv6 : parseIpv6 text.toList with
    | some bytes => exact absurd (parseIpv6_sound hv6) (h (.v6 bytes))
    | none => rfl

theorem forbidden_mappedAddress (bytes : List ℕ) :
    forbidden (mappedAddress bytes) = forbidden (.v4 bytes) := rfl

/-- The parsers accept the texts of addresses only, and read the bytes; so all spellings of an address
are forbidden or none, an address that stands for an IPv4 address is forbidden with it, and a text
that is no address is forbidden. -/
theorem classified_by_address :
    (∀ text bytes, ipv4Parts text = some bytes ↔ DottedQuad text bytes) ∧
      (∀ text bytes, parseIpv6 text = some bytes ↔
        ∃ values, Ipv6Literal text values ∧ bytes = groupBytes values) ∧
      (∀ text other address, Spells text address → Spells other address →
        isForbiddenAddress text = isForbiddenAddress other) ∧
      (∀ text other bytes, Spells text (mappedAddress bytes) → Spells other (.v4 bytes) →
        isForbiddenAddress text = isForbiddenAddress other) ∧
      ∀ text, (∀ address, ¬ Spells text address) → isForbiddenAddress text = true := by
  refine ⟨fun _ _ => ipv4Parts_iff, fun _ _ => parseIpv6_iff, ?_, ?_, ?_⟩
  · intro text other address htext hother
    rw [isForbiddenAddress_of_spells htext, isForbiddenAddress_of_spells hother]
  · intro text other bytes htext hother
    rw [isForbiddenAddress_of_spells htext, isForbiddenAddress_of_spells hother,
      forbidden_mappedAddress]
  · intro text htext
    exact isForbiddenAddress_of_not_spells htext

end Spelling

end NixstrCache.Network
