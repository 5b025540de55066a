import Mathlib.Data.List.Basic
import Mathlib.Data.List.Induction
import Mathlib.Tactic.Common
import Mathlib.Algebra.Order.Group.Nat

/-!
Bech32 texts.

Bytes are regrouped into words of five bits, the last one filled up with zeros.  A text is a prefix,
the separator, the words and a checksum of six words.  A reader regroups the words, recomputes the
checksum and refuses what it would not have written.
-/

namespace NixstrCache.BechText

section Bits

def bitsOf : ℕ → ℕ → List Bool
  | 0, _ => []
  | width + 1, n => bitsOf width (n / 2) ++ [n % 2 == 1]

def ofBits (bits : List Bool) : ℕ :=
  bits.foldl (fun n bit => 2 * n + bit.toNat) 0

theorem bitsOf_length (width n : ℕ) : (bitsOf width n).length = width := by
  induction width generalizing n with
  | zero => rfl
  | succ width ih => simp [bitsOf, ih]

theorem ofBits_append (bits : List Bool) (bit : Bool) :
    ofBits (bits ++ [bit]) = 2 * ofBits bits + bit.toNat := by
  simp [ofBits]

theorem ofBits_bitsOf {width n : ℕ} (h : n < 2 ^ width) : ofBits (bitsOf width n) = n := by
  induction width generalizing n with
  | zero =>
    obtain rfl : n = 0 := by simpa using h
    rfl
  | succ width ih =>
    rw [bitsOf, ofBits_append, ih (by rw [pow_succ] at h; omega)]
    rcases Nat.mod_two_eq_zero_or_one n with hbit | hbit
    · simp [hbit]
      omega
    · simp [hbit]
      omega

theorem ofBits_lt (bits : List Bool) : ofBits bits < 2 ^ bits.length := by
  induction bits using List.reverseRecOn with
  | nil => simp [ofBits]
  | append_singleton bits bit ih =>
    rw [ofBits_append, List.length_append, List.length_singleton, pow_succ]
    have hbit : bit.toNat ≤ 1 := Bool.toNat_le bit
    omega

theorem bitsOf_ofBits (bits : List Bool) : bitsOf bits.length (ofBits bits) = bits := by
  induction bits using List.reverseRecOn with
  | nil => rfl
  | append_singleton bits bit ih =>
    rw [ofBits_append, List.length_append, List.length_singleton, bitsOf]
    have hhalf : (2 * ofBits bits + bit.toNat) / 2 = ofBits bits := by
      cases bit
      · simp
      · simp
        omega
    have hlast : ((2 * ofBits bits + bit.toNat) % 2 == 1) = bit := by
      cases bit <;> simp
    rw [hhalf, hlast, ih]

/-- The first `count` groups of `width` bits. -/
def groups (width : ℕ) : ℕ → List Bool → List (List Bool)
  | 0, _ => []
  | count + 1, bits => bits.take width :: groups width count (bits.drop width)

theorem groups_length (width count : ℕ) (bits : List Bool) :
    (groups width count bits).length = count := by
  induction count generalizing bits with
  | zero => rfl
  | succ count ih => simp [groups, ih]

theorem groups_flatMap {width count : ℕ} {bits : List Bool} (h : bits.length = width * count) :
    ((groups width count bits).map ofBits).flatMap (bitsOf width) = bits := by
  induction count generalizing bits with
  | zero => simp_all [groups]
  | succ count ih =>
    rw [Nat.mul_succ] at h
    have htake : (bits.take width).length = width := by simp; omega
    have hfirst : bitsOf width (ofBits (bits.take width)) = bits.take width := by
      have hall := bitsOf_ofBits (bits.take width)
      rwa [htake] at hall
    rw [groups, List.map_cons, List.flatMap_cons, hfirst, ih (by simp; omega), List.take_append_drop]

theorem groups_append {width : ℕ} {ns : List ℕ} {rest : List Bool} (h : ∀ n ∈ ns, n < 2 ^ width) :
    (groups width ns.length (ns.flatMap (bitsOf width) ++ rest)).map ofBits = ns := by
  induction ns with
  | nil => rfl
  | cons n ns ih =>
    have hlength := bitsOf_length width n
    rw [List.length_cons, groups, List.flatMap_cons, List.append_assoc, List.map_cons,
      List.take_append_of_le_length hlength.ge, List.take_of_length_le hlength.le,
      List.drop_append_of_le_length hlength.ge, List.drop_of_length_le hlength.le, List.nil_append,
      ofBits_bitsOf (h n (by simp)), ih fun m hm => h m (List.mem_cons_of_mem _ hm)]

theorem mem_groups_lt {width count n : ℕ} {bits : List Bool}
    (hn : n ∈ (groups width count bits).map ofBits) : n < 2 ^ width := by
  induction count generalizing bits with
  | zero => simp [groups] at hn
  | succ count ih =>
    rw [groups, List.map_cons, List.mem_cons] at hn
    rcases hn with rfl | hn
    · refine (ofBits_lt _).trans_le (Nat.pow_le_pow_right (by decide) ?_)
      simp
    · exact ih hn

end Bits

section Words

def byteBits (bytes : List UInt8) : List Bool :=
  (bytes.map UInt8.toNat).flatMap (bitsOf 8)

theorem byteBits_length (bytes : List UInt8) : (byteBits bytes).length = 8 * bytes.length := by
  induction bytes with
  | nil => rfl
  | cons byte bytes ih =>
    rw [byteBits, List.map_cons, List.flatMap_cons, List.length_append, bitsOf_length, ← byteBits, ih,
      List.length_cons]
    omega

def wordCount (bytes : List UInt8) : ℕ :=
  (8 * bytes.length + 4) / 5

def filling (bytes : List UInt8) : List Bool :=
  List.replicate (5 * wordCount bytes - 8 * bytes.length) false

def toWords (bytes : List UInt8) : List ℕ :=
  (groups 5 (wordCount bytes) (byteBits bytes ++ filling bytes)).map ofBits

def fromWords (words : List ℕ) : Option (List UInt8) :=
  let bits := words.flatMap (bitsOf 5)
  let rest := bits.drop (8 * (bits.length / 8))
  if 5 ≤ rest.length ∨ true ∈ rest ∨ (words.any fun word => 32 ≤ word) then none
  else some (((groups 8 (bits.length / 8) bits).map ofBits).map UInt8.ofNat)

theorem toWords_lt {bytes : List UInt8} : ∀ word ∈ toWords bytes, word < 32 :=
  fun _ hword => mem_groups_lt hword

theorem toWords_length (bytes : List UInt8) : (toWords bytes).length = wordCount bytes := by
  simp [toWords, groups_length]

theorem filled_length (bytes : List UInt8) :
    (byteBits bytes ++ filling bytes).length = 5 * wordCount bytes := by
  rw [List.length_append, filling, List.length_replicate, byteBits_length, wordCount]
  omega

theorem toWords_bits (bytes : List UInt8) :
    (toWords bytes).flatMap (bitsOf 5) = byteBits bytes ++ filling bytes :=
  groups_flatMap (filled_length bytes)

theorem fromWords_toWords (bytes : List UInt8) : fromWords (toWords bytes) = some bytes := by
  have hlength : (byteBits bytes ++ filling bytes).length / 8 = bytes.length := by
    rw [filled_length, wordCount]
    omega
  have hrest : (byteBits bytes ++ filling bytes).drop (8 * bytes.length) = filling bytes := by
    rw [← byteBits_length, List.drop_left]
  have hallowed : ¬(5 ≤ (filling bytes).length ∨ true ∈ filling bytes ∨
      ((toWords bytes).any fun word => 32 ≤ word) = true) := by
    rintro (hlong | htrue | hany)
    · rw [filling, List.length_replicate, wordCount] at hlong
      omega
    · simp [filling] at htrue
    · obtain ⟨word, hword, hle⟩ := List.any_eq_true.mp hany
      have hlt := toWords_lt word hword
      have := of_decide_eq_true hle
      omega
  have hgroups : (groups 8 bytes.length (byteBits bytes ++ filling bytes)).map ofBits =
      bytes.map UInt8.toNat := by
    have hall : ∀ n ∈ bytes.map UInt8.toNat, n < 2 ^ 8 := by
      intro n hn
      obtain ⟨byte, -, rfl⟩ := List.mem_map.mp hn
      exact byte.toNat_lt
    have hback : (groups 8 (bytes.map UInt8.toNat).length (byteBits bytes ++ filling bytes)).map ofBits =
        bytes.map UInt8.toNat := groups_append hall
    rwa [List.length_map] at hback
  have hbytes : (bytes.map UInt8.toNat).map UInt8.ofNat = bytes := by
    rw [List.map_map]
    exact List.map_id'' (fun byte => UInt8.ofNat_toNat) bytes
  unfold fromWords
  simp only [toWords_bits, hlength, hrest]
  rw [if_neg hallowed, hgroups, hbytes]

end Words

section Texts

def alphabet : List Char :=
  "qpzry9x8gf2tvdw0s3jn54khce6mua7l".toList

def charOf (word : ℕ) : Char :=
  alphabet.getD word 'q'

def wordOf (c : Char) : Option ℕ :=
  alphabet.findIdx? (· = c)

def polymod (checksum word : ℕ) : ℕ :=
  let high := checksum / 2 ^ 25
  let shifted := checksum % 2 ^ 25 * 32
  let mixed := [0x3b6a57b2, 0x26508e6d, 0x1ea119fa, 0x3d4233dd, 0x2a1462b3].zipIdx.foldl
    (fun mixed (generator, i) => if high.testBit i then mixed ^^^ generator else mixed) shifted
  mixed ^^^ word

/-- The words that the checksum covers: the prefix twice, the data, and room for itself. -/
def covered (start : List Char) (words : List ℕ) : List ℕ :=
  start.map (fun c => c.toNat / 32) ++ 0 :: start.map (fun c => c.toNat % 32) ++ words ++
    List.replicate 6 0

def checksum (start : List Char) (words : List ℕ) : List ℕ :=
  (groups 5 6 (bitsOf 30 ((covered start words).foldl polymod 1 ^^^ 1))).map ofBits

def encode (start : List Char) (words : List ℕ) : List Char :=
  start ++ '1' :: (words ++ checksum start words).map charOf

/-- The words of a text in lower case, with what stands before the last separator. -/
def decode (limit : ℕ) (text : List Char) : Option (List Char × List ℕ) :=
  let data := (text.reverse.takeWhile (· ≠ '1')).reverse
  let start := (text.reverse.dropWhile (· ≠ '1')).tail.reverse
  if text.length < 8 ∨ limit < text.length ∨ start = [] ∨ data.length < 6 then none
  else
    (data.mapM wordOf).bind fun all =>
      let words := all.take (all.length - 6)
      if all.drop (all.length - 6) = checksum start words then some (start, words) else none

theorem wordOf_charOf {word : ℕ} (h : word < 32) : wordOf (charOf word) = some word := by
  have hall : ∀ word < 32, wordOf (charOf word) = some word := by decide +kernel
  exact hall word h

theorem charOf_mem (word : ℕ) : charOf word ∈ alphabet := by
  unfold charOf
  rw [List.getD_eq_getElem?_getD]
  cases hget : alphabet[word]? with
  | none => decide +kernel
  | some c => exact List.mem_of_getElem? hget

theorem charOf_ne_one (word : ℕ) : charOf word ≠ '1' := by
  have habsent : '1' ∉ alphabet := by decide +kernel
  intro heq
  exact habsent (heq ▸ charOf_mem word)

theorem checksum_length (start : List Char) (words : List ℕ) : (checksum start words).length = 6 := by
  simp [checksum, groups_length]

theorem checksum_lt {start : List Char} {words : List ℕ} : ∀ word ∈ checksum start words, word < 32 :=
  fun _ hword => mem_groups_lt hword

theorem mapM_wordOf {words : List ℕ} (h : ∀ word ∈ words, word < 32) :
    (words.map charOf).mapM wordOf = some words := by
  induction words with
  | nil => rfl
  | cons word words ih =>
    rw [List.map_cons, List.mapM_cons, wordOf_charOf (h word (by simp)),
      ih fun w hw => h w (List.mem_cons_of_mem _ hw)]
    rfl

theorem mem_encode {start : List Char} {words : List ℕ} {c : Char} (h : c ∈ encode start words) :
    c ∈ start ∨ c = '1' ∨ c ∈ alphabet := by
  rcases List.mem_append.mp h with h | h
  · exact Or.inl h
  · rcases List.mem_cons.mp h with h | h
    · exact Or.inr (Or.inl h)
    · obtain ⟨word, -, rfl⟩ := List.mem_map.mp h
      exact Or.inr (Or.inr (charOf_mem word))

theorem encode_length (start : List Char) (words : List ℕ) :
    (encode start words).length = start.length + words.length + 7 := by
  simp [encode, checksum_length]
  omega

theorem decode_encode {start : List Char} {words : List ℕ} {limit : ℕ} (hstart : start ≠ [])
    (hwords : ∀ word ∈ words, word < 32) (hlimit : start.length + words.length + 7 ≤ limit) :
    decode limit (encode start words) = some (start, words) := by
  have hall : ∀ word ∈ words ++ checksum start words, word < 32 := by
    intro word hword
    rcases List.mem_append.mp hword with hword | hword
    · exact hwords word hword
    · exact checksum_lt word hword
  have hreverse : (encode start words).reverse =
      ((words ++ checksum start words).map charOf).reverse ++ '1' :: start.reverse := by
    simp [encode]
  have hplain : ∀ c ∈ ((words ++ checksum start words).map charOf).reverse,
      decide (c ≠ '1') = true := by
    intro c hc
    obtain ⟨word, -, rfl⟩ := List.mem_map.mp (List.mem_reverse.mp hc)
    simpa using charOf_ne_one word
  have hdata : ((encode start words).reverse.takeWhile (· ≠ '1')).reverse =
      (words ++ checksum start words).map charOf := by
    rw [hreverse, List.takeWhile_append_of_pos hplain]
    simp
  have hfront : ((encode start words).reverse.dropWhile (· ≠ '1')).tail.reverse = start := by
    rw [hreverse, List.dropWhile_append_of_pos hplain]
    simp
  have hpositive := List.length_pos_iff.mpr hstart
  unfold decode
  simp only [hdata, hfront, encode_length, mapM_wordOf hall]
  rw [if_neg]
  · simp [checksum_length]
  · simp [checksum_length, hstart]
    omega

end Texts

end NixstrCache.BechText
