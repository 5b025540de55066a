import Mathlib.Data.List.Induction
import Mathlib.Data.Nat.Bitwise

/-!
The addresses that a fetch must not reach.

An address is read as four decimal bytes or as an IPv6 literal, and anything else is forbidden.  The
blocks are compared bit by bit, as the source does it; `inCidr_iff` says the same of the numbers that
the addresses stand for.
-/

namespace NixstrCache.Network

section Model

def isDecimalByte (part : List Char) : Bool :=
  0 < part.length ∧ part.length ≤ 3 ∧ part.all Char.isDigit

def decimalValue (part : List Char) : ℕ :=
  part.foldl (fun n c => 10 * n + (c.toNat - '0'.toNat)) 0

/-- The four bytes of a dotted address, without leading zeros. -/
def ipv4Parts (address : List Char) : Option (List ℕ) :=
  let parts := address.splitOn '.'
  if parts.length = 4 ∧ parts.all isDecimalByte ∧
      parts.all fun part => decimalValue part ≤ 255 ∧ (part = ['0'] ∨ part.head? ≠ some '0') then
    some (parts.map decimalValue)
  else none

def hexDigit (c : Char) : Option ℕ :=
  if c.isDigit then some (c.toNat - '0'.toNat)
  else if 'a' ≤ c ∧ c ≤ 'f' then some (c.toNat - 'a'.toNat + 10)
  else none

def hexWord (word : List Char) : Option ℕ :=
  if 1 ≤ word.length ∧ word.length ≤ 4 then
    (word.mapM hexDigit).map fun digits => digits.foldl (fun n d => 16 * n + d) 0
  else none

/-- `address.split("::")`. -/
def splitDouble : List Char → List (List Char)
  | [] => [[]]
  | ':' :: ':' :: rest => [] :: splitDouble rest
  | c :: rest =>
    match splitDouble rest with
    | [] => [[c]]
    | first :: others => (c :: first) :: others

def parseHalf (value : List Char) : Option (List ℕ) :=
  if value = [] then some [] else (value.splitOn ':').mapM hexWord

/-- The address with a dotted tail rewritten as two groups. -/
def withoutDots (address : List Char) : Option (List Char) :=
  if '.' ∈ address then
    let tail := (address.reverse.takeWhile (· ≠ ':')).reverse
    let start := (address.reverse.dropWhile (· ≠ ':')).reverse
    if start = [] then none
    else
      match ipv4Parts tail with
      | some [a, b, c, d] =>
        some (start ++ Nat.toDigits 16 (256 * a + b) ++ ':' :: Nat.toDigits 16 (256 * c + d))
      | _ => none
  else some address

/-- The eight groups of an address, where one `::` stands for the missing ones. -/
def ipv6Words (address : List Char) : Option (List ℕ) :=
  match splitDouble address with
  | [whole] => do
    let words ← parseHalf whole
    if words.length = 8 then some words else none
  | [first, second] => do
    let left ← parseHalf first
    let right ← parseHalf second
    if left.length + right.length < 8 then
      some (left ++ List.replicate (8 - left.length - right.length) 0 ++ right)
    else none
  | _ => none

def parseIpv6 (input : List Char) : Option (List ℕ) :=
  if '%' ∈ input ∨ '[' ∈ input ∨ ']' ∈ input then none
  else do
    let address ← withoutDots (input.map Char.toLower)
    let words ← ipv6Words address
    return words.flatMap fun word => [word / 256, word % 256]

def bitOf (bytes : List ℕ) (bit : ℕ) : Bool :=
  (bytes.getD (bit / 8) 0).testBit (7 - bit % 8)

def inCidr (bytes start : List ℕ) (bits : ℕ) : Bool :=
  (List.range bits).all fun bit => bitOf bytes bit = bitOf start bit

def V4_FORBIDDEN : List (List ℕ × ℕ) :=
  [([0, 0, 0, 0], 8), ([10, 0, 0, 0], 8), ([100, 64, 0, 0], 10), ([127, 0, 0, 0], 8),
    ([169, 254, 0, 0], 16), ([172, 16, 0, 0], 12), ([192, 0, 0, 0], 24), ([192, 0, 2, 0], 24),
    ([192, 168, 0, 0], 16), ([198, 18, 0, 0], 15), ([198, 51, 100, 0], 24), ([203, 0, 113, 0], 24),
    ([224, 0, 0, 0], 4), ([240, 0, 0, 0], 4)]

def V6_FORBIDDEN : List (String × ℕ) :=
  [("::", 128), ("::1", 128), ("64:ff9b:1::", 48), ("100::", 64), ("2001::", 23),
    ("2001:db8::", 32), ("fc00::", 7), ("fe80::", 10), ("ff00::", 8)]

def forbiddenV4 (bytes : List ℕ) : Bool :=
  V4_FORBIDDEN.any fun block => inCidr bytes block.1 block.2

/-- The last four bytes of an IPv6 address that stands for an IPv4 address. -/
def mappedV4 (bytes : List ℕ) : Option (List ℕ) :=
  if (bytes.take 10).all (· = 0) ∧ bytes.getD 10 0 = 255 ∧ bytes.getD 11 0 = 255 then
    some (bytes.drop 12)
  else none

def forbiddenV6 (bytes : List ℕ) : Bool :=
  match mappedV4 bytes with
  | some mapped => forbiddenV4 mapped
  | none => V6_FORBIDDEN.any fun block => inCidr bytes ((parseIpv6 block.1.toList).getD []) block.2

def isForbiddenAddress (address : String) : Bool :=
  match ipv4Parts address.toList with
  | some bytes => forbiddenV4 bytes
  | none =>
    match parseIpv6 address.toList with
    | some bytes => forbiddenV6 bytes
    | none => true

end Model

section Blocks

variable {bytes start : List ℕ} {bits : ℕ}

def addressValue (bytes : List ℕ) : ℕ :=
  bytes.foldl (fun n byte => 2 ^ 8 * n + byte) 0

theorem addressValue_concat (bytes : List ℕ) (byte : ℕ) :
    addressValue (bytes ++ [byte]) = 2 ^ 8 * addressValue bytes + byte := by
  simp [addressValue]

theorem addressValue_lt (h : ∀ byte ∈ bytes, byte < 2 ^ 8) :
    addressValue bytes < 2 ^ (8 * bytes.length) := by
  induction bytes using List.reverseRecOn with
  | nil => simp [addressValue]
  | append_singleton bytes byte ih =>
    have hbytes := ih fun b hb => h b (List.mem_append_left _ hb)
    have hbyte := h byte (by simp)
    rw [addressValue_concat, List.length_append, List.length_singleton, Nat.mul_add, Nat.mul_one,
      pow_add]
    omega

theorem bitOf_eq (h : ∀ byte ∈ bytes, byte < 2 ^ 8) {bit : ℕ} (hbit : bit < 8 * bytes.length) :
    bitOf bytes bit = (addressValue bytes).testBit (8 * bytes.length - 1 - bit) := by
  induction bytes using List.reverseRecOn with
  | nil => simp at hbit
  | append_singleton bytes byte ih =>
    have hbyte := h byte (by simp)
    rw [List.length_append, List.length_singleton] at hbit ⊢
    rw [addressValue_concat, Nat.testBit_two_pow_mul_add _ hbyte]
    by_cases hlast : bit < 8 * bytes.length
    · rw [if_neg (by omega), show 8 * (bytes.length + 1) - 1 - bit - 8 = 8 * bytes.length - 1 - bit by
        omega, ← ih (fun b hb => h b (List.mem_append_left _ hb)) hlast]
      have hindex : bit / 8 < bytes.length := by omega
      simp [bitOf, List.getD_eq_getElem?_getD, List.getElem?_append_left hindex]
    · have hindex : bit / 8 = bytes.length := by omega
      rw [if_pos (by omega)]
      simp only [bitOf, hindex, List.getD_eq_getElem?_getD, List.getElem?_concat_length,
        Option.getD_some]
      congr 1
      omega

theorem inCidr_iff (hlength : bytes.length = start.length) (hbits : bits ≤ 8 * start.length)
    (hbytes : ∀ byte ∈ bytes, byte < 2 ^ 8) (hstart : ∀ byte ∈ start, byte < 2 ^ 8) :
    inCidr bytes start bits = true ↔
      addressValue bytes / 2 ^ (8 * start.length - bits) =
        addressValue start / 2 ^ (8 * start.length - bits) := by
  have hsame : inCidr bytes start bits = true ↔
      ∀ bit < bits, (addressValue bytes).testBit (8 * start.length - 1 - bit) =
        (addressValue start).testBit (8 * start.length - 1 - bit) := by
    simp only [inCidr, List.all_eq_true, List.mem_range, decide_eq_true_eq]
    refine forall₂_congr fun bit hbit => ?_
    rw [bitOf_eq hbytes (by omega), bitOf_eq hstart (by omega), hlength]
  rw [hsame]
  constructor
  · intro h
    apply Nat.eq_of_testBit_eq
    intro i
    simp only [Nat.testBit_div_two_pow]
    by_cases hi : i < bits
    · have := h (bits - 1 - i) (by omega)
      rwa [show 8 * start.length - 1 - (bits - 1 - i) = i + (8 * start.length - bits) by omega] at this
    · have hlarge : 2 ^ (8 * start.length) ≤ 2 ^ (i + (8 * start.length - bits)) :=
        Nat.pow_le_pow_right (by decide) (by omega)
      have hb := addressValue_lt hbytes
      rw [hlength] at hb
      rw [Nat.testBit_lt_two_pow (hb.trans_le hlarge),
        Nat.testBit_lt_two_pow ((addressValue_lt hstart).trans_le hlarge)]
  · intro h bit hbit
    have := congrArg (fun n => n.testBit (bits - 1 - bit)) h
    simp only [Nat.testBit_div_two_pow] at this
    rwa [show bits - 1 - bit + (8 * start.length - bits) = 8 * start.length - 1 - bit by omega] at this

end Blocks

section Literals

variable {address : List Char} {bytes : List ℕ}

theorem ipv4Parts_bytes (h : ipv4Parts address = some bytes) :
    bytes.length = 4 ∧ ∀ byte ∈ bytes, byte < 2 ^ 8 := by
  simp only [ipv4Parts, Option.ite_none_right_eq_some, Option.some.injEq] at h
  obtain ⟨⟨hlength, -, hparts⟩, rfl⟩ := h
  refine ⟨by simpa using hlength, ?_⟩
  intro byte hbyte
  obtain ⟨part, hpart, rfl⟩ := List.mem_map.mp hbyte
  have hvalue := List.all_eq_true.mp hparts part hpart
  simp only [Bool.decide_and, Bool.and_eq_true, decide_eq_true_eq] at hvalue
  omega

theorem hexDigit_lt {c : Char} {digit : ℕ} (h : hexDigit c = some digit) : digit < 16 := by
  unfold hexDigit at h
  split_ifs at h with hdigit hletter
  · obtain rfl := Option.some.inj h
    simp only [Char.isDigit, Bool.and_eq_true, decide_eq_true_eq, UInt32.le_iff_toNat_le] at hdigit
    have hlast : c.toNat ≤ 57 := hdigit.2
    simp only [Char.reduceToNat]
    omega
  · obtain rfl := Option.some.inj h
    have hlast : c.toNat ≤ 102 := UInt32.le_iff_toNat_le.mp hletter.2
    simp only [Char.reduceToNat]
    omega

theorem mapM_some {α β : Type} {f : α → Option β} {l : List α} {values : List β}
    (h : l.mapM f = some values) :
    values.length = l.length ∧ ∀ value ∈ values, ∃ a ∈ l, f a = some value := by
  induction l generalizing values with
  | nil =>
    simp only [List.mapM_nil, Option.pure_def, Option.some.injEq] at h
    simp [← h]
  | cons a rest ih =>
    rw [List.mapM_cons] at h
    simp only [Option.bind_eq_bind, Option.bind_eq_some_iff, Option.pure_def, Option.some.injEq] at h
    obtain ⟨value, hvalue, others, hothers, rfl⟩ := h
    obtain ⟨hlength, hmem⟩ := ih hothers
    refine ⟨by simp [hlength], ?_⟩
    intro v hv
    rcases List.mem_cons.mp hv with rfl | hv
    · exact ⟨a, by simp, hvalue⟩
    · obtain ⟨b, hb, hfb⟩ := hmem v hv
      exact ⟨b, by simp [hb], hfb⟩

theorem digits_lt {digits : List ℕ} (h : ∀ digit ∈ digits, digit < 16) :
    digits.foldl (fun n d => 16 * n + d) 0 < 16 ^ digits.length := by
  induction digits using List.reverseRecOn with
  | nil => simp
  | append_singleton digits digit ih =>
    have hdigits := ih fun d hd => h d (List.mem_append_left _ hd)
    have hdigit := h digit (by simp)
    simp only [List.foldl_append, List.foldl_cons, List.foldl_nil, List.length_append,
      List.length_singleton, pow_succ]
    omega

theorem hexWord_lt {word : List Char} {value : ℕ} (h : hexWord word = some value) :
    value < 2 ^ 16 := by
  simp only [hexWord, Option.ite_none_right_eq_some, Option.map_eq_some_iff] at h
  obtain ⟨hword, digits, hdigits, rfl⟩ := h
  obtain ⟨hlength, hmem⟩ := mapM_some hdigits
  have hlt := digits_lt fun digit hdigit => by
    obtain ⟨c, -, hc⟩ := hmem digit hdigit
    exact hexDigit_lt hc
  have hpow : 16 ^ digits.length ≤ 16 ^ 4 := Nat.pow_le_pow_right (by decide) (by omega)
  omega

theorem parseHalf_lt {value : List Char} {words : List ℕ} (h : parseHalf value = some words) :
    ∀ word ∈ words, word < 2 ^ 16 := by
  unfold parseHalf at h
  split_ifs at h
  · obtain rfl := Option.some.inj h
    simp
  · intro word hword
    obtain ⟨text, -, htext⟩ := (mapM_some h).2 word hword
    exact hexWord_lt htext

theorem ipv6Words_spec {words : List ℕ} (h : ipv6Words address = some words) :
    words.length = 8 ∧ ∀ word ∈ words, word < 2 ^ 16 := by
  unfold ipv6Words at h
  split at h
  · simp only [Option.bind_eq_bind, Option.bind_eq_some_iff, Option.ite_none_right_eq_some,
      Option.some.injEq] at h
    obtain ⟨whole, hwhole, hlength, rfl⟩ := h
    exact ⟨hlength, parseHalf_lt hwhole⟩
  · simp only [Option.bind_eq_bind, Option.bind_eq_some_iff, Option.ite_none_right_eq_some,
      Option.some.injEq] at h
    obtain ⟨left, hleft, right, hright, hmissing, rfl⟩ := h
    constructor
    · simp only [List.length_append, List.length_replicate]
      omega
    · intro word hword
      simp only [List.mem_append, List.mem_replicate] at hword
      rcases hword with (hword | ⟨-, rfl⟩) | hword
      · exact parseHalf_lt hleft word hword
      · decide
      · exact parseHalf_lt hright word hword
  · cases h

theorem parseIpv6_bytes (h : parseIpv6 address = some bytes) :
    bytes.length = 16 ∧ ∀ byte ∈ bytes, byte < 2 ^ 8 := by
  simp only [parseIpv6, Option.bind_eq_bind, Option.ite_none_left_eq_some, Option.bind_eq_some_iff,
    Option.pure_def, Option.some.injEq] at h
  obtain ⟨-, plain, -, words, hwords, rfl⟩ := h
  obtain ⟨hlength, hlt⟩ := ipv6Words_spec hwords
  constructor
  · simp [List.length_flatMap, List.map_const', hlength]
  · intro byte hbyte
    obtain ⟨word, hword, hbyte⟩ := List.mem_flatMap.mp hbyte
    have := hlt word hword
    simp only [List.mem_cons, List.not_mem_nil, or_false] at hbyte
    omega

end Literals

section Policy

variable {address : String} {bytes : List ℕ}

def OutsideV4 (bytes : List ℕ) : Prop :=
  ∀ block ∈ V4_FORBIDDEN,
    addressValue bytes / 2 ^ (32 - block.2) ≠ addressValue block.1 / 2 ^ (32 - block.2)

/-- The address is in none of the IPv6 blocks, nor does it stand for an IPv4 address of a block. -/
def OutsideV6 (bytes : List ℕ) : Prop :=
  match mappedV4 bytes with
  | some mapped => OutsideV4 mapped
  | none => ∀ block ∈ V6_FORBIDDEN, ∀ start ∈ parseIpv6 block.1.toList,
      addressValue bytes / 2 ^ (128 - block.2) ≠ addressValue start / 2 ^ (128 - block.2)

theorem v4_blocks (block : List ℕ × ℕ) (h : block ∈ V4_FORBIDDEN) :
    block.1.length = 4 ∧ block.2 ≤ 32 ∧ ∀ byte ∈ block.1, byte < 2 ^ 8 := by
  revert block
  decide

theorem v6_blocks (block : String × ℕ) (h : block ∈ V6_FORBIDDEN) :
    (parseIpv6 block.1.toList).isSome = true ∧ block.2 ≤ 128 := by
  revert block
  decide +kernel

theorem forbiddenV4_eq_false (hlength : bytes.length = 4) (hbytes : ∀ byte ∈ bytes, byte < 2 ^ 8) :
    forbiddenV4 bytes = false ↔ OutsideV4 bytes := by
  rw [forbiddenV4, List.any_eq_false]
  refine forall₂_congr fun block hblock => ?_
  obtain ⟨hblockLength, hbits, hblockBytes⟩ := v4_blocks block hblock
  rw [inCidr_iff (hlength.trans hblockLength.symm) (by omega) hbytes hblockBytes, hblockLength]

theorem forbiddenV6_eq_false (hlength : bytes.length = 16)
    (hbytes : ∀ byte ∈ bytes, byte < 2 ^ 8) : forbiddenV6 bytes = false ↔ OutsideV6 bytes := by
  unfold forbiddenV6 OutsideV6
  cases hmapped : mappedV4 bytes with
  | some mapped =>
    simp only [mappedV4, Option.ite_none_right_eq_some, Option.some.injEq] at hmapped
    obtain ⟨-, rfl⟩ := hmapped
    exact forbiddenV4_eq_false (by simp [hlength]) fun byte hbyte =>
      hbytes byte (List.mem_of_mem_drop hbyte)
  | none =>
    simp only [List.any_eq_false]
    refine forall₂_congr fun block hblock => ?_
    obtain ⟨hsome, hbits⟩ := v6_blocks block hblock
    obtain ⟨start, hstart⟩ := Option.isSome_iff_exists.mp hsome
    obtain ⟨hstartLength, hstartBytes⟩ := parseIpv6_bytes hstart
    rw [hstart, Option.getD_some,
      inCidr_iff (hlength.trans hstartLength.symm) (by omega) hbytes hstartBytes, hstartLength]
    simp

theorem allowed_iff : isForbiddenAddress address = false ↔
    (∃ bytes, ipv4Parts address.toList = some bytes ∧ OutsideV4 bytes) ∨
      (ipv4Parts address.toList = none ∧
        ∃ bytes, parseIpv6 address.toList = some bytes ∧ OutsideV6 bytes) := by
  unfold isForbiddenAddress
  cases hv4 : ipv4Parts address.toList with
  | some bytes =>
    obtain ⟨hlength, hbytes⟩ := ipv4Parts_bytes hv4
    simp [forbiddenV4_eq_false hlength hbytes]
  | none =>
    cases hv6 : parseIpv6 address.toList with
    | some bytes =>
      obtain ⟨hlength, hbytes⟩ := parseIpv6_bytes hv6
      simp [forbiddenV6_eq_false hlength hbytes]
    | none => simp

end Policy

end NixstrCache.Network
