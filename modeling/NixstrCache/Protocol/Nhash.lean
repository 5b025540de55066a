import Mathlib.Algebra.GroupWithZero.Nat
import NixstrCache.Lib.Bech32
import NixstrCache.Lib.Texts

/-!
References to plaintext hashtree roots.

The Bech32 library is a parameter.  Its words are numbers below 32, and what it refuses is `none`.
-/

namespace NixstrCache.Protocol

section Results

theorem bind_eq_ok {ε α β : Type} {x : Except ε α} {f : α → Except ε β} {b : β} :
    x >>= f = .ok b ↔ ∃ a, x = .ok a ∧ f a = .ok b := by
  cases x with
  | error e => simp [bind, Except.bind]
  | ok a => simp [bind, Except.bind]

theorem map_eq_ok {ε α β : Type} {x : Except ε α} {f : α → β} {b : β} :
    x.map f = .ok b ↔ ∃ a, x = .ok a ∧ f a = b := by
  cases x with
  | error e => simp [Except.map]
  | ok a => simp [Except.map]

end Results

structure Bech32 where
  decode : String → ℕ → Option (String × List ℕ)
  encode : String → List ℕ → ℕ → String
  fromWords : List ℕ → Option (List UInt8)
  toWords : List UInt8 → List ℕ

inductive NhashError where
  | nhash (message : String)
  | unsupportedEncryptedRoot
deriving DecidableEq, Repr

def NhashError.message : NhashError → String
  | .nhash message => message
  | .unsupportedEncryptedRoot => "BUD-15 encrypted roots are unsupported"

structure PlaintextRoot where
  bytes : List UInt8
  hex : String
  nhash : String
deriving DecidableEq, Repr

structure TlvRecord where
  type : UInt8
  value : List UInt8
deriving DecidableEq, Repr

/-- The number of UTF-16 units, which is the length of a text in the source. -/
def utf16Length (text : String) : ℕ :=
  (text.toList.map fun c => if c.val < 0x10000 then 1 else 2).sum

def hexDigit (n : ℕ) : Char :=
  Char.ofNat (if n < 10 then '0'.toNat + n else 'a'.toNat + (n - 10))

def hexOf (bytes : List UInt8) : String :=
  String.ofList (bytes.flatMap fun byte => [hexDigit (byte.toNat / 16), hexDigit (byte.toNat % 16)])

section Nhash

variable (bech32 : Bech32)

def encodePlaintextNhash (root : List UInt8) : Except NhashError String :=
  if root.length ≠ 32 then .error (.nhash "root must be 32 bytes")
  else .ok (bech32.encode "nhash" (bech32.toWords (0 :: 32 :: root)) 200)

/-- The records of a payload.  Each one takes two bytes or more, so the length is fuel enough. -/
def tlvRecords : ℕ → List UInt8 → Except NhashError (List TlvRecord)
  | 0, _ | _, [] => .ok []
  | _ + 1, [_] => .error (.nhash "truncated TLV header")
  | fuel + 1, type :: length :: rest =>
    if rest.length < length.toNat then .error (.nhash "truncated TLV value")
    else
      (tlvRecords fuel (rest.drop length.toNat)).map fun records =>
        ⟨type, rest.take length.toNat⟩ :: records

def rootOfRecords (nhash : String) (records : List TlvRecord) : Except NhashError PlaintextRoot :=
  let roots := records.filter fun record => record.type = 0
  let keys := records.filter fun record => record.type = 5
  if records.any fun record => record.type ≠ 0 ∧ record.type ≠ 5 then
    .error (.nhash "unknown TLV record type")
  else
    match roots with
    | [root] =>
      if root.value.length ≠ 32 then .error (.nhash "nhash requires exactly one 32-byte root")
      else if (keys.any fun record => record.value.length ≠ 32) ∨ 1 < keys.length then
        .error (.nhash "invalid encrypted-root key record")
      else if keys.length = 1 then .error .unsupportedEncryptedRoot
      else .ok ⟨root.value, hexOf root.value, nhash⟩
    | _ => .error (.nhash "nhash requires exactly one 32-byte root")

def decodePlaintextNhash (toLowerCase : String → String) (value : String) :
    Except NhashError PlaintextRoot :=
  if 200 < utf16Length value ∨ value ≠ toLowerCase value then
    .error (.nhash "nhash is not canonical lowercase Bech32")
  else
    match bech32.decode value 200 with
    | none => .error (.nhash "invalid nhash Bech32 encoding")
    | some (hrp, words) =>
      if hrp ≠ "nhash" then .error (.nhash "wrong nhash HRP")
      else
        match bech32.fromWords words with
        | none => .error (.nhash "invalid nhash word padding")
        | some payload =>
          if bech32.encode "nhash" (bech32.toWords payload) 200 ≠ value then
            .error (.nhash "non-canonical nhash encoding")
          else tlvRecords payload.length payload >>= rootOfRecords value

/-- The library reads the payload back from the text that it has written for it, which is short and
in lower case. -/
structure Bech32.ReadsBack (toLowerCase : String → String) (payload : List UInt8) : Prop where
  decode : bech32.decode (bech32.encode "nhash" (bech32.toWords payload) 200) 200 =
    some ("nhash", bech32.toWords payload)
  fromWords : bech32.fromWords (bech32.toWords payload) = some payload
  short : utf16Length (bech32.encode "nhash" (bech32.toWords payload) 200) ≤ 200
  lower : toLowerCase (bech32.encode "nhash" (bech32.toWords payload) 200) =
    bech32.encode "nhash" (bech32.toWords payload) 200

variable {bech32} {toLowerCase : String → String} {value : String} {root : PlaintextRoot}

theorem encodePlaintextNhash_eq_ok {bytes : List UInt8} :
    encodePlaintextNhash bech32 bytes = .ok value ↔
      bytes.length = 32 ∧ bech32.encode "nhash" (bech32.toWords (0 :: 32 :: bytes)) 200 = value := by
  unfold encodePlaintextNhash
  split_ifs with hlength
  · simp [hlength]
  · simp [not_not.mp hlength]

theorem tlvRecords_nil (n : ℕ) : tlvRecords n [] = .ok [] := by
  cases n <;> rfl

theorem tlvRecords_eq_nil {n : ℕ} {payload : List UInt8} (h : tlvRecords (n + 1) payload = .ok []) :
    payload = [] := by
  match payload with
  | [] => rfl
  | [_] => cases h
  | type :: length :: rest =>
    rw [tlvRecords] at h
    split_ifs at h
    cases hrest : tlvRecords n (rest.drop length.toNat) <;> simp [hrest, Except.map] at h

theorem tlvRecords_eq_singleton {payload : List UInt8} {record : TlvRecord} :
    tlvRecords payload.length payload = .ok [record] ↔ ∃ length : UInt8,
      length.toNat = record.value.length ∧ payload = record.type :: length :: record.value := by
  constructor
  · intro h
    match payload with
    | [] => cases h
    | [_] => cases h
    | type :: length :: rest =>
      rw [List.length_cons, tlvRecords] at h
      split_ifs at h with hshort
      cases hrest : tlvRecords (rest.length + 1) (rest.drop length.toNat) with
      | error e => simp [hrest, Except.map] at h
      | ok records =>
        simp only [List.length_cons, hrest, Except.map, Except.ok.injEq, List.cons.injEq] at h
        obtain ⟨rfl, rfl⟩ := h
        have hlong : rest.length ≤ length.toNat := List.drop_eq_nil_iff.mp (tlvRecords_eq_nil hrest)
        refine ⟨length, ?_, ?_⟩
        · simp only [List.length_take]
          omega
        · rw [List.take_of_length_le hlong]
  · rintro ⟨length, hlength, rfl⟩
    rw [List.length_cons, List.length_cons, tlvRecords, if_neg (by omega),
      List.drop_eq_nil_of_le hlength.ge, List.take_of_length_le hlength.ge, tlvRecords_nil]
    rfl

theorem rootOfRecords_eq_ok {records : List TlvRecord} :
    rootOfRecords value records = .ok root ↔ records = [⟨0, root.bytes⟩] ∧ root.bytes.length = 32 ∧
      root.hex = hexOf root.bytes ∧ root.nhash = value := by
  constructor
  · intro h
    simp only [rootOfRecords] at h
    by_cases hunknown : (records.any fun record => record.type ≠ 0 ∧ record.type ≠ 5) = true
    · rw [if_pos hunknown] at h
      cases h
    rw [if_neg hunknown] at h
    split at h
    · next single hsingle =>
      split_ifs at h with hlength hkeys hencrypted
      simp only [Except.ok.injEq] at h
      subst h
      have hkeysNil : records.filter (fun record => record.type = 5) = [] := by
        push Not at hkeys
        exact List.length_eq_zero_iff.mp (by omega)
      have hroots : records.filter (fun record => record.type = 0) = records := by
        refine List.filter_eq_self.mpr fun record hrecord => ?_
        have hnotKey := List.filter_eq_nil_iff.mp hkeysNil record hrecord
        by_contra hnotRoot
        refine hunknown (List.any_eq_true.mpr ⟨record, hrecord, ?_⟩)
        simp_all
      obtain rfl : records = [single] := hroots.symm.trans hsingle
      have htype : single.type = 0 := by
        simpa using List.filter_eq_self.mp hroots single
      refine ⟨?_, not_not.mp hlength, rfl, rfl⟩
      cases single
      simp_all
    · cases h
  · rintro ⟨rfl, hlength, hhex, hnhash⟩
    obtain ⟨bytes, hex, nhash⟩ := root
    simp only at hlength hhex hnhash
    simp [rootOfRecords, hlength, hhex, hnhash]

theorem encoded_of_decoded (h : decodePlaintextNhash bech32 toLowerCase value = .ok root) :
    encodePlaintextNhash bech32 root.bytes = .ok value ∧ root.hex = hexOf root.bytes ∧
      root.nhash = value := by
  unfold decodePlaintextNhash at h
  split_ifs at h with hcase
  split at h
  · cases h
  · next hrp words hdecoded =>
    split_ifs at h with hhrp
    split at h
    · cases h
    · next payload hpayload =>
      split_ifs at h with hcanonical
      cases hrecords : tlvRecords payload.length payload with
      | error e => simp [hrecords, bind, Except.bind] at h
      | ok records =>
        simp only [hrecords, bind, Except.bind] at h
        obtain ⟨rfl, hlength, hhex, hnhash⟩ := rootOfRecords_eq_ok.mp h
        obtain ⟨length, htag, rfl⟩ := tlvRecords_eq_singleton.mp hrecords
        have hthirtyTwo : length = 32 := UInt8.toNat_inj.mp (htag.trans hlength)
        subst hthirtyTwo
        exact ⟨encodePlaintextNhash_eq_ok.mpr ⟨hlength, not_not.mp hcanonical⟩, hhex, hnhash⟩

theorem decoded_of_encoded (hlib : bech32.ReadsBack toLowerCase (0 :: 32 :: root.bytes))
    (h : encodePlaintextNhash bech32 root.bytes = .ok value) (hhex : root.hex = hexOf root.bytes)
    (hnhash : root.nhash = value) : decodePlaintextNhash bech32 toLowerCase value = .ok root := by
  obtain ⟨hlength, rfl⟩ := encodePlaintextNhash_eq_ok.mp h
  have hrecords : tlvRecords (0 :: 32 :: root.bytes : List UInt8).length (0 :: 32 :: root.bytes) =
      .ok [⟨0, root.bytes⟩] :=
    tlvRecords_eq_singleton.mpr ⟨32, hlength.symm, rfl⟩
  have hshort := hlib.short
  unfold decodePlaintextNhash
  rw [if_neg (by rw [hlib.lower]; simpa using hshort), hlib.decode]
  simp only [ne_eq, not_true_eq_false, if_false, hlib.fromWords, hrecords]
  exact rootOfRecords_eq_ok.mpr ⟨rfl, hlength, hhex, hnhash⟩

/-- With a library that reads back what it writes, the texts that are decoded are the encodings of the
roots of 32 bytes, and each one gives its root. -/
theorem decodes_encodings
    (hlib : ∀ bytes : List UInt8, bytes.length = 32 →
      bech32.ReadsBack toLowerCase (0 :: 32 :: bytes)) (value : String) :
    (∀ root, decodePlaintextNhash bech32 toLowerCase value = .ok root ↔
      encodePlaintextNhash bech32 root.bytes = .ok value ∧ root.hex = hexOf root.bytes ∧
        root.nhash = value) ∧
    ((∃ root, decodePlaintextNhash bech32 toLowerCase value = .ok root) ↔
      ∃ bytes, encodePlaintextNhash bech32 bytes = .ok value) := by
  have hiff : ∀ root, decodePlaintextNhash bech32 toLowerCase value = .ok root ↔
      encodePlaintextNhash bech32 root.bytes = .ok value ∧ root.hex = hexOf root.bytes ∧
        root.nhash = value := by
    refine fun root => ⟨encoded_of_decoded, fun ⟨hencoded, hhex, hnhash⟩ => ?_⟩
    exact decoded_of_encoded (hlib _ (encodePlaintextNhash_eq_ok.mp hencoded).1) hencoded hhex hnhash
  refine ⟨hiff, fun ⟨root, hroot⟩ => ⟨root.bytes, ((hiff root).mp hroot).1⟩, fun ⟨bytes, h⟩ => ?_⟩
  exact ⟨⟨bytes, hexOf bytes, value⟩, (hiff _).mpr ⟨h, rfl, rfl⟩⟩

end Nhash

section Library

/-- The library on texts in lower case. -/
def libraryBech32 : Bech32 where
  decode text limit := (BechText.decode limit text.toList).map fun (hrp, words) =>
    (String.ofList hrp, words)
  encode hrp words _ := String.ofList (BechText.encode hrp.toList words)
  fromWords := BechText.fromWords
  toWords := BechText.toWords

def asciiLowerCase (text : String) : String :=
  String.ofList (text.toList.map Char.toLower)

theorem libraryBech32_readsBack {payload : List UInt8} (h : payload.length ≤ 117) :
    libraryBech32.ReadsBack asciiLowerCase payload := by
  have hchars : ∀ c ∈ BechText.encode "nhash".toList (BechText.toWords payload),
      c.val < 0x10000 ∧ c.toLower = c := by
    have hall : ∀ c ∈ "nhash".toList ++ '1' :: BechText.alphabet, c.val < 0x10000 ∧ c.toLower = c :=
      Texts.forall_of_all (by decide +kernel)
    intro c hc
    refine hall c (List.mem_append.mpr ?_)
    rcases BechText.mem_encode hc with hc | hc | hc
    · exact Or.inl hc
    · exact Or.inr (List.mem_cons.mpr (Or.inl hc))
    · exact Or.inr (List.mem_cons.mpr (Or.inr hc))
  have hwords : (BechText.toWords payload).length = (8 * payload.length + 4) / 5 :=
    BechText.toWords_length payload
  have hhrp : "nhash".toList.length = 5 := by decide
  refine ⟨?_, BechText.fromWords_toWords payload, ?_, ?_⟩
  · simp only [libraryBech32, String.toList_ofList]
    rw [BechText.decode_encode (by decide) (fun word hword => BechText.toWords_lt word hword)
      (by omega)]
    rfl
  · simp only [libraryBech32, utf16Length, String.toList_ofList]
    rw [List.map_congr_left fun c hc => if_pos (hchars c hc).1, List.map_const', List.sum_replicate_nat,
      BechText.encode_length]
    omega
  · simp only [libraryBech32, asciiLowerCase, String.toList_ofList]
    rw [List.map_congr_left fun c hc => (hchars c hc).2, List.map_id']

theorem decodes_encodings_zero : ∃ root, decodePlaintextNhash libraryBech32 asciiLowerCase
    (libraryBech32.encode "nhash" (libraryBech32.toWords (0 :: 32 :: List.replicate 32 0)) 200) =
      .ok root :=
  (decodes_encodings (fun bytes h => libraryBech32_readsBack (by simp [h])) _).2.mpr
    ⟨List.replicate 32 0, encodePlaintextNhash_eq_ok.mpr ⟨by simp, rfl⟩⟩

end Library

end NixstrCache.Protocol
