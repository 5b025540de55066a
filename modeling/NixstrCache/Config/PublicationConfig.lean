import Mathlib.Data.List.TakeWhile
import NixstrCache.Config.CacheIdentity

/-!
What the configuration says about the publications of a writable cache.

These are the identity, the signature keys and the lifetime.  Every check adds its diagnostic, and a
configuration is accepted when there is none.
-/

namespace NixstrCache.Config

open Protocol

structure WritableIdentity where
  kind : ℕ
  identifier : String
deriving DecidableEq, Repr

inductive RawList where
  | text (value : String)
  | items (values : List String)
deriving DecidableEq, Repr

structure RawPublicationConfig where
  type : Option String
  name : Option String
  nixSigKeys : Option RawList
  lifetimeSeconds : Option String
deriving DecidableEq, Repr

structure PublicationConfig where
  identity : WritableIdentity
  nixSigKeys : List String
  lifetimeSeconds : ℤ
deriving DecidableEq, Repr

section Base64

def base64Char (digit : ℕ) : Char :=
  Char.ofNat (if digit < 26 then 'A'.toNat + digit
    else if digit < 52 then 'a'.toNat + (digit - 26)
    else if digit < 62 then '0'.toNat + (digit - 52)
    else if digit = 62 then '+'.toNat else '/'.toNat)

/-- The digits of whole groups of three bytes, and of the one or two bytes that are left. -/
def btoaDigits : List UInt8 → List ℕ
  | a :: b :: c :: rest =>
    a.toNat / 4 :: (a.toNat % 4 * 16 + b.toNat / 16) :: (b.toNat % 16 * 4 + c.toNat / 64) ::
      c.toNat % 64 :: btoaDigits rest
  | [a, b] => [a.toNat / 4, a.toNat % 4 * 16 + b.toNat / 16, b.toNat % 16 * 4]
  | [a] => [a.toNat / 4, a.toNat % 4 * 16]
  | [] => []

def btoa (bytes : List UInt8) : List Char :=
  (btoaDigits bytes).map base64Char ++ List.replicate ((3 - bytes.length % 3) % 3) '='

def isAsciiSpace (c : Char) : Bool :=
  c.toNat = 9 ∨ c.toNat = 10 ∨ c.toNat = 12 ∨ c.toNat = 13 ∨ c.toNat = 32

/-- The data without the padding that fills its last group. -/
def unpadded (data : List Char) : List Char :=
  if data.length % 4 ≠ 0 then data
  else
    match data.reverse with
    | '=' :: '=' :: rest => rest.reverse
    | '=' :: rest => rest.reverse
    | _ => data

def bytesOfDigits : List ℕ → List UInt8
  | [a, b] => [.ofNat (a * 4 + b / 16)]
  | digits => atob digits

def bytesOf (digits : List ℕ) : List UInt8 :=
  let whole := digits.length / 4 * 4
  atob (digits.take whole) ++ bytesOfDigits (digits.drop whole)

/-- `atob` on any text, or `none` where it throws. -/
def forgivingAtob (text : List Char) : Option (List UInt8) :=
  let data := unpadded (text.filter fun c => isAsciiSpace c = false)
  if data.length % 4 = 1 then none else (data.mapM base64Digit).map bytesOf

end Base64

section Base64Facts

theorem base64Digit_base64Char : ∀ digit < 64, base64Digit (base64Char digit) = some digit := by
  decide +kernel

theorem base64Char_ne : ∀ digit < 64, base64Char digit ≠ ':' ∧ base64Char digit ≠ '=' := by
  decide +kernel

theorem mapM_base64Char {digits : List ℕ} (h : ∀ digit ∈ digits, digit < 64) :
    (digits.map base64Char).mapM base64Digit = some digits := by
  induction digits with
  | nil => rfl
  | cons digit rest ih =>
    obtain ⟨hdigit, hrest⟩ := List.forall_mem_cons.mp h
    simp [base64Digit_base64Char digit hdigit, ih hrest]

theorem btoaDigits_lt (bytes : List UInt8) : ∀ digit ∈ btoaDigits bytes, digit < 64 := by
  induction bytes using btoaDigits.induct with
  | case1 a b c rest ih =>
    have ha := a.toNat_lt
    have hb := b.toNat_lt
    have hc := c.toNat_lt
    simp only [btoaDigits, List.forall_mem_cons]
    exact ⟨by omega, by omega, by omega, by omega, ih⟩
  | case2 a b =>
    have ha := a.toNat_lt
    have hb := b.toNat_lt
    simp only [btoaDigits, List.forall_mem_cons, List.not_mem_nil, false_imp_iff, implies_true, and_true]
    omega
  | case3 a =>
    have ha := a.toNat_lt
    simp only [btoaDigits, List.forall_mem_cons, List.not_mem_nil, false_imp_iff, implies_true, and_true]
    omega
  | case4 => simp [btoaDigits]

theorem btoaDigits_length (bytes : List UInt8) :
    (btoaDigits bytes).length = (4 * bytes.length + 2) / 3 := by
  induction bytes using btoaDigits.induct with
  | case1 a b c rest ih =>
    simp only [btoaDigits, List.length_cons, ih]
    omega
  | case2 a b => simp [btoaDigits]
  | case3 a => simp [btoaDigits]
  | case4 => simp [btoaDigits]

theorem atob_btoaDigits {bytes : List UInt8} (h : bytes.length % 3 ≠ 1) :
    atob (btoaDigits bytes) = bytes := by
  induction bytes using btoaDigits.induct with
  | case1 a b c rest ih =>
    have ha : (UInt8.ofNat (a.toNat / 4 * 4 + (a.toNat % 4 * 16 + b.toNat / 16) / 16)) = a := by
      have := b.toNat_lt
      rw [show a.toNat / 4 * 4 + (a.toNat % 4 * 16 + b.toNat / 16) / 16 = a.toNat by omega,
        UInt8.ofNat_toNat]
    have hb : UInt8.ofNat ((a.toNat % 4 * 16 + b.toNat / 16) % 16 * 16 +
        (b.toNat % 16 * 4 + c.toNat / 64) / 4) = b := by
      have hb := b.toNat_lt
      have := c.toNat_lt
      rw [show (a.toNat % 4 * 16 + b.toNat / 16) % 16 * 16 + (b.toNat % 16 * 4 + c.toNat / 64) / 4 =
        b.toNat by omega, UInt8.ofNat_toNat]
    have hc : UInt8.ofNat ((b.toNat % 16 * 4 + c.toNat / 64) % 4 * 64 + c.toNat % 64) = c := by
      have := c.toNat_lt
      rw [show (b.toNat % 16 * 4 + c.toNat / 64) % 4 * 64 + c.toNat % 64 = c.toNat by omega,
        UInt8.ofNat_toNat]
    have hrest := ih (by simp only [List.length_cons] at h; omega)
    simp only [btoaDigits, atob, ha, hb, hc, hrest]
  | case2 a b =>
    have ha : (UInt8.ofNat (a.toNat / 4 * 4 + (a.toNat % 4 * 16 + b.toNat / 16) / 16)) = a := by
      have := b.toNat_lt
      rw [show a.toNat / 4 * 4 + (a.toNat % 4 * 16 + b.toNat / 16) / 16 = a.toNat by omega,
        UInt8.ofNat_toNat]
    have hb : UInt8.ofNat ((a.toNat % 4 * 16 + b.toNat / 16) % 16 * 16 + b.toNat % 16 * 4 / 4) = b := by
      have hb := b.toNat_lt
      rw [show (a.toNat % 4 * 16 + b.toNat / 16) % 16 * 16 + b.toNat % 16 * 4 / 4 = b.toNat by omega,
        UInt8.ofNat_toNat]
    simp only [btoaDigits, atob, ha, hb]
  | case3 a => simp at h
  | case4 => rfl

theorem btoaDigits_last {bytes : List UInt8} (h : bytes.length % 3 = 2) :
    (btoaDigits bytes).getLastD 0 % 4 = 0 := by
  induction bytes using btoaDigits.induct with
  | case1 a b c rest ih =>
    have hrest := ih (by simp only [List.length_cons] at h; omega)
    have hne : btoaDigits rest ≠ [] := by
      intro hnil
      have := btoaDigits_length rest
      rw [hnil] at this
      simp only [List.length_cons, List.length_nil] at h this
      omega
    simp only [btoaDigits, List.getLastD_eq_getLast?] at hrest ⊢
    rwa [List.getLast?_cons_of_ne_nil (by simp), List.getLast?_cons_of_ne_nil (by simp),
      List.getLast?_cons_of_ne_nil (by simp), List.getLast?_cons_of_ne_nil hne]
  | case2 a b =>
    simp only [btoaDigits, List.getLastD_cons, List.getLastD_nil]
    omega
  | case3 a => simp at h
  | case4 => simp at h

theorem keyBytes_btoa {bytes : List UInt8} (h : bytes.length = 32) :
    keyBytes (String.ofList (btoa bytes)) = .ok bytes := by
  have hlength := btoaDigits_length bytes
  have hpadding : (3 - bytes.length % 3) % 3 = 1 := by omega
  rw [keyBytes, btoa, hpadding]
  simp only [String.toList_ofList, List.replicate_one, List.reverse_append, List.reverse_singleton,
    List.singleton_append, List.length_reverse, List.length_map, List.reverse_reverse,
    mapM_base64Char (btoaDigits_lt bytes), btoaDigits_last (by omega : bytes.length % 3 = 2),
    atob_btoaDigits (by omega : bytes.length % 3 ≠ 1)]
  simp [hlength, h]

end Base64Facts

section Parse

def trim (value : String) : String :=
  String.ofList ((value.toList.dropWhile isSpace).reverse.dropWhile isSpace).reverse

def listValues : Option RawList → List String
  | none => []
  | some (.text value) =>
    (((value.toList.splitOn ',').map String.ofList).map trim).filter (· ≠ "")
  | some (.items values) => (values.map trim).filter (· ≠ "")

def keyName (key : String) : String :=
  String.ofList (key.toList.takeWhile (· ≠ ':'))

def keyEncoded (key : String) : List Char :=
  (key.toList.dropWhile (· ≠ ':')).drop 1

def canonicalKey (key : String) : Bool :=
  ':' ∈ key.toList ∧ keyName key ≠ "" ∧
    (forgivingAtob (keyEncoded key)).any fun decoded =>
      decoded.length = 32 ∧ btoa decoded = keyEncoded key

/-- The keys from an index on, after those that have been seen. -/
def keyDiagnostics (index : ℕ) (seen : List String) : List String → List ConfigDiagnostic
  | [] => []
  | key :: rest =>
    (if canonicalKey key = false ∨ key ∈ seen then
      [⟨"writable.publication.nixSigKeys[" ++ toString index ++ "]", "invalid",
        "Nix signature keys must be unique canonical name:base64 public keys"⟩]
    else []) ++ keyDiagnostics (index + 1) (key :: seen) rest

def nixSigKeyDiagnostics (keys : List String) : List ConfigDiagnostic :=
  (if 32 < keys.length then
    [⟨"writable.publication.nixSigKeys", "out_of_range", "Nix signature keys must not exceed 32"⟩]
  else []) ++ keyDiagnostics 0 [] keys

def parseWritableIdentity (raw : RawPublicationConfig) :
    Option WritableIdentity × List ConfigDiagnostic :=
  match raw.type.map trim with
  | some "root" =>
    (some ⟨17091, ""⟩,
      if raw.name.isSome then [⟨"writable.name", "invalid", "writable.name must be absent for root"⟩]
      else [])
  | some "named" =>
    let name := (raw.name.map trim).getD ""
    if validCacheIdentifier name then (some ⟨37091, name⟩, [])
    else
      (none,
        [⟨"writable.name", "invalid", "writable.name must be a valid non-empty cache name"⟩])
  | _ => (none, [⟨"writable.type", "invalid", "writable.type must be root or named"⟩])

/-- `parseBoundedPositive`, where `number` is the integer that `Number` reads. -/
def parseBoundedPositive (number : String → Option ℤ) (value : Option String) (field : String)
    (fallback ceiling : ℤ) : ℤ × List ConfigDiagnostic :=
  let parsed := match value with
    | none => some fallback
    | some text => number text
  match parsed.filter fun n => isSafeInteger n ∧ 0 < n ∧ n ≤ ceiling with
  | some n => (n, [])
  | none =>
    (fallback, [⟨field, "out_of_range",
      field ++ " must be a positive integer no greater than " ++ toString ceiling⟩])

def parsePublicationConfig (number : String → Option ℤ) (raw : RawPublicationConfig) :
    Except (List ConfigDiagnostic) PublicationConfig :=
  let identity := parseWritableIdentity raw
  let nixSigKeys := listValues raw.nixSigKeys
  let lifetimeSeconds := parseBoundedPositive number raw.lifetimeSeconds
    "writable.publication.lifetimeSeconds" 2592000 31536000
  match identity.1, identity.2 ++ nixSigKeyDiagnostics nixSigKeys ++ lifetimeSeconds.2 with
  | some writable, [] => .ok ⟨writable, nixSigKeys, lifetimeSeconds.1⟩
  | _, diagnostics => .error diagnostics

end Parse

section Accepted

structure PublicationConfig.Accepted (config : PublicationConfig) : Prop where
  identity : config.identity.kind = 17091 ∧ config.identity.identifier = "" ∨
    config.identity.kind = 37091 ∧ validCacheIdentifier config.identity.identifier = true
  count : config.nixSigKeys.length ≤ 32
  keys : ∀ key ∈ config.nixSigKeys, canonicalKey key = true
  distinct : config.nixSigKeys.Nodup
  lifetime : 0 < config.lifetimeSeconds ∧ config.lifetimeSeconds ≤ 31536000

theorem keyDiagnostics_eq_nil {index : ℕ} {seen keys : List String} :
    keyDiagnostics index seen keys = [] ↔
      (∀ key ∈ keys, canonicalKey key = true ∧ key ∉ seen) ∧ keys.Nodup := by
  induction keys generalizing index seen with
  | nil => simp [keyDiagnostics]
  | cons key rest ih =>
    simp only [keyDiagnostics, List.append_eq_nil_iff, ih, List.forall_mem_cons, List.nodup_cons]
    constructor
    · rintro ⟨hkey, hrest, hnodup⟩
      have hfirst : ¬(canonicalKey key = false ∨ key ∈ seen) := by
        intro h
        rw [if_pos h] at hkey
        cases hkey
      simp only [not_or, Bool.not_eq_false] at hfirst
      refine ⟨⟨hfirst, fun k hk => ⟨(hrest k hk).1, ?_⟩⟩, ?_, hnodup⟩
      · exact fun hseen => (hrest k hk).2 (List.mem_cons_of_mem _ hseen)
      · exact fun hmem => (hrest key hmem).2 (by simp)
    · rintro ⟨⟨hfirst, hrest⟩, hfresh, hnodup⟩
      refine ⟨by simp [hfirst], fun k hk => ⟨(hrest k hk).1, ?_⟩, hnodup⟩
      rw [List.mem_cons, not_or]
      exact ⟨fun h => hfresh (h ▸ hk), (hrest k hk).2⟩

theorem nixSigKeyDiagnostics_eq_nil {keys : List String} :
    nixSigKeyDiagnostics keys = [] ↔
      keys.length ≤ 32 ∧ (∀ key ∈ keys, canonicalKey key = true) ∧ keys.Nodup := by
  rw [nixSigKeyDiagnostics, List.append_eq_nil_iff, keyDiagnostics_eq_nil]
  simp

theorem parseWritableIdentity_accepted {raw : RawPublicationConfig} {identity : WritableIdentity}
    (h : (parseWritableIdentity raw).1 = some identity) :
    identity.kind = 17091 ∧ identity.identifier = "" ∨
      identity.kind = 37091 ∧ validCacheIdentifier identity.identifier = true := by
  unfold parseWritableIdentity at h
  split at h
  · cases h
    exact Or.inl ⟨rfl, rfl⟩
  · dsimp only at h
    split_ifs at h with hvalid
    cases h
    exact Or.inr ⟨rfl, hvalid⟩
  · cases h

theorem parseBoundedPositive_accepted {number : String → Option ℤ} {value : Option String}
    {field : String} {fallback ceiling : ℤ}
    (h : (parseBoundedPositive number value field fallback ceiling).2 = []) :
    0 < (parseBoundedPositive number value field fallback ceiling).1 ∧
      (parseBoundedPositive number value field fallback ceiling).1 ≤ ceiling := by
  unfold parseBoundedPositive at h ⊢
  dsimp only at h ⊢
  split at h
  · next n hn =>
    have hbounds := (Option.filter_eq_some_iff.mp hn).2
    simp only [Bool.decide_and, Bool.and_eq_true, decide_eq_true_eq] at hbounds
    exact hbounds.2
  · cases h

theorem parsePublicationConfig_accepted {number : String → Option ℤ} {raw : RawPublicationConfig}
    {config : PublicationConfig} (h : parsePublicationConfig number raw = .ok config) :
    config.Accepted := by
  unfold parsePublicationConfig at h
  dsimp only at h
  split at h
  · next identity hidentity hdiagnostics =>
    cases h
    simp only [List.append_eq_nil_iff] at hdiagnostics
    obtain ⟨⟨-, hkeys⟩, hlifetime⟩ := hdiagnostics
    obtain ⟨hcount, hcanonical, hnodup⟩ := nixSigKeyDiagnostics_eq_nil.mp hkeys
    exact ⟨parseWritableIdentity_accepted hidentity, hcount, hcanonical, hnodup,
      parseBoundedPositive_accepted hlifetime⟩
  · cases h

end Accepted

section Keys

variable {key : String}

def keyBytesOf (key : String) : List UInt8 :=
  (forgivingAtob (keyEncoded key)).getD []

theorem canonicalKey_iff : canonicalKey key = true ↔ ':' ∈ key.toList ∧ keyName key ≠ "" ∧
    (keyBytesOf key).length = 32 ∧ btoa (keyBytesOf key) = keyEncoded key := by
  unfold canonicalKey keyBytesOf
  cases forgivingAtob (keyEncoded key) with
  | none => simp
  | some decoded => simp

theorem canonicalKey_text (h : canonicalKey key = true) :
    key.toList = (keyName key).toList ++ ':' :: btoa (keyBytesOf key) := by
  obtain ⟨hcolon, -, -, hencoded⟩ := canonicalKey_iff.mp h
  rw [hencoded, keyName, String.toList_ofList, keyEncoded]
  have hrest : key.toList.dropWhile (· ≠ ':') =
      ':' :: (key.toList.dropWhile (· ≠ ':')).drop 1 := by
    cases hdrop : key.toList.dropWhile (· ≠ ':') with
    | nil =>
      have hall := List.dropWhile_eq_nil_iff.mp hdrop ':' hcolon
      simp at hall
    | cons c rest =>
      have hhead := List.head?_dropWhile_not (· ≠ ':') key.toList
      rw [hdrop] at hhead
      simp only [List.head?_cons, decide_eq_false_iff_not, not_not] at hhead
      simp [hhead]
  rw [← hrest, List.takeWhile_append_dropWhile]

theorem keyName_colon (key : String) : ':' ∉ (keyName key).toList := by
  intro h
  rw [keyName, String.toList_ofList] at h
  simpa using List.mem_takeWhile_imp h

theorem btoa_colon (bytes : List UInt8) : ':' ∉ btoa bytes := by
  rw [btoa, List.mem_append, List.mem_map, not_or]
  constructor
  · rintro ⟨digit, hdigit, hchar⟩
    exact (base64Char_ne digit (btoaDigits_lt bytes digit hdigit)).1 hchar
  · simp [List.mem_replicate]

theorem splitOn_canonicalKey (h : canonicalKey key = true) :
    key.toList.splitOn ':' = [(keyName key).toList, btoa (keyBytesOf key)] := by
  have hname := keyName_colon key
  have hencoded := btoa_colon (keyBytesOf key)
  rw [canonicalKey_text h, List.splitOn_eq_splitOnP,
    List.splitOnP_append_cons_of_forall_mem _ ':' (by simp),
    List.splitOnP_eq_singleton]
  · intro c hc
    simpa using fun h : c = ':' => hencoded (h ▸ hc)
  · intro c hc
    simpa using fun h : c = ':' => hname (h ▸ hc)

def nixSigKeyTag (key : String) : List String :=
  ["nixSigKey", key]

def nixKeyOf (key : String) : NixSignatureKey :=
  ⟨keyName key, String.ofList (btoa (keyBytesOf key)), keyBytesOf key⟩

theorem nixKeyOf_name (key : String) : (nixKeyOf key).name = keyName key := by
  rw [nixKeyOf]

theorem nixKeyOf_bytes (key : String) : (nixKeyOf key).bytes = keyBytesOf key := by
  rw [nixKeyOf]

theorem parseNixKey_canonical (h : canonicalKey key = true) :
    parseNixKey (nixSigKeyTag key) =
      if validLabel (keyName key) then .ok (nixKeyOf key)
      else .error "invalid nixSigKey name or base64" := by
  obtain ⟨-, hname, hlength, -⟩ := canonicalKey_iff.mp h
  have hne : (keyName key).toList ≠ [] := by simpa using hname
  simp only [parseNixKey, nixSigKeyTag, splitOn_canonicalKey h, if_neg hne, String.ofList_toList,
    keyBytes_btoa hlength, Except.map, nixKeyOf]
  cases validLabel (keyName key) <;> simp

theorem canonicalKey_eq {other : String} (h : canonicalKey key = true)
    (hother : canonicalKey other = true) (hname : keyName key = keyName other)
    (hbytes : keyBytesOf key = keyBytesOf other) : key = other := by
  apply String.toList_inj.mp
  rw [canonicalKey_text h, canonicalKey_text hother, hname, hbytes]

theorem foldlM_nixKeys {done keys : List String}
    (hcanonical : ∀ key ∈ done ++ keys, canonicalKey key = true) (hnodup : (done ++ keys).Nodup)
    (hdone : (done.map keyName).Nodup) :
    (∃ result, (keys.map nixSigKeyTag).foldlM addNixKey (done.map nixKeyOf) = .ok result) ↔
      (∀ key ∈ keys, validLabel (keyName key) = true) ∧ ((done ++ keys).map keyName).Nodup := by
  induction keys generalizing done with
  | nil =>
    refine ⟨fun _ => ⟨by simp, by simpa using hdone⟩, fun _ => ⟨done.map nixKeyOf, rfl⟩⟩
  | cons key rest ih =>
    have hkey := hcanonical key (by simp)
    have hsplit : done ++ key :: rest = (done ++ [key]) ++ rest := by simp
    rw [List.map_cons, List.foldlM_cons, addNixKey, parseNixKey_canonical hkey]
    by_cases hlabel : validLabel (keyName key) = true
    · rw [if_pos hlabel]
      have hconflict : ((done.map nixKeyOf).any fun prior =>
          prior.name = (nixKeyOf key).name ∧ prior.bytes ≠ (nixKeyOf key).bytes) = true ↔
            keyName key ∈ done.map keyName := by
        simp only [List.any_map, List.any_eq_true, List.mem_map]
        refine exists_congr fun prior => and_congr_right fun hprior => ?_
        have hdiffers : keyName prior = keyName key → keyBytesOf prior ≠ keyBytesOf key := by
          intro hname hbytes
          obtain rfl := canonicalKey_eq (hcanonical prior (by simp [hprior])) hkey hname hbytes
          exact (List.nodup_append.mp hnodup).2.2 prior hprior prior (by simp) rfl
        rw [Function.comp_apply, decide_eq_true_iff, nixKeyOf_name, nixKeyOf_name, nixKeyOf_bytes,
          nixKeyOf_bytes]
        exact and_iff_left_of_imp hdiffers
      by_cases hmem : keyName key ∈ done.map keyName
      · simp only [bind, Except.bind, if_pos (hconflict.mpr hmem)]
        constructor
        · rintro ⟨result, ⟨⟩⟩
        · rintro ⟨-, hnames⟩
          rw [List.map_append, List.nodup_append] at hnames
          exact absurd rfl (hnames.2.2 _ hmem _ (by simp))
      · simp only [bind, Except.bind, if_neg (mt hconflict.mp hmem)]
        have hnext : done.map nixKeyOf ++ [nixKeyOf key] = (done ++ [key]).map nixKeyOf := by simp
        have hnames : ((done ++ [key]).map keyName).Nodup := by
          rw [List.map_append, List.map_singleton, List.nodup_append]
          refine ⟨hdone, by simp, ?_⟩
          rintro name hname _ hlast rfl
          rw [List.mem_singleton] at hlast
          exact hmem (hlast ▸ hname)
        rw [hsplit] at hcanonical hnodup ⊢
        rw [hnext, ih hcanonical hnodup hnames]
        simp [hlabel]
    · rw [if_neg hlabel]
      simp only [bind, Except.bind]
      constructor
      · rintro ⟨result, ⟨⟩⟩
      · rintro ⟨hlabels, -⟩
        exact absurd (hlabels key (by simp)) hlabel

end Keys

end NixstrCache.Config
