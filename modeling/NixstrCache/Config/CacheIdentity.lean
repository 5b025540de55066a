import NixstrCache.Protocol.Publication

/-!
Cache identities as text.

The configuration parses them and the write repository checks them again before it binds a staging
directory.  Both match one pattern, whose groups are the kind, the public key and the identifier.
-/

namespace NixstrCache.Config

open Protocol

structure CacheIdentity where
  kind : ℕ
  pubkey : String
  identifier : String
deriving DecidableEq, Repr

structure ConfigDiagnostic where
  field : String
  code : String
  message : String
deriving DecidableEq, Repr

/-- What `.` does not match. -/
def isLineTerminator (c : Char) : Bool :=
  c.toNat = 10 ∨ c.toNat = 13 ∨ c.toNat = 0x2028 ∨ c.toNat = 0x2029

def isLowerHex (c : Char) : Bool :=
  ('0' ≤ c ∧ c ≤ '9') ∨ ('a' ≤ c ∧ c ≤ 'f')

structure IdentityMatch where
  kind : String
  pubkey : String
  identifier : String
deriving DecidableEq, Repr

/-- The groups of `/^(17091|37091):([0-9a-f]{64}):(.*)$/`. -/
def matchIdentity (value : String) : Option IdentityMatch :=
  let chars := value.toList
  let kind := String.ofList (chars.take 5)
  let pubkey := (chars.drop 6).take 64
  let identifier := chars.drop 71
  if (kind = "17091" ∨ kind = "37091") ∧ chars[5]? = some ':' ∧ pubkey.all isLowerHex ∧
      chars[70]? = some ':' ∧ identifier.all fun c => ¬isLineTerminator c then
    some ⟨kind, String.ofList pubkey, String.ofList identifier⟩
  else none

def validCacheIdentifier (identifier : String) : Bool :=
  0 < identifier.utf8ByteSize ∧ identifier.utf8ByteSize ≤ 64 ∧ ':' ∉ identifier.toList ∧
    ¬identifier.toList.any fun c => isSpace c ∨ c.toNat < 32 ∨ c.toNat = 127

def formatCacheIdentity (identity : CacheIdentity) : String :=
  toString identity.kind ++ ":" ++ identity.pubkey ++ ":" ++ identity.identifier

/-- `parseCacheIdentity`, with the diagnostics after the call. -/
def parseCacheIdentity (value field : String) (diagnostics : List ConfigDiagnostic) :
    Option CacheIdentity × List ConfigDiagnostic :=
  match matchIdentity value with
  | none =>
    (none, diagnostics ++ [⟨field, "invalid",
      "cache identity must be a raw kind-17091 or kind-37091 cache identity"⟩])
  | some found =>
    let kind := if found.kind = "17091" then 17091 else 37091
    if (kind = 17091 ∧ found.identifier ≠ "") ∨
        (kind = 37091 ∧ validCacheIdentifier found.identifier = false) then
      (none, diagnostics ++ [⟨field, "invalid",
        if kind = 17091 then "kind-17091 cache identity must have an empty identifier"
        else "kind-37091 cache identity must have one valid non-empty identifier"⟩])
    else (some ⟨kind, found.pubkey, found.identifier⟩, diagnostics)

/-- `canonicalWritableIdentity` of the write repository. -/
def canonicalWritableIdentity (identity : String) : Bool :=
  match matchIdentity identity with
  | none => false
  | some found =>
    if found.kind = "17091" then found.identifier = ""
    else
      0 < found.identifier.utf8ByteSize ∧ found.identifier.utf8ByteSize ≤ 64 ∧
        ':' ∉ found.identifier.toList ∧
        ¬found.identifier.toList.any fun c => isSpace c ∨ c.toNat < 32 ∨ c.toNat = 127

structure CacheIdentity.Valid (identity : CacheIdentity) : Prop where
  pubkey : identity.pubkey.length = 64 ∧ identity.pubkey.toList.all isLowerHex = true
  named : identity.kind = 17091 ∧ identity.identifier = "" ∨
    identity.kind = 37091 ∧ validCacheIdentifier identity.identifier = true

section Text

variable {value field : String} {diagnostics : List ConfigDiagnostic} {identity : CacheIdentity}

theorem drop_of_getElem? {chars : List Char} {n : ℕ} {c : Char} (h : chars[n]? = some c) :
    chars.drop n = c :: chars.drop (n + 1) := by
  obtain ⟨hn, rfl⟩ := List.getElem?_eq_some_iff.mp h
  exact List.drop_eq_getElem_cons hn

theorem matchIdentity_text {found : IdentityMatch} (h : matchIdentity value = some found) :
    value = found.kind ++ ":" ++ found.pubkey ++ ":" ++ found.identifier ∧
      found.pubkey.length = 64 ∧ found.pubkey.toList.all isLowerHex = true ∧
      (found.kind = "17091" ∨ found.kind = "37091") := by
  unfold matchIdentity at h
  simp only at h
  split_ifs at h with hmatch
  obtain ⟨hkind, hfirst, hhex, hsecond, -⟩ := hmatch
  cases h
  have hlong : 70 < value.toList.length := (List.getElem?_eq_some_iff.mp hsecond).1
  refine ⟨?_, ?_, ?_, hkind⟩
  · apply String.toList_inj.mp
    have hkey : value.toList.drop 6 = (value.toList.drop 6).take 64 ++ value.toList.drop 70 :=
      (List.take_append_drop 64 _).symm.trans (by rw [List.drop_drop])
    calc value.toList
        = value.toList.take 5 ++ value.toList.drop 5 := (List.take_append_drop 5 _).symm
      _ = value.toList.take 5 ++ ':' :: value.toList.drop 6 := by rw [drop_of_getElem? hfirst]
      _ = value.toList.take 5 ++ ':' :: ((value.toList.drop 6).take 64 ++ value.toList.drop 70) := by
        rw [← hkey]
      _ = value.toList.take 5 ++ ':' :: ((value.toList.drop 6).take 64 ++
            ':' :: value.toList.drop 71) := by rw [drop_of_getElem? hsecond]
      _ = _ := by simp
  · simp only [String.length_ofList, List.length_take, List.length_drop]
    omega
  · simpa using hhex

theorem matchIdentity_format {kind pubkey identifier : String}
    (hkind : kind = "17091" ∨ kind = "37091") (hlength : pubkey.length = 64)
    (hhex : pubkey.toList.all isLowerHex = true)
    (hline : identifier.toList.all (fun c => ¬isLineTerminator c) = true) :
    matchIdentity (kind ++ ":" ++ pubkey ++ ":" ++ identifier) = some ⟨kind, pubkey, identifier⟩ := by
  have hfive : kind.toList.length = 5 := by rcases hkind with rfl | rfl <;> rfl
  have hsixtyFour : pubkey.toList.length = 64 := by rw [String.length_toList, hlength]
  have hchars : (kind ++ ":" ++ pubkey ++ ":" ++ identifier).toList =
      kind.toList ++ ':' :: (pubkey.toList ++ ':' :: identifier.toList) := by simp
  have htake : (kind.toList ++ ':' :: (pubkey.toList ++ ':' :: identifier.toList)).take 5 =
      kind.toList := by
    rw [← hfive, List.take_left']
    rfl
  have hkey : (kind.toList ++ ':' :: (pubkey.toList ++ ':' :: identifier.toList)).drop 6 =
      pubkey.toList ++ ':' :: identifier.toList := by
    simp [List.drop_append, hfive]
  have hkeyTake : (pubkey.toList ++ ':' :: identifier.toList).take 64 = pubkey.toList := by
    rw [← hsixtyFour, List.take_left']
    rfl
  have hfirst : (kind.toList ++ ':' :: (pubkey.toList ++ ':' :: identifier.toList))[5]? = some ':' := by
    simp [hfive]
  have hsecond : (kind.toList ++ ':' :: (pubkey.toList ++ ':' :: identifier.toList))[70]? = some ':' := by
    simp [List.getElem?_append, hfive, hsixtyFour]
  have hlast : (kind.toList ++ ':' :: (pubkey.toList ++ ':' :: identifier.toList)).drop 71 =
      identifier.toList := by
    have hkindEnd : kind.toList.drop 71 = [] := List.drop_eq_nil_of_le (by omega)
    have hkeyEnd : pubkey.toList.drop 65 = [] := List.drop_eq_nil_of_le (by omega)
    simp [List.drop_append, hfive, hsixtyFour, hkindEnd, hkeyEnd]
  unfold matchIdentity
  simp only [hchars, htake, hkey, hkeyTake, hfirst, hsecond, hlast, String.ofList_toList]
  rw [if_pos ⟨hkind, trivial, hhex, trivial, hline⟩]

theorem validCacheIdentifier_line {identifier : String} (h : validCacheIdentifier identifier = true) :
    identifier.toList.all (fun c => ¬isLineTerminator c) = true := by
  simp only [validCacheIdentifier, decide_eq_true_eq] at h
  obtain ⟨-, -, -, hchars⟩ := h
  rw [List.all_eq_true]
  intro c hc
  simp only [List.any_eq_true, not_exists, not_and, decide_eq_true_eq, not_or] at hchars ⊢
  have hspace := (hchars c hc).1
  simp only [isSpace, decide_eq_true_eq, isLineTerminator] at hspace ⊢
  omega

theorem canonicalWritableIdentity_of_match {found : IdentityMatch}
    (h : matchIdentity value = some found) :
    canonicalWritableIdentity value =
      if found.kind = "17091" then decide (found.identifier = "")
      else validCacheIdentifier found.identifier := by
  unfold canonicalWritableIdentity
  rw [h]
  rfl

theorem canonicalWritableIdentity_iff (field : String) (diagnostics : List ConfigDiagnostic) :
    canonicalWritableIdentity value = true ↔
      (parseCacheIdentity value field diagnostics).1.isSome = true := by
  unfold parseCacheIdentity
  cases hfound : matchIdentity value with
  | none =>
    unfold canonicalWritableIdentity
    simp [hfound]
  | some found =>
    rw [canonicalWritableIdentity_of_match hfound]
    by_cases hkind : found.kind = "17091"
    · by_cases hname : found.identifier = ""
      · simp [hkind, hname]
      · simp [hkind, hname]
    · cases hname : validCacheIdentifier found.identifier with
      | false => simp [hkind, hname]
      | true => simp [hkind, hname]

theorem kind_text : toString (17091 : ℕ) = "17091" ∧ toString (37091 : ℕ) = "37091" :=
  ⟨rfl, rfl⟩

theorem parseCacheIdentity_valid
    (h : (parseCacheIdentity value field diagnostics).1 = some identity) :
    identity.Valid ∧ formatCacheIdentity identity = value := by
  unfold parseCacheIdentity at h
  cases hfound : matchIdentity value with
  | none => simp [hfound] at h
  | some found =>
    obtain ⟨htext, hlength, hhex, hkind⟩ := matchIdentity_text hfound
    by_cases hseventeen : found.kind = "17091"
    · by_cases hname : found.identifier = ""
      · have hsome : some (⟨17091, found.pubkey, found.identifier⟩ : CacheIdentity) = some identity := by
          simpa [hfound, hseventeen, hname] using h
        rw [← Option.some.inj hsome]
        refine ⟨⟨⟨hlength, hhex⟩, Or.inl ⟨rfl, hname⟩⟩, ?_⟩
        rw [htext, hseventeen, formatCacheIdentity, kind_text.1]
      · simp [hfound, hseventeen, hname] at h
    · have hthirty : found.kind = "37091" := hkind.resolve_left hseventeen
      cases hname : validCacheIdentifier found.identifier with
      | false => simp [hfound, hseventeen, hname] at h
      | true =>
        have hsome : some (⟨37091, found.pubkey, found.identifier⟩ : CacheIdentity) = some identity := by
          simpa [hfound, hseventeen, hname] using h
        rw [← Option.some.inj hsome]
        refine ⟨⟨⟨hlength, hhex⟩, Or.inr ⟨rfl, hname⟩⟩, ?_⟩
        rw [htext, hthirty, formatCacheIdentity, kind_text.2]

theorem parseCacheIdentity_format (h : identity.Valid) :
    parseCacheIdentity (formatCacheIdentity identity) field diagnostics =
      (some identity, diagnostics) := by
  obtain ⟨kind, pubkey, identifier⟩ := identity
  obtain ⟨⟨hlength, hhex⟩, hnamed⟩ := h
  simp only at hlength hhex hnamed
  rcases hnamed with ⟨hkind, hname⟩ | ⟨hkind, hname⟩
  · have hmatch : matchIdentity (formatCacheIdentity ⟨kind, pubkey, identifier⟩) =
        some ⟨"17091", pubkey, identifier⟩ := by
      rw [formatCacheIdentity, hkind, kind_text.1, hname]
      exact matchIdentity_format (Or.inl rfl) hlength hhex rfl
    rw [parseCacheIdentity, hmatch]
    simp [hname, hkind]
  · have hmatch : matchIdentity (formatCacheIdentity ⟨kind, pubkey, identifier⟩) =
        some ⟨"37091", pubkey, identifier⟩ := by
      rw [formatCacheIdentity, hkind, kind_text.2]
      exact matchIdentity_format (Or.inr rfl) hlength hhex (validCacheIdentifier_line hname)
    rw [parseCacheIdentity, hmatch]
    simp [hname, hkind]

end Text

end NixstrCache.Config
