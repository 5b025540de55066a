import Mathlib.Data.Int.Notation
import NixstrCache.Protocol.Nhash

/-!
Publications and their validation.

`verifyEvent`, the URL parser, the case mapping and Bech32 are parameters.  `verifyEvent` and the
parser yield `none` where they throw.  The checks and their texts stand in the order of the source.
-/

namespace NixstrCache.Protocol

structure RawPublication where
  id : String
  pubkey : String
  createdAt : ℤ
  kind : ℕ
  tags : List (List String)
  content : String
  sig : String
deriving DecidableEq, Repr

structure PublicationIdentity where
  kind : ℕ
  pubkey : String
  name : Option String
deriving DecidableEq, Repr

structure NixSignatureKey where
  name : String
  encoded : String
  bytes : List UInt8
deriving DecidableEq, Repr

structure ValidatedPublication where
  event : RawPublication
  identity : PublicationIdentity
  root : PlaintextRoot
  nixSigKeys : List NixSignatureKey
  blossomServers : List String
  expiresAt : Option ℤ
deriving DecidableEq, Repr

inductive PublicationRejectionCode where
  | invalidEvent
  | future
  | expired
  | kind
  | identity
  | htree
  | nhash
  | unsupportedEncryption
  | nixSignatureKey
  | resourceLimit
deriving DecidableEq, Repr

structure PublicationRejection where
  code : PublicationRejectionCode
  message : String
deriving DecidableEq, Repr

structure Url where
  protocol : String
  username : String
  password : String
  hostname : String
  search : String
  hash : String
deriving DecidableEq, Repr

def isEventId (id : String) : Bool :=
  id.length = 64 ∧ id.toList.all fun c => ('0' ≤ c ∧ c ≤ '9') ∨ ('a' ≤ c ∧ c ≤ 'f')

/-- What the validation takes from libraries and from the platform.  The id of a verified event is
the hash of all its fields but the signature. -/
structure Validator where
  verifyEvent : RawPublication → Option Bool
  verified_id : ∀ raw, verifyEvent raw = some true → isEventId raw.id = true
  verified_event : ∀ a b, verifyEvent a = some true → verifyEvent b = some true → a.id = b.id →
    { a with sig := b.sig } = b
  parseUrl : String → Option Url
  toLowerCase : String → String
  bech32 : Bech32

def isSafeInteger (n : ℤ) : Bool :=
  n.natAbs ≤ 9007199254740991

/-- The white space that `\s` matches. -/
def isSpace (c : Char) : Bool :=
  let n := c.toNat
  (9 ≤ n ∧ n ≤ 13) ∨ n = 0x20 ∨ n = 0xa0 ∨ n = 0x1680 ∨ (0x2000 ≤ n ∧ n ≤ 0x200a) ∨ n = 0x2028 ∨
    n = 0x2029 ∨ n = 0x202f ∨ n = 0x205f ∨ n = 0x3000 ∨ n = 0xfeff

def validLabel (value : String) : Bool :=
  0 < value.utf8ByteSize ∧ value.utf8ByteSize ≤ 64 ∧
    ¬value.toList.any fun c => isSpace c ∨ c.toNat < 32 ∨ c.toNat = 127

section Tags

def tagsNamed (name : String) (tags : List (List String)) : List (List String) :=
  tags.filter fun tag => tag.head? = some name

def base64Digit (c : Char) : Option ℕ :=
  let n := c.toNat
  if 'A'.toNat ≤ n ∧ n ≤ 'Z'.toNat then some (n - 'A'.toNat)
  else if 'a'.toNat ≤ n ∧ n ≤ 'z'.toNat then some (n - 'a'.toNat + 26)
  else if '0'.toNat ≤ n ∧ n ≤ '9'.toNat then some (n - '0'.toNat + 52)
  else if c = '+' then some 62
  else if c = '/' then some 63
  else none

/-- `atob` on digits: three bytes from four digits, two from the three before the padding. -/
def atob : List ℕ → List UInt8
  | a :: b :: c :: d :: rest =>
    .ofNat (a * 4 + b / 16) :: .ofNat (b % 16 * 16 + c / 4) :: .ofNat (c % 4 * 64 + d) :: atob rest
  | [a, b, c] => [.ofNat (a * 4 + b / 16), .ofNat (b % 16 * 16 + c / 4)]
  | _ => []

/-- The bytes of a key: 43 digits and the padding, with nothing in the bits that are left over. -/
def keyBytes (encoded : String) : Except String (List UInt8) :=
  match encoded.toList.reverse with
  | '=' :: digits =>
    if digits.length ≠ 43 then .error "invalid nixSigKey name or base64"
    else
      match digits.reverse.mapM base64Digit with
      | none => .error "invalid nixSigKey name or base64"
      | some digits =>
        if (digits.getLastD 0) % 4 ≠ 0 then .error "non-canonical nixSigKey"
        else .ok (atob digits)
  | _ => .error "invalid nixSigKey name or base64"

/-- The key of one `nixSigKey` tag. -/
def parseNixKey (tag : List String) : Except String NixSignatureKey :=
  match tag with
  | [_, value] =>
    match value.toList.splitOn ':' with
    | [name, encoded] =>
      if name = [] then .error "nixSigKey requires exactly one colon"
      else if validLabel (String.ofList name) = false then .error "invalid nixSigKey name or base64"
      else
        (keyBytes (String.ofList encoded)).map fun bytes =>
          ⟨String.ofList name, String.ofList encoded, bytes⟩
    | _ => .error "nixSigKey requires exactly one colon"
  | _ => .error "malformed nixSigKey tag"

/-- A key after those before it: no name has two keys, and a key counts once. -/
def addNixKey (seen : List NixSignatureKey) (tag : List String) :
    Except String (List NixSignatureKey) := do
  let key ← parseNixKey tag
  if seen.any fun prior => prior.name = key.name ∧ prior.bytes ≠ key.bytes then
    .error "one nixSigKey name declares multiple keys"
  else .ok (seen ++ [key])

def distinctKeys : List NixSignatureKey → List NixSignatureKey
  | [] => []
  | key :: rest => key :: (distinctKeys rest).filter fun other => other.bytes ≠ key.bytes

def parseNixKeys (tags : List (List String)) : Except String (List NixSignatureKey) :=
  ((tagsNamed "nixSigKey" tags).foldlM addNixKey []).map distinctKeys

end Tags

section Validation

variable (v : Validator)

def validBlossomUrl (value : String) : Option String :=
  match v.parseUrl value with
  | none => none
  | some url =>
    if (url.protocol ≠ "http:" ∧ url.protocol ≠ "https:") ∨ url.username ≠ "" ∨ url.password ≠ "" then
      none
    else if url.hostname = "" ∨ url.search ≠ "" ∨ url.hash ≠ "" then none
    else some (String.ofList (value.toList.reverse.dropWhile (· = '/')).reverse)

def blossomServersOf (tags : List (List String)) : List String :=
  (tagsNamed "blossom" tags).filterMap fun tag =>
    match tag with
    | [_, value] => validBlossomUrl v value
    | _ => none

def exceedsLimits (raw : RawPublication) : Bool :=
  256 < raw.tags.length ∨ 65536 < utf16Length raw.content ∨
    raw.tags.any fun tag => 8 < tag.length ∨ tag.any fun field => 4096 < utf16Length field

/-- The name in the `d` tag of a named cache, and that a default cache has none. -/
def publicationName (raw : RawPublication) : Except PublicationRejection (Option String) :=
  match raw.kind, tagsNamed "d" raw.tags with
  | 17091, [] => .ok none
  | 17091, _ => .error ⟨.identity, "default cache must not have a d tag"⟩
  | _, [[_, name]] =>
    if validLabel name then .ok (some name)
    else .error ⟨.identity, "named cache requires one valid d tag"⟩
  | _, _ => .error ⟨.identity, "named cache requires one valid d tag"⟩

def publicationRoot (raw : RawPublication) : Except PublicationRejection PlaintextRoot :=
  match tagsNamed "htree" raw.tags with
  | [[_, reference]] =>
    if "htree://".toList.isPrefixOf reference.toList = false then
      .error ⟨.htree, "publication requires exactly one immutable htree tag"⟩
    else
      let nhash := reference.toList.drop 8
      if nhash = [] ∨ nhash.any fun c => c = '/' ∨ c = '?' ∨ c = '#' then
        .error ⟨.htree, "htree reference must identify a root nhash"⟩
      else
        match decodePlaintextNhash v.bech32 v.toLowerCase (String.ofList nhash) with
        | .ok root => .ok root
        | .error .unsupportedEncryptedRoot =>
          .error ⟨.unsupportedEncryption, NhashError.message .unsupportedEncryptedRoot⟩
        | .error e => .error ⟨.nhash, e.message⟩
  | _ => .error ⟨.htree, "publication requires exactly one immutable htree tag"⟩

/-- `Number` on a text of digits. -/
def decimal (text : String) : ℕ :=
  text.toList.foldl (fun n c => 10 * n + (c.toNat - '0'.toNat)) 0

def isDecimal (text : String) : Bool :=
  match text.toList with
  | [] => false
  | ['0'] => true
  | c :: rest => c ≠ '0' ∧ (c :: rest).all fun c => '0'.toNat ≤ c.toNat ∧ c.toNat ≤ '9'.toNat

/-- The time in the `expiration` tag, which must not have come yet. -/
def publicationExpiration (raw : RawPublication) (now : ℤ) :
    Except PublicationRejection (Option ℤ) :=
  match tagsNamed "expiration" raw.tags with
  | [] => .ok none
  | [[_, text]] =>
    if isDecimal text = false then .error ⟨.expired, "malformed expiration tag"⟩
    else if isSafeInteger (decimal text) = false ∨ (decimal text : ℤ) ≤ now then
      .error ⟨.expired, "publication has expired"⟩
    else .ok (some (decimal text))
  | _ => .error ⟨.expired, "malformed expiration tag"⟩

/-- The checks of `validatePublication` before the tags are read. -/
def checkEvent (raw : RawPublication) (now : ℤ) : Except PublicationRejection Unit :=
  if isSafeInteger now = false ∨ isSafeInteger raw.createdAt = false then
    .error ⟨.invalidEvent, "invalid timestamp"⟩
  else if exceedsLimits raw then .error ⟨.resourceLimit, "event exceeds validation limits"⟩
  else
    match v.verifyEvent raw with
    | none => .error ⟨.invalidEvent, "NIP-01 event shape is invalid"⟩
    | some false => .error ⟨.invalidEvent, "NIP-01 id or signature verification failed"⟩
    | some true =>
      if now + 900 < raw.createdAt then
        .error ⟨.future, "publication is more than 15 minutes in the future"⟩
      else if raw.kind ≠ 17091 ∧ raw.kind ≠ 37091 then
        .error ⟨.kind, "unsupported publication kind"⟩
      else .ok ()

def validatePublication (raw : RawPublication) (now : ℤ) :
    Except PublicationRejection ValidatedPublication := do
  checkEvent v raw now
  let name ← publicationName raw
  let root ← publicationRoot v raw
  let nixSigKeys ← (parseNixKeys raw.tags).mapError fun message => ⟨.nixSignatureKey, message⟩
  let expiresAt ← publicationExpiration raw now
  .ok ⟨raw, ⟨raw.kind, raw.pubkey, name⟩, root, nixSigKeys, blossomServersOf v raw.tags, expiresAt⟩

/-- What `validatePublication` has let through carries its brand. -/
def Branded :=
  { publication : ValidatedPublication // ∃ raw now, validatePublication v raw now = .ok publication }

end Validation

def cacheIdentity (publication : ValidatedPublication) : String :=
  toString publication.identity.kind ++ ":" ++ publication.identity.pubkey ++ ":" ++
    publication.identity.name.getD ""

section Accepted

variable {v : Validator} {raw : RawPublication} {now : ℤ} {publication : ValidatedPublication}

/-- What a publication that passes has from its event and from the time. -/
structure Passed (v : Validator) (raw : RawPublication) (now : ℤ)
    (publication : ValidatedPublication) : Prop where
  event : publication.event = raw
  kind : publication.identity.kind = raw.kind
  pubkey : publication.identity.pubkey = raw.pubkey
  checked : checkEvent v raw now = .ok ()
  name : publicationName raw = .ok publication.identity.name
  root : publicationRoot v raw = .ok publication.root
  nixSigKeys : parseNixKeys raw.tags = .ok publication.nixSigKeys
  blossomServers : publication.blossomServers = blossomServersOf v raw.tags
  expiresAt : publicationExpiration raw now = .ok publication.expiresAt

theorem validatePublication_ok :
    validatePublication v raw now = .ok publication ↔ Passed v raw now publication := by
  constructor
  · intro h
    unfold validatePublication at h
    cases hchecked : checkEvent v raw now with
    | error e => simp [hchecked, bind, Except.bind] at h
    | ok u =>
      cases hname : publicationName raw with
      | error e => simp [hchecked, hname, bind, Except.bind] at h
      | ok name =>
        cases hroot : publicationRoot v raw with
        | error e => simp [hchecked, hname, hroot, bind, Except.bind] at h
        | ok root =>
          cases hkeys : parseNixKeys raw.tags with
          | error e => simp [hchecked, hname, hroot, hkeys, bind, Except.bind, Except.mapError] at h
          | ok keys =>
            cases hexpires : publicationExpiration raw now with
            | error e =>
              simp [hchecked, hname, hroot, hkeys, hexpires, bind, Except.bind, Except.mapError] at h
            | ok expiresAt =>
              simp only [hchecked, hname, hroot, hkeys, hexpires, bind, Except.bind, Except.mapError,
                Except.ok.injEq] at h
              subst h
              exact ⟨rfl, rfl, rfl, hchecked, hname, hroot, hkeys, rfl, hexpires⟩
  · intro h
    simp only [validatePublication, h.checked, h.name, h.root, h.nixSigKeys, h.expiresAt, bind,
      Except.bind, Except.mapError]
    rw [← h.kind, ← h.pubkey, ← h.blossomServers, ← h.event]

theorem checkEvent_ok : checkEvent v raw now = .ok () ↔ isSafeInteger now = true ∧
    isSafeInteger raw.createdAt = true ∧ exceedsLimits raw = false ∧ v.verifyEvent raw = some true ∧
      raw.createdAt ≤ now + 900 ∧ (raw.kind = 17091 ∨ raw.kind = 37091) := by
  unfold checkEvent
  cases hverify : v.verifyEvent raw with
  | none =>
    simp only [reduceCtorEq, false_and, and_false, iff_false]
    split_ifs <;> simp
  | some verified =>
    cases verified with
    | false =>
      simp only [Option.some.injEq, Bool.false_eq_true, false_and, and_false, iff_false]
      split_ifs <;> simp
    | true =>
      by_cases hnow : isSafeInteger now <;> by_cases hcreated : isSafeInteger raw.createdAt <;>
        by_cases hlimits : exceedsLimits raw <;> by_cases hfuture : now + 900 < raw.createdAt <;>
          by_cases hkind : raw.kind = 17091 <;> simp [hnow, hcreated, hlimits, hfuture, hkind] <;>
            omega

theorem Passed.verified (h : Passed v raw now publication) : v.verifyEvent raw = some true :=
  (checkEvent_ok.mp h.checked).2.2.2.1

theorem publicationExpiration_ok {expiresAt : Option ℤ} :
    publicationExpiration raw now = .ok expiresAt ↔
      publicationExpiration raw (-1) = .ok expiresAt ∧ ∀ time, expiresAt = some time → now < time := by
  unfold publicationExpiration
  split
  · simp +contextual [eq_comm]
  · next text htags =>
    have hnever : ¬(decimal text : ℤ) ≤ -1 := by omega
    by_cases hdecimal : isDecimal text
    · by_cases hsafe : isSafeInteger (decimal text)
      · by_cases hnow : (decimal text : ℤ) ≤ now
        · simp only [hdecimal, hsafe, hnow, hnever]
          simp +contextual [eq_comm, hnow]
        · have hlater : now < decimal text := by omega
          simp only [hdecimal, hsafe, hnow, hnever]
          simp +contextual [eq_comm, hlater]
      · simp [hdecimal, hsafe]
    · simp [hdecimal]
  · simp

theorem validatePublication_later {later : ℤ} (h : validatePublication v raw now = .ok publication)
    (hle : now ≤ later) (hsafe : isSafeInteger later = true)
    (hexpires : ∀ time, publication.expiresAt = some time → later < time) :
    validatePublication v raw later = .ok publication := by
  rw [validatePublication_ok] at h ⊢
  obtain ⟨-, hcreated, hlimits, hverify, hfuture, hkind⟩ := checkEvent_ok.mp h.checked
  have hchecked : checkEvent v raw later = .ok () :=
    checkEvent_ok.mpr ⟨hsafe, hcreated, hlimits, hverify, by omega, hkind⟩
  have hexpiration := publicationExpiration_ok.mpr ⟨(publicationExpiration_ok.mp h.expiresAt).1, hexpires⟩
  exact { h with checked := hchecked, expiresAt := hexpiration }

theorem validatePublication_eq {other : ValidatedPublication} {later : ℤ}
    (h : validatePublication v raw now = .ok publication)
    (hother : validatePublication v raw later = .ok other) : publication = other := by
  rw [validatePublication_ok] at h hother
  obtain ⟨event, ⟨kind, pubkey, name⟩, root, nixSigKeys, blossomServers, expiresAt⟩ := publication
  obtain ⟨event', ⟨kind', pubkey', name'⟩, root', nixSigKeys', blossomServers', expiresAt'⟩ := other
  have hname := Except.ok.inj (h.name.symm.trans hother.name)
  have hroot := Except.ok.inj (h.root.symm.trans hother.root)
  have hkeys := Except.ok.inj (h.nixSigKeys.symm.trans hother.nixSigKeys)
  have hexpires := Except.ok.inj ((publicationExpiration_ok.mp h.expiresAt).1.symm.trans
    (publicationExpiration_ok.mp hother.expiresAt).1)
  have hevent := h.event.trans hother.event.symm
  have hkind := h.kind.trans hother.kind.symm
  have hpubkey := h.pubkey.trans hother.pubkey.symm
  have hservers := h.blossomServers.trans hother.blossomServers.symm
  simp only at hname hroot hkeys hexpires hevent hkind hpubkey hservers
  simp [hname, hroot, hkeys, hexpires, hevent, hkind, hpubkey, hservers]

theorem validatePublication_id {other : ValidatedPublication} {raw' : RawPublication} {later : ℤ}
    (h : validatePublication v raw now = .ok publication)
    (hother : validatePublication v raw' later = .ok other) (hid : raw.id = raw'.id) :
    publication.identity = other.identity ∧ publication.expiresAt = other.expiresAt := by
  rw [validatePublication_ok] at h hother
  have hevent := v.verified_event raw raw' h.verified hother.verified hid
  have hkind := congrArg RawPublication.kind hevent
  have hpubkey := congrArg RawPublication.pubkey hevent
  have htags := congrArg RawPublication.tags hevent
  simp only at hkind hpubkey htags
  have hname : publicationName raw = publicationName raw' := by
    unfold publicationName
    rw [hkind, htags]
  have hexpiration : publicationExpiration raw (-1) = publicationExpiration raw' (-1) := by
    unfold publicationExpiration
    rw [htags]
  have hsame := Except.ok.inj (h.name.symm.trans (hname.trans hother.name))
  have hexpires := Except.ok.inj ((publicationExpiration_ok.mp h.expiresAt).1.symm.trans
    (hexpiration.trans (publicationExpiration_ok.mp hother.expiresAt).1))
  refine ⟨?_, hexpires⟩
  rcases hidentity : publication.identity with ⟨kind, pubkey, name⟩
  rcases hidentity' : other.identity with ⟨kind', pubkey', name'⟩
  have hk := h.kind
  have hk' := hother.kind
  have hp := h.pubkey
  have hp' := hother.pubkey
  simp only [hidentity, hidentity'] at hk hk' hp hp' hsame
  rw [hk, hk', hp, hp', hsame, hkind, hpubkey]

theorem Passed.expires_after (h : Passed v raw now publication) {time : ℤ}
    (htime : publication.expiresAt = some time) : now < time :=
  (publicationExpiration_ok.mp h.expiresAt).2 time htime

theorem Branded.verified (p : Branded v) : v.verifyEvent p.val.event = some true := by
  obtain ⟨publication, raw, now, h⟩ := p
  have hpassed := validatePublication_ok.mp h
  rw [hpassed.event]
  exact hpassed.verified

theorem Branded.event_id (p : Branded v) : isEventId p.val.event.id = true :=
  v.verified_id _ p.verified

theorem Branded.event_id_ne (p : Branded v) : p.val.event.id ≠ "" := by
  intro h
  have hid := p.event_id
  rw [h] at hid
  exact absurd hid (by decide)

end Accepted

section Decimals

theorem decimal_toString (n : ℕ) : decimal (toString n) = n := by
  have hlist : (toString n).toList = Nat.toDigits 10 n := by simp [Nat.toList_repr]
  rw [decimal, hlist, ← Nat.ofDigitChars_eq_foldl, Nat.ofDigitChars_ten_toDigits]

end Decimals

end NixstrCache.Protocol
