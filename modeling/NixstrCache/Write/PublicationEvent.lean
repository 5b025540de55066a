import NixstrCache.Config.PublicationConfig
import NixstrCache.Lib.Texts
import NixstrCache.Write.PublicationCoordinator

/-!
The events of the coordinator under the validator.

The coordinator writes its template from the configuration, the saga and the history, and the same
program validates what comes back from the signer.  The two grammars are compared here tag by tag.
-/

namespace NixstrCache.Write

open Texts Protocol Config Persistence Persistence.WriteRepository

section Texts

theorem utf16Length_append (a b : String) : utf16Length (a ++ b) = utf16Length a + utf16Length b := by
  simp [utf16Length]

theorem utf16Length_ofList (chars : List Char) :
    utf16Length (String.ofList chars) ≤ (String.ofList chars).utf8ByteSize := by
  induction chars with
  | nil => simp [utf16Length]
  | cons c rest ih =>
    rw [String.ofList_cons, String.utf8ByteSize_append, String.utf8ByteSize_singleton,
      utf16Length_append]
    have hc : utf16Length (String.singleton c) ≤ c.utf8Size := by
      simp only [utf16Length, String.toList_singleton, List.map_cons, List.map_nil, List.sum_cons,
        List.sum_nil, Char.utf8Size, UInt32.lt_iff_toNat_lt, UInt32.le_iff_toNat_le,
        UInt32.toNat_ofNatLT, UInt32.reduceToNat]
      split_ifs <;> omega
    omega

theorem utf16Length_le (text : String) : utf16Length text ≤ text.utf8ByteSize := by
  have h := utf16Length_ofList text.toList
  rwa [String.ofList_toList] at h

theorem utf16Length_ascii {text : String} (h : ∀ c ∈ text.toList, c.toNat < 128) :
    utf16Length text = text.length := by
  have hmap : (text.toList.map fun c => if c.val < 0x10000 then 1 else 2) =
      text.toList.map fun _ => 1 := by
    apply List.map_congr_left
    intro c hc
    have hlt : c.val < 0x10000 := by
      have := h c hc
      rw [UInt32.lt_iff_toNat_lt]
      exact this.trans (by decide)
    rw [if_pos hlt]
  rw [utf16Length, hmap, List.map_const', List.sum_replicate_nat, String.length_toList, Nat.mul_one]

theorem isDecimal_toString (n : ℕ) : isDecimal (toString n) = true := by
  have hlist : (toString n).toList = Nat.toDigits 10 n := by simp [Nat.toList_repr]
  unfold isDecimal
  rw [hlist]
  rcases Nat.eq_zero_or_pos n with rfl | hpos
  · rfl
  · have hhead := toDigits_head hpos
    cases hdigits : Nat.toDigits 10 n with
    | nil => exact absurd hdigits Nat.toDigits_ne_nil
    | cons c rest =>
      rw [hdigits] at hhead
      have hc : c ≠ '0' := by simpa using hhead
      have hall : ∀ d ∈ c :: rest, '0'.toNat ≤ d.toNat ∧ d.toNat ≤ '9'.toNat := by
        intro d hd
        exact toDigits_digit (hdigits ▸ hd)
      split
      · next heq => cases heq
      · rfl
      · next heq =>
        cases heq
        simpa [hc] using hall

end Texts

section Tags

variable {name other : String} {tags : List (List String)}

theorem tagsNamed_append (name : String) (a b : List (List String)) :
    tagsNamed name (a ++ b) = tagsNamed name a ++ tagsNamed name b :=
  List.filter_append ..

theorem tagsNamed_map (name other : String) (values : List String) :
    tagsNamed name (values.map fun value => [other, value]) =
      if name = other then values.map fun value => [other, value] else [] := by
  by_cases hname : name = other
  · simp [tagsNamed, List.filter_map, Function.comp_def, hname]
  · simp [tagsNamed, List.filter_map, Function.comp_def, hname, Ne.symm hname]

variable {o : CoordinatorOptions} {m : Moment} {saga : SagaRow} {history : List SagaRow}

variable (o m saga history) in
theorem templateOf_tags :
    let tags := (templateOf o m saga history).tags
    tagsNamed "d" tags = (if o.kind = 37091 then [["d", o.identifier]] else []) ∧
      tagsNamed "htree" tags = [["htree", "htree://" ++ saga.candidate.nhash]] ∧
      tagsNamed "blossom" tags = saga.destinations.map (fun server => ["blossom", server]) ∧
      tagsNamed "nixSigKey" tags = o.nixSigKeys.map nixSigKeyTag ∧
      tagsNamed "expiration" tags = [["expiration", toString (m.now + o.lifetimeSeconds)]] := by
  have hidentity : ∀ name, tagsNamed name (if o.kind = 37091 then [["d", o.identifier]] else []) =
      if name = "d" then (if o.kind = 37091 then [["d", o.identifier]] else []) else [] := by
    intro name
    split_ifs with hkind hname hname
    · simp [tagsNamed, hname]
    · simp [tagsNamed, Ne.symm hname]
    · rfl
    · rfl
  simp only [templateOf, tagsNamed_append, hidentity, tagsNamed_map]
  refine ⟨?_, ?_, ?_, ?_, ?_⟩ <;> simp [tagsNamed, nixSigKeyTag]

theorem templateOf_length :
    (templateOf o m saga history).tags.length =
      (if o.kind = 37091 then 1 else 0) + 2 + saga.destinations.length + o.nixSigKeys.length := by
  unfold templateOf
  split_ifs <;> simp <;> omega

theorem foldl_max_le {times : List ℤ} {start bound : ℤ} :
    times.foldl max start ≤ bound ↔ start ≤ bound ∧ ∀ time ∈ times, time ≤ bound := by
  induction times generalizing start with
  | nil => simp
  | cons time rest ih =>
    rw [List.foldl_cons, ih, List.forall_mem_cons, max_le_iff, and_assoc]

theorem le_foldl_max (times : List ℤ) (start : ℤ) : start ≤ times.foldl max start :=
  (foldl_max_le.mp le_rfl).1

theorem templateOf_createdAt {bound : ℤ} (hnow : (m.now : ℤ) ≤ bound) :
    (templateOf o m saga history).createdAt ≤ bound ↔
      ∀ item ∈ history, ∀ event ∈ item.signedEvent, event.createdAt < bound := by
  have hzero : 0 ≤ bound := by omega
  rw [templateOf, foldl_max_le, List.forall_mem_map, and_iff_right hnow]
  refine forall₂_congr fun item hitem => ?_
  cases item.signedEvent with
  | none => simpa using hzero
  | some event => simp only [Int.add_one_le_iff, Option.mem_def, Option.some.injEq, forall_eq']

theorem templateOf_timely (hnow : isSafeInteger m.now = true) :
    isSafeInteger (templateOf o m saga history).createdAt = true ∧
        (templateOf o m saga history).createdAt ≤ m.now + 900 ↔
      ∀ item ∈ history, ∀ event ∈ item.signedEvent,
        event.createdAt < m.now + 900 ∧ event.createdAt < 9007199254740991 := by
  simp only [isSafeInteger, Int.natAbs_natCast, decide_eq_true_eq] at hnow
  have hstart : (m.now : ℤ) ≤ (templateOf o m saga history).createdAt := le_foldl_max ..
  have hsafe : isSafeInteger (templateOf o m saga history).createdAt = true ↔
      (templateOf o m saga history).createdAt ≤ 9007199254740991 := by
    simp only [isSafeInteger, decide_eq_true_eq]
    omega
  rw [hsafe, templateOf_createdAt (by omega), templateOf_createdAt (by omega)]
  constructor
  · rintro ⟨hlate, hfuture⟩ item hitem event hevent
    exact ⟨hfuture item hitem event hevent, hlate item hitem event hevent⟩
  · intro h
    exact ⟨fun item hitem event hevent => (h item hitem event hevent).2,
      fun item hitem event hevent => (h item hitem event hevent).1⟩

end Tags

section Parts

variable {v : Validator} {raw : RawPublication} {now : ℤ}

/-- Bech32 reads the payload back from the text that it has written for it, which is short, in lower
case and without the characters that end the root of a reference. -/
structure ReadsBack (v : Validator) (payload : List UInt8) : Prop where
  decode : v.bech32.decode (v.bech32.encode "nhash" (v.bech32.toWords payload) 200) 200 =
    some ("nhash", v.bech32.toWords payload)
  fromWords : v.bech32.fromWords (v.bech32.toWords payload) = some payload
  short : utf16Length (v.bech32.encode "nhash" (v.bech32.toWords payload) 200) ≤ 200
  lower : v.toLowerCase (v.bech32.encode "nhash" (v.bech32.toWords payload) 200) =
    v.bech32.encode "nhash" (v.bech32.toWords payload) 200
  nonempty : v.bech32.encode "nhash" (v.bech32.toWords payload) 200 ≠ ""
  plain : ∀ c ∈ (v.bech32.encode "nhash" (v.bech32.toWords payload) 200).toList,
    c ≠ '/' ∧ c ≠ '?' ∧ c ≠ '#'

/-- The root that a build names by its hash and by its reference. -/
structure RootReference (v : Validator) (root : List UInt8) (rootHex nhash : String) : Prop where
  length : root.length = 32
  hex : rootHex = hexOf root
  nhash : encodePlaintextNhash v.bech32 root = .ok nhash
  reads : ReadsBack v (0 :: 32 :: root)

theorem RootReference.text {root : List UInt8} {rootHex nhash : String}
    (h : RootReference v root rootHex nhash) :
    nhash = v.bech32.encode "nhash" (v.bech32.toWords (0 :: 32 :: root)) 200 :=
  (encodePlaintextNhash_eq_ok.mp h.nhash).2.symm

theorem RootReference.decode {root : List UInt8} {rootHex nhash : String}
    (h : RootReference v root rootHex nhash) :
    decodePlaintextNhash v.bech32 v.toLowerCase nhash = .ok ⟨root, rootHex, nhash⟩ := by
  have hreads : v.bech32.ReadsBack v.toLowerCase (0 :: 32 :: root) :=
    ⟨h.reads.decode, h.reads.fromWords, h.reads.short, h.reads.lower⟩
  exact decoded_of_encoded hreads h.nhash h.hex rfl

theorem publicationRoot_reference {root : List UInt8} {rootHex nhash : String}
    (h : RootReference v root rootHex nhash)
    (htags : tagsNamed "htree" raw.tags = [["htree", "htree://" ++ nhash]]) :
    publicationRoot v raw = .ok ⟨root, rootHex, nhash⟩ := by
  have hscheme : ("htree://" ++ nhash).toList = "htree://".toList ++ nhash.toList :=
    String.toList_append
  have hstart : "htree://".toList.isPrefixOf ("htree://" ++ nhash).toList = true := by
    rw [hscheme]
    exact List.isPrefixOf_iff_prefix.mpr (List.prefix_append _ _)
  have hdrop : ("htree://" ++ nhash).toList.drop 8 = nhash.toList := by
    rw [hscheme]
    rfl
  have hplain : ¬(nhash.toList = [] ∨ (nhash.toList.any fun c => c = '/' ∨ c = '?' ∨ c = '#') = true) := by
    have htext := h.text
    rintro (hempty | hany)
    · exact h.reads.nonempty (by simpa [htext] using hempty)
    · obtain ⟨c, hc, hbad⟩ := List.any_eq_true.mp hany
      rw [htext] at hc
      have hgood := h.reads.plain c hc
      simp [hgood] at hbad
  unfold publicationRoot
  rw [htags]
  simp only [hstart, hdrop, Bool.true_eq_false, if_false, if_neg hplain, String.ofList_toList,
    h.decode]

theorem validLabel_of_identifier {identifier : String} (h : validCacheIdentifier identifier = true) :
    validLabel identifier = true := by
  simp only [validCacheIdentifier, validLabel, decide_eq_true_eq] at h ⊢
  exact ⟨h.1, h.2.1, h.2.2.2⟩

theorem publicationExpiration_text {n : ℕ}
    (htags : tagsNamed "expiration" raw.tags = [["expiration", toString n]]) :
    (∃ expiresAt, publicationExpiration raw now = .ok expiresAt) ↔
      isSafeInteger n = true ∧ now < n := by
  unfold publicationExpiration
  rw [htags]
  simp only [isDecimal_toString, decimal_toString, Bool.true_eq_false, if_false]
  by_cases hexpired : isSafeInteger n = false ∨ (n : ℤ) ≤ now
  · rw [if_pos hexpired]
    simp only [reduceCtorEq, exists_false, false_iff, not_and, not_lt]
    intro hsafe
    simpa [hsafe] using hexpired
  · rw [if_neg hexpired]
    simpa using hexpired

def withoutSlashes (value : String) : String :=
  String.ofList (value.toList.reverse.dropWhile (· = '/')).reverse

theorem validBlossomUrl_cases (v : Validator) (value : String) :
    validBlossomUrl v value = none ∨ validBlossomUrl v value = some (withoutSlashes value) := by
  unfold validBlossomUrl
  split
  · exact Or.inl rfl
  · split_ifs
    · exact Or.inl rfl
    · exact Or.inl rfl
    · exact Or.inr rfl

theorem blossomServersOf_eq {destinations : List String}
    (htags : tagsNamed "blossom" raw.tags = destinations.map fun server => ["blossom", server]) :
    blossomServersOf v raw.tags = destinations.map withoutSlashes ↔
      ∀ server ∈ destinations, (validBlossomUrl v server).isSome = true := by
  have hservers : blossomServersOf v raw.tags = destinations.filterMap (validBlossomUrl v) := by
    rw [blossomServersOf, htags, List.filterMap_map]
    rfl
  rw [hservers]
  constructor
  · intro h
    have hlength : (destinations.filterMap (validBlossomUrl v)).length = destinations.length := by
      rw [h, List.length_map]
    exact List.filterMap_length_eq_length.mp hlength
  · intro h
    rw [← List.filterMap_eq_map]
    apply List.filterMap_congr
    intro server hserver
    rcases validBlossomUrl_cases v server with hnone | hsome
    · have := h server hserver
      simp [hnone] at this
    · exact hsome

end Parts

section Accepted

variable {o : CoordinatorOptions} {m : Moment} {saga : SagaRow} {history : List SagaRow}
variable {config : PublicationConfig} {v : Validator} {event : RawPublication} {now : ℕ}

/-- The coordinator runs under a configuration. -/
structure Configured (o : CoordinatorOptions) (config : PublicationConfig) : Prop where
  kind : o.kind = config.identity.kind
  identifier : o.identifier = config.identity.identifier
  nixSigKeys : o.nixSigKeys = config.nixSigKeys
  lifetime : (o.lifetimeSeconds : ℤ) = config.lifetimeSeconds

/-- An honest signer adds its key, an id and a signature to the template. -/
structure Signed (v : Validator) (o : CoordinatorOptions) (template : EventTemplate)
    (event : RawPublication) : Prop where
  verified : v.verifyEvent event = some true
  template : matchesTemplate template event = true
  pubkey : event.pubkey = o.pubkey

/-- What the validator asks beyond what the configuration and the build give. -/
structure Publishable (v : Validator) (o : CoordinatorOptions) (saga : SagaRow)
    (history : List SagaRow) (now : ℕ) : Prop where
  labels : ∀ key ∈ o.nixSigKeys, validLabel (keyName key) = true
  names : (o.nixSigKeys.map keyName).Nodup
  count : (if o.kind = 37091 then 1 else 0) + 2 + saga.destinations.length + o.nixSigKeys.length ≤ 256
  servers : ∀ server ∈ saga.destinations,
    (validBlossomUrl v server).isSome = true ∧ utf16Length server ≤ 4096
  clock : isSafeInteger (now + o.lifetimeSeconds) = true
  history : ∀ item ∈ history, ∀ event ∈ item.signedEvent,
    event.createdAt < now + 900 ∧ event.createdAt < 9007199254740991

/-- A publication says what the coordinator had to say. -/
structure ReadsAs (o : CoordinatorOptions) (saga : SagaRow) (publication : ValidatedPublication) :
    Prop where
  root : publication.root.hex = saga.candidate.rootHex
  identity : publication.identity =
    ⟨o.kind, o.pubkey, if o.kind = 37091 then some o.identifier else none⟩
  servers : publication.blossomServers = saga.destinations.map withoutSlashes

theorem Signed.fields {template : EventTemplate} (h : Signed v o template event) :
    event.kind = template.kind ∧ event.createdAt = template.createdAt ∧
      event.content = template.content ∧ event.tags = template.tags := by
  have htemplate := h.template
  simpa [matchesTemplate] using htemplate

theorem exceedsLimits_eq_false {raw : RawPublication} : exceedsLimits raw = false ↔
    raw.tags.length ≤ 256 ∧ utf16Length raw.content ≤ 65536 ∧
      ∀ tag ∈ raw.tags, tag.length ≤ 8 ∧ ∀ field ∈ tag, utf16Length field ≤ 4096 := by
  unfold exceedsLimits
  rw [decide_eq_false_iff_not]
  simp only [not_or, not_lt, List.any_eq_true, decide_eq_true_eq, not_exists, not_and]

theorem utf16Length_canonicalKey {key : String} (h : canonicalKey key = true)
    (hlabel : validLabel (keyName key) = true) : utf16Length key ≤ 109 := by
  obtain ⟨-, -, hlength, -⟩ := canonicalKey_iff.mp h
  have hkey : key = keyName key ++ String.ofList (':' :: btoa (keyBytesOf key)) := by
    apply String.toList_inj.mp
    rw [String.toList_append, String.toList_ofList, canonicalKey_text h]
  have hname : utf16Length (keyName key) ≤ 64 := by
    have hle := utf16Length_le (keyName key)
    simp only [validLabel, decide_eq_true_eq] at hlabel
    exact hle.trans hlabel.2.1
  have hencoded : utf16Length (String.ofList (':' :: btoa (keyBytesOf key))) = 45 := by
    have hascii : ∀ digit < 64, (base64Char digit).toNat < 128 := by decide +kernel
    rw [utf16Length_ascii]
    · rw [← String.length_toList, String.toList_ofList]
      simp [btoa, btoaDigits_length, hlength]
    · intro c hc
      rw [String.toList_ofList, List.mem_cons, btoa, List.mem_append, List.mem_map] at hc
      rcases hc with rfl | ⟨digit, hdigit, rfl⟩ | hpadding
      · decide
      · exact hascii digit (btoaDigits_lt _ digit hdigit)
      · rw [List.eq_of_mem_replicate hpadding]
        decide
  rw [hkey, utf16Length_append, hencoded]
  omega

theorem utf16Length_toString {n : ℕ} (h : isSafeInteger n = true) : utf16Length (toString n) ≤ 16 := by
  have hlist : (toString n).toList = Nat.toDigits 10 n := by simp [Nat.toList_repr]
  have hsafe : n < 10 ^ 16 := by
    simp only [isSafeInteger, Int.natAbs_natCast, decide_eq_true_eq] at h
    omega
  rw [utf16Length_ascii, ← String.length_toList, hlist]
  · exact (Nat.length_toDigits_le_iff (by decide) (by decide)).mpr hsafe
  · intro c hc
    rw [hlist] at hc
    exact (toDigits_digit hc).2.trans_lt (by decide)

theorem publicationName_template (haccepted : config.Accepted)
    (ho : Configured o config) (hkind : event.kind = o.kind)
    (htags : tagsNamed "d" event.tags = if o.kind = 37091 then [["d", o.identifier]] else []) :
    publicationName event = .ok (if o.kind = 37091 then some o.identifier else none) := by
  rcases haccepted.identity with ⟨hroot, -⟩ | ⟨hnamed, hidentifier⟩
  · have hkind' : o.kind = 17091 := ho.kind.trans hroot
    simp [publicationName, hkind, htags, hkind']
  · have hkind' : o.kind = 37091 := ho.kind.trans hnamed
    have hlabel : validLabel o.identifier = true :=
      validLabel_of_identifier (ho.identifier ▸ hidentifier)
    simp [publicationName, hkind, htags, hkind', hlabel]

theorem parseNixKeys_template (haccepted : config.Accepted) (ho : Configured o config)
    (htags : tagsNamed "nixSigKey" event.tags = o.nixSigKeys.map nixSigKeyTag) :
    (∃ keys, parseNixKeys event.tags = .ok keys) ↔
      (∀ key ∈ o.nixSigKeys, validLabel (keyName key) = true) ∧ (o.nixSigKeys.map keyName).Nodup := by
  have hkeys := @foldlM_nixKeys [] _ (by simpa [ho.nixSigKeys] using haccepted.keys)
    (by simpa [ho.nixSigKeys] using haccepted.distinct) List.nodup_nil
  rw [List.nil_append, List.map_nil, ← ho.nixSigKeys] at hkeys
  rw [← hkeys, parseNixKeys, htags]
  cases List.foldlM addNixKey [] (o.nixSigKeys.map nixSigKeyTag) with
  | error e => simp [Except.map]
  | ok result => simp [Except.map]

theorem exceedsLimits_template {root : List UInt8} (haccepted : config.Accepted)
    (ho : Configured o config)
    (hroot : RootReference v root saga.candidate.rootHex saga.candidate.nhash)
    (hlabels : ∀ key ∈ o.nixSigKeys, validLabel (keyName key) = true)
    (hclock : isSafeInteger (m.now + o.lifetimeSeconds) = true)
    (hcontent : event.content = "") (htags : event.tags = (templateOf o m saga history).tags) :
    exceedsLimits event = false ↔
      (if o.kind = 37091 then 1 else 0) + 2 + saga.destinations.length + o.nixSigKeys.length ≤ 256 ∧
        ∀ server ∈ saga.destinations, utf16Length server ≤ 4096 := by
  rw [exceedsLimits_eq_false, htags, templateOf_length, hcontent]
  refine and_congr_right fun _ => ?_
  have hidentifier : o.kind = 37091 → utf16Length o.identifier ≤ 64 := by
    intro hkind
    rcases haccepted.identity with ⟨hnone, -⟩ | ⟨-, hvalid⟩
    · exact absurd (ho.kind.symm.trans hkind) (by omega)
    · rw [ho.identifier]
      simp only [validCacheIdentifier, decide_eq_true_eq] at hvalid
      exact (utf16Length_le _).trans hvalid.2.1
  have hnhash : utf16Length ("htree://" ++ saga.candidate.nhash) ≤ 208 := by
    rw [utf16Length_append, hroot.text]
    have hshort := hroot.reads.short
    have hscheme : utf16Length "htree://" = 8 := by decide
    omega
  have hkeys : ∀ key ∈ o.nixSigKeys, utf16Length key ≤ 109 := by
    intro key hkey
    exact utf16Length_canonicalKey (haccepted.keys key (ho.nixSigKeys ▸ hkey)) (hlabels key hkey)
  have hexpiration := utf16Length_toString (n := m.now + o.lifetimeSeconds) (by exact_mod_cast hclock)
  have htag : ∀ name, utf16Length name ≤ 4096 → ∀ value, ([name, value].length ≤ 8 ∧
      ∀ field ∈ [name, value], utf16Length field ≤ 4096) ↔ utf16Length value ≤ 4096 := by
    intro name hname value
    simp [hname]
  have hidentity : ∀ tag ∈ (if o.kind = 37091 then [["d", o.identifier]] else []),
      tag.length ≤ 8 ∧ ∀ field ∈ tag, utf16Length field ≤ 4096 := by
    split_ifs with hkind
    · rw [List.forall_mem_singleton, htag "d" (by decide)]
      exact (hidentifier hkind).trans (by decide)
    · simp
  simp only [templateOf, List.forall_mem_append, List.forall_mem_map, List.forall_mem_singleton,
    htag "htree" (by decide), htag "blossom" (by decide), htag "nixSigKey" (by decide),
    htag "expiration" (by decide)]
  constructor
  · exact fun h => h.2.1.1.2
  · intro hservers
    refine ⟨by decide, ⟨⟨⟨hidentity, ?_⟩, hservers⟩, ?_⟩, ?_⟩
    · exact hnhash.trans (by decide)
    · exact fun key hkey => (hkeys key hkey).trans (by decide)
    · exact hexpiration.trans (by decide)

/-- The validator accepts what the coordinator has had signed, and reads from it what the
coordinator had to say, exactly when the configured names, the servers, the number of the tags and
the clock are to its taste. -/
theorem template_accepted_iff {number : String → Option ℤ} {raw : RawPublicationConfig}
    {root : List UInt8} (hconfig : parsePublicationConfig number raw = .ok config)
    (ho : Configured o config)
    (hroot : RootReference v root saga.candidate.rootHex saga.candidate.nhash)
    (hsigned : Signed v o (templateOf o m saga history) event) :
    (∃ publication, validatePublication v event m.now = .ok publication ∧
        ReadsAs o saga publication) ↔
      Publishable v o saga history m.now := by
  have haccepted := parsePublicationConfig_accepted hconfig
  obtain ⟨hkind, hcreated, hcontent, htags⟩ := hsigned.fields
  obtain ⟨hd, hhtree, hblossom, hkeys, hexpiration⟩ := templateOf_tags o m saga history
  rw [← htags] at hd hhtree hblossom hkeys hexpiration
  have hname := publicationName_template haccepted ho hkind hd
  have hdecoded : publicationRoot v event = _ := publicationRoot_reference hroot hhtree
  have hnix := parseNixKeys_template haccepted ho hkeys
  have hservers := blossomServersOf_eq (v := v) hblossom
  have hexpires := @publicationExpiration_text _ m.now _ hexpiration
  have hlifetime : 0 < o.lifetimeSeconds := by
    have := haccepted.lifetime.1
    rw [← ho.lifetime] at this
    exact_mod_cast this
  constructor
  · rintro ⟨publication, hvalid, hreads⟩
    have hpassed := validatePublication_ok.mp hvalid
    obtain ⟨hnow, hsafe, hlimits, -, hfuture, -⟩ := checkEvent_ok.mp hpassed.checked
    obtain ⟨hlabels, hnames⟩ := hnix.mp ⟨_, hpassed.nixSigKeys⟩
    have hclock := (hexpires.mp ⟨_, hpassed.expiresAt⟩).1
    obtain ⟨hcount, hlengths⟩ := (exceedsLimits_template haccepted ho hroot hlabels
      (by exact_mod_cast hclock) hcontent htags).mp hlimits
    have hparsed := hservers.mp (hpassed.blossomServers ▸ hreads.servers)
    rw [hcreated] at hsafe hfuture
    have hhistory := (templateOf_timely hnow).mp ⟨hsafe, hfuture⟩
    exact ⟨hlabels, hnames, hcount, fun server hmem => ⟨hparsed server hmem, hlengths server hmem⟩,
      by exact_mod_cast hclock, hhistory⟩
  · intro h
    obtain ⟨keys, hkeys⟩ := hnix.mpr ⟨h.labels, h.names⟩
    have hclock := h.clock
    simp only [isSafeInteger, decide_eq_true_eq] at hclock
    have hnow : isSafeInteger m.now = true := by
      simp only [isSafeInteger, decide_eq_true_eq]
      omega
    obtain ⟨expiresAt, hexpiresAt⟩ := hexpires.mpr ⟨by exact_mod_cast h.clock, by omega⟩
    have hlimits := (exceedsLimits_template haccepted ho hroot h.labels h.clock hcontent htags).mpr
      ⟨h.count, fun server hmem => (h.servers server hmem).2⟩
    obtain ⟨hsafe, hfuture⟩ := (templateOf_timely hnow).mpr h.history
    have hchecked : checkEvent v event m.now = .ok () := by
      refine checkEvent_ok.mpr ⟨hnow, hcreated ▸ hsafe, hlimits, hsigned.verified, hcreated ▸ hfuture, ?_⟩
      rw [hkind]
      exact haccepted.identity.imp (fun h => ho.kind.trans h.1) fun h => ho.kind.trans h.1
    refine ⟨⟨event, ⟨event.kind, event.pubkey, _⟩, _, keys, _, expiresAt⟩,
      validatePublication_ok.mpr ⟨rfl, rfl, rfl, hchecked, hname, hdecoded, hkeys, rfl, hexpiresAt⟩,
      rfl, ?_, hservers.mpr fun server hmem => (h.servers server hmem).1⟩
    rw [hkind, hsigned.pubkey]
    rfl

end Accepted

section Samples

/-- The reference of the root of zeros, with what the library computes on it. -/
def zeroNhash : String :=
  "nhash1qqsqqqqqqqqqqqqqqqqqqqqqqqqqqqqqqqqqqqqqqqqqqqqqqqqqqqqqqq2mctkg"

def zeroWords : List ℕ := [0, 0, 16] ++ List.replicate 52 0

def zeroPayload : List UInt8 := 0 :: 32 :: List.replicate 32 0

def zeroBech32 : Bech32 where
  decode text _ := if text = zeroNhash then some ("nhash", zeroWords) else none
  encode _ words _ := if words = zeroWords then zeroNhash else ""
  fromWords words := if words = zeroWords then some zeroPayload else none
  toWords bytes := if bytes = zeroPayload then zeroWords else []

def zeroHex : String := String.ofList (List.replicate 64 '0')

def publishedValidator (event : RawPublication) (h : isEventId event.id = true) : Validator where
  verifyEvent raw := some (decide (raw = event))
  verified_id raw hraw := by
    obtain rfl : raw = event := by simpa using hraw
    exact h
  verified_event a b ha hb _ := by
    obtain rfl : a = event := by simpa using ha
    obtain rfl : b = a := by simpa using hb
    rfl
  parseUrl text :=
    if text = "https://blobs.example/" then some ⟨"https:", "", "", "blobs.example", "", ""⟩ else none
  toLowerCase := id
  bech32 := zeroBech32

/-- A configuration with the key of zeros under a name. -/
def publisherConfig (name : String) : RawPublicationConfig :=
  ⟨some "named", some "cache", some (.items [name ++ ":" ++ String.ofList (btoa (List.replicate 32 0))]),
    none⟩

def publisherOptions (name : String) : CoordinatorOptions where
  kind := 37091
  identifier := "cache"
  pubkey := zeroHex
  nixSigKeys := [name ++ ":" ++ String.ofList (btoa (List.replicate 32 0))]
  lifetimeSeconds := 2592000
  refreshLeadSeconds := 10
  baseSeconds := 1
  maxSeconds := 1
  maxAttempts := 1
  concurrency := 1
  jitter _ _ := 0
  verifyEvent _ := true
  validatePublication _ _ := true

def publisherSaga : SagaRow :=
  ⟨1, ⟨1, 1, zeroHex, zeroNhash, 1, 1⟩, ["https://blobs.example/"], some "https://blobs.example/", none,
    none, none, false, false⟩

def publisherMoment : Moment := ⟨1000, true, fun _ => none⟩

/-- The template for the saga after an event at an earlier time, with an id and a signature. -/
def publisherHistory (event : RawPublication) : List SagaRow :=
  [{ publisherSaga with batchId := 0, signedEvent := some event }]

def publisherEvent (name : String) (history : List SagaRow) : RawPublication :=
  let template := templateOf (publisherOptions name) publisherMoment publisherSaga history
  ⟨zeroHex, zeroHex, template.createdAt, template.kind, template.tags, template.content, "signature"⟩

def earlierEvent : RawPublication := ⟨zeroHex, zeroHex, 1500, 37091, [], "", "signature"⟩

theorem zeroHex_event (name : String) (history : List SagaRow) :
    isEventId (publisherEvent name history).id = true := by
  change isEventId zeroHex = true
  decide +kernel

def publisherValidator (name : String) (history : List SagaRow) : Validator :=
  publishedValidator (publisherEvent name history) (zeroHex_event name history)

theorem publisher_configured (name : String) : Configured (publisherOptions name)
    ⟨⟨37091, "cache"⟩, (publisherOptions name).nixSigKeys, 2592000⟩ :=
  ⟨rfl, rfl, rfl, rfl⟩

theorem zero_reference {v : Validator} (hbech32 : v.bech32 = zeroBech32) (hlower : v.toLowerCase = id) :
    RootReference v (List.replicate 32 0) zeroHex zeroNhash := by
  refine ⟨by decide, by decide +kernel, ?_, ?_, ?_, ?_, ?_, ?_, ?_⟩
  · rw [hbech32]
    decide +kernel
  all_goals simp only [hbech32, hlower]
  case refine_7 => exact Texts.forall_of_all (by decide +kernel)
  all_goals decide +kernel

theorem publisher_reference (name : String) (history : List SagaRow) :
    RootReference (publisherValidator name history) (List.replicate 32 0)
      publisherSaga.candidate.rootHex publisherSaga.candidate.nhash :=
  zero_reference rfl rfl

theorem publisher_signed (name : String) (history : List SagaRow) :
    Signed (publisherValidator name history) (publisherOptions name)
      (templateOf (publisherOptions name) publisherMoment publisherSaga history)
      (publisherEvent name history) := by
  refine ⟨?_, ?_, rfl⟩
  · simp [publisherValidator, publishedValidator]
  · simp [matchesTemplate, publisherEvent]

end Samples

/-- A saga after an event ahead of the clock is published under a key with a plain name. -/
theorem template_accepted_iff_plain :
    ∃ publication, validatePublication
        (publisherValidator "cache" (publisherHistory earlierEvent))
        (publisherEvent "cache" (publisherHistory earlierEvent)) 1000 = .ok publication ∧
      ReadsAs (publisherOptions "cache") publisherSaga publication := by
  have hconfig : parsePublicationConfig String.toInt? (publisherConfig "cache") =
      .ok ⟨⟨37091, "cache"⟩, (publisherOptions "cache").nixSigKeys, 2592000⟩ := by decide +kernel
  refine (template_accepted_iff (m := publisherMoment) hconfig (publisher_configured "cache")
    (publisher_reference "cache" (publisherHistory earlierEvent))
    (publisher_signed "cache" (publisherHistory earlierEvent))).mpr ⟨?_, ?_, ?_, ?_, ?_, ?_⟩
  · decide +kernel
  · decide +kernel
  · decide +kernel
  · decide +kernel
  · decide +kernel
  · decide +kernel

/-- A configured key whose name has a space is not accepted in a publication. -/
theorem template_rejected_spaced :
    parsePublicationConfig String.toInt? (publisherConfig "my cache") =
        .ok ⟨⟨37091, "cache"⟩, (publisherOptions "my cache").nixSigKeys, 2592000⟩ ∧
      Configured (publisherOptions "my cache")
        ⟨⟨37091, "cache"⟩, (publisherOptions "my cache").nixSigKeys, 2592000⟩ ∧
      RootReference (publisherValidator "my cache" []) (List.replicate 32 0)
        publisherSaga.candidate.rootHex publisherSaga.candidate.nhash ∧
      Signed (publisherValidator "my cache" []) (publisherOptions "my cache")
        (templateOf (publisherOptions "my cache") publisherMoment publisherSaga [])
        (publisherEvent "my cache" []) ∧
      validatePublication (publisherValidator "my cache" []) (publisherEvent "my cache" []) 1000 =
        .error ⟨.nixSignatureKey, "invalid nixSigKey name or base64"⟩ := by
  refine ⟨?_, publisher_configured _, publisher_reference _ _, publisher_signed _ _, ?_⟩
  · decide +kernel
  · decide +kernel

end NixstrCache.Write
