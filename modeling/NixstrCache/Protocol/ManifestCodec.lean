import NixstrCache.Protocol.Hashtree

/-!
Round trips of manifests.

A manifest that keeps the rules of the decoder is read back from what the encoder writes.  What the
decoder accepts is written again as it was when its fields stand in the order of the encoder and no
timestamp is in its metadata; the decoder compares with the library's encoding of the same value, which
has the fields as they were.
-/

namespace NixstrCache.Protocol

section Json

mutual

def Value.json : Value → Bool
  | .null | .boolean _ | .text _ | .number (.integer _) | .number (.fraction _) => true
  | .number (.notFinite _) | .bytes _ | .date .. | .extension .. => false
  | .array items => itemsJson items
  | .record fields => fieldsJson fields

def itemsJson : List Value → Bool
  | [] => true
  | item :: items => item.json && itemsJson items

def fieldsJson : List (String × Value) → Bool
  | [] => true
  | (_, value) :: fields => value.json && fieldsJson fields

end

mutual

theorem visit_json {v : Value} (h : v.json = true) : visit v = .ok v := by
  match v with
  | .null | .boolean _ | .text _ | .number (.integer _) | .number (.fraction _) => rfl
  | .number (.notFinite _) | .bytes _ | .date .. | .extension .. => cases h
  | .array items => rw [visit, visitItems_json h]; rfl
  | .record fields => rw [visit, visitFields_json h]; rfl

theorem visitItems_json {items : List Value} (h : itemsJson items = true) :
    visitItems items = .ok items := by
  match items with
  | [] => rfl
  | item :: items =>
    simp only [itemsJson, Bool.and_eq_true] at h
    rw [visitItems, visit_json h.1, visitItems_json h.2]
    rfl

theorem visitFields_json {fields : List (String × Value)} (h : fieldsJson fields = true) :
    visitFields fields = .ok fields := by
  match fields with
  | [] => rfl
  | (key, value) :: fields =>
    simp only [fieldsJson, Bool.and_eq_true] at h
    rw [visitFields, visit_json h.1, visitFields_json h.2]
    rfl

end

mutual

theorem json_visit {v w : Value} (h : visit v = .ok w) : w.json = true := by
  match v with
  | .null | .boolean _ | .text _ | .number (.integer _) | .number (.fraction _) =>
    cases h
    rfl
  | .number (.notFinite _) | .bytes _ | .extension .. => cases h
  | .date .. =>
    cases h
    rfl
  | .array items =>
    obtain ⟨copies, hcopies, rfl⟩ := map_eq_ok.mp h
    exact json_visitItems hcopies
  | .record fields =>
    obtain ⟨copies, hcopies, rfl⟩ := map_eq_ok.mp h
    exact json_visitFields hcopies

theorem json_visitItems {items copies : List Value} (h : visitItems items = .ok copies) :
    itemsJson copies = true := by
  match items with
  | [] =>
    cases h
    rfl
  | item :: items =>
    obtain ⟨copy, hcopy, h⟩ := bind_eq_ok.mp h
    obtain ⟨copies, hcopies, h⟩ := bind_eq_ok.mp h
    cases h
    simp only [itemsJson, json_visit hcopy, json_visitItems hcopies, Bool.and_self]

theorem json_visitFields {fields copies : List (String × Value)}
    (h : visitFields fields = .ok copies) : fieldsJson copies = true := by
  match fields with
  | [] =>
    cases h
    rfl
  | (key, value) :: fields =>
    obtain ⟨copy, hcopy, h⟩ := bind_eq_ok.mp h
    obtain ⟨copies, hcopies, h⟩ := bind_eq_ok.mp h
    cases h
    simp only [fieldsJson, json_visit hcopy, json_visitFields hcopies, Bool.and_self]

end

theorem jsonMetadata_json {fields : List (String × Value)} (h : fieldsJson fields = true) :
    jsonMetadata (.record fields) = .ok fields := by
  have hvisit : visit (.record fields) = .ok (.record fields) := visit_json h
  simp [jsonMetadata, Value.fields?, hvisit]

theorem jsonMetadata_eq_ok {value : Value} {metadata : List (String × Value)}
    (h : jsonMetadata value = .ok metadata) : fieldsJson metadata = true ∧
      (value = .record metadata ↔ value.json = true) := by
  have hvisit : visit value = .ok (.record metadata) := by
    unfold jsonMetadata at h
    split at h
    · cases h
    · split at h
      · next hvisit =>
        cases h
        exact hvisit
      · cases h
      · cases h
  have hjson : (Value.record metadata).json = true := json_visit hvisit
  refine ⟨hjson, fun heq => heq ▸ hjson, fun hvalue => ?_⟩
  have hsame := (visit_json hvalue).symm.trans hvisit
  exact Except.ok.inj hsame

end Json

section Links

def fieldOrder : List String :=
  ["h", "k", "m", "n", "s", "t"]

structure ManifestLink.Lawful (type : ManifestType) (link : ManifestLink) : Prop where
  hash : link.hash.length = 32
  key : ∀ key ∈ link.key, key.length = 32
  metadata : ∀ metadata ∈ link.metadata, fieldsJson metadata = true
  name : link.name.isSome ↔ type = .directory
  size : link.size ≤ 9007199254740991

/-- The fields of the item are in the order of the encoder, and its metadata is JSON. -/
def LinkInOrder (item : Value) : Prop :=
  ∃ fields, item = .record fields ∧
    keysOf fields = fieldOrder.filter (fun key => key ∈ keysOf fields) ∧
    ∀ metadata, fields.lookup "m" = some metadata → metadata.json = true

variable {type : ManifestType} {link : ManifestLink} {index : ℕ} {item : Value}
variable {fields : List (String × Value)} {label : String} {v : Option Value}

theorem linkType_eq_ok {t : LinkType} :
    linkType v = .ok t ↔ v = some (.number (.integer t.code)) := by
  constructor
  · intro h
    unfold linkType at h
    split at h <;> cases h <;> rfl
  · rintro rfl
    cases t <;> rfl

theorem bytes32_eq_ok {bs : List UInt8} :
    bytes32 label v = .ok bs ↔ v = some (.bytes bs) ∧ bs.length = 32 := by
  constructor
  · intro h
    unfold bytes32 at h
    split at h
    · split_ifs at h with hlength
      cases h
      exact ⟨rfl, hlength⟩
    · cases h
  · rintro ⟨rfl, hlength⟩
    simp [bytes32, hlength]

theorem uint_eq_ok {n : ℕ} :
    uint label v = .ok n ↔ v = some (.number (.integer n)) ∧ n ≤ 9007199254740991 := by
  constructor
  · intro h
    unfold uint at h
    split at h
    · next m =>
      split_ifs at h with hrange
      cases h
      exact ⟨by rw [Int.toNat_of_nonneg hrange.1], by omega⟩
    · cases h
  · rintro ⟨rfl, hle⟩
    have hrange : (0 : ℤ) ≤ (n : ℤ) ∧ (n : ℤ) ≤ 9007199254740991 := by omega
    simp [uint, hrange.2]

theorem linkName_eq_ok {value : Value} {name : String} :
    linkName value = .ok name ↔ value = .text name := by
  constructor
  · intro h
    unfold linkName at h
    split at h <;> cases h
    rfl
  · rintro rfl
    rfl

theorem optional_eq_ok {α : Type} {read : Value → Except ManifestError α} {wrap : α → Value}
    {P : α → Prop} (hread : ∀ value a, read value = .ok a ↔ value = wrap a ∧ P a) {o : Option α} :
    optional read v = .ok o ↔ v = o.map wrap ∧ ∀ a ∈ o, P a := by
  cases v with
  | none => cases o <;> simp [optional]
  | some value =>
    simp only [optional, map_eq_ok, hread]
    cases o with
    | none => simp
    | some a =>
      constructor
      · rintro ⟨b, ⟨rfl, hb⟩, hba⟩
        obtain rfl : b = a := by simpa using hba
        exact ⟨rfl, fun c hc => by simp_all⟩
      · rintro ⟨hvalue, ha⟩
        exact ⟨a, ⟨by simpa using hvalue, ha a rfl⟩, rfl⟩

theorem readLink_eq_ok : readLink fields = .ok link ↔
    fields.lookup "t" = some (.number (.integer link.type.code)) ∧
    (fields.lookup "h" = some (.bytes link.hash) ∧ link.hash.length = 32) ∧
    (fields.lookup "k" = link.key.map .bytes ∧ ∀ key ∈ link.key, key.length = 32) ∧
    optional jsonMetadata (fields.lookup "m") = .ok link.metadata ∧
    fields.lookup "n" = link.name.map .text ∧
    (fields.lookup "s" = some (.number (.integer link.size)) ∧ link.size ≤ 9007199254740991) := by
  have hkey : ∀ o, optional (fun value => bytes32 "link key" (some value)) (fields.lookup "k") = .ok o ↔
      fields.lookup "k" = o.map .bytes ∧ ∀ key ∈ o, key.length = 32 := by
    intro o
    refine optional_eq_ok fun value a => ?_
    rw [bytes32_eq_ok, Option.some.injEq]
  have hname : ∀ o, optional linkName (fields.lookup "n") = .ok o ↔
      fields.lookup "n" = o.map .text := by
    intro o
    have h : optional linkName (fields.lookup "n") = .ok o ↔
        fields.lookup "n" = o.map Value.text ∧ ∀ a ∈ o, (fun _ => True) a :=
      optional_eq_ok fun value a => by rw [linkName_eq_ok, and_true]
    rw [h, and_iff_left fun _ _ => trivial]
  obtain ⟨hash, key, metadata, name, size, t⟩ := link
  simp only [readLink, bind_eq_ok, linkType_eq_ok, bytes32_eq_ok, hkey, hname, uint_eq_ok]
  constructor
  · rintro ⟨t', ht, hash', hhash, key', hkey', metadata', hmetadata, name', hname', size', hsize, h⟩
    cases h
    exact ⟨ht, hhash, hkey', hmetadata, hname', hsize⟩
  · rintro ⟨ht, hhash, hkey', hmetadata, hname', hsize⟩
    exact ⟨t, ht, hash, hhash, key, hkey', metadata, hmetadata, name, hname', size, hsize, rfl⟩

theorem lookup_linkFields (link : ManifestLink) :
    (linkFields link).lookup "t" = some (.number (.integer link.type.code)) ∧
    (linkFields link).lookup "h" = some (.bytes link.hash) ∧
    (linkFields link).lookup "k" = link.key.map .bytes ∧
    (linkFields link).lookup "m" = link.metadata.map .record ∧
    (linkFields link).lookup "n" = link.name.map .text ∧
    (linkFields link).lookup "s" = some (.number (.integer link.size)) := by
  obtain ⟨hash, key, metadata, name, size, t⟩ := link
  cases key <;> cases metadata <;> cases name <;> simp [linkFields, List.lookup_cons]

theorem keysOf_linkFields (link : ManifestLink) :
    keysOf (linkFields link) = ["h"] ++ (link.key.map fun _ => "k").toList ++
      (link.metadata.map fun _ => "m").toList ++ (link.name.map fun _ => "n").toList ++ ["s", "t"] := by
  obtain ⟨hash, key, metadata, name, size, t⟩ := link
  cases key <;> cases metadata <;> cases name <;> simp [keysOf, linkFields]

theorem readLink_linkFields (h : link.Lawful type) : readLink (linkFields link) = .ok link := by
  obtain ⟨ht, hh, hk, hm, hn, hs⟩ := lookup_linkFields link
  rw [readLink_eq_ok, ht, hh, hk, hm, hn, hs]
  refine ⟨rfl, ⟨rfl, h.hash⟩, ⟨rfl, h.key⟩, ?_, rfl, rfl, h.size⟩
  cases hmetadata : link.metadata with
  | none => rfl
  | some metadata =>
    rw [Option.map_some, optional, jsonMetadata_json (h.metadata metadata hmetadata)]
    rfl

theorem decodeLink_lawful (h : link.Lawful type) (index : ℕ) :
    decodeLink type index (.record (linkFields link)) = .ok link := by
  have hkeys := keysOf_linkFields link
  have hknown : (ownKeys (linkFields link)).find?
      (fun key => key ∉ requiredFields type ++ ["k", "m"]) = none := by
    refine List.find?_eq_none.mpr fun key hkey => ?_
    rw [ownKeys, List.mem_insertionSort, hkeys] at hkey
    have hname := h.name
    cases type <;> cases hlink : link.name <;> simp_all [requiredFields] <;> tauto
  have hrequired : (requiredFields type).find? (fun key => key ∉ keysOf (linkFields link)) = none := by
    refine List.find?_eq_none.mpr fun key hkey => ?_
    rw [hkeys]
    have hname := h.name
    cases type <;> cases hlink : link.name <;> simp_all [requiredFields] <;> tauto
  simp only [decodeLink, Value.fields?, hknown, hrequired]
  exact readLink_linkFields h

theorem filterMap_lookup (h : (keysOf fields).Nodup) :
    ((keysOf fields).filterMap fun key => (fields.lookup key).map fun value => (key, value)) = fields := by
  induction fields with
  | nil => rfl
  | cons pair fields ih =>
    obtain ⟨key, value⟩ := pair
    obtain ⟨hkey, hrest⟩ := List.nodup_cons.mp h
    rw [keysOf, List.map_cons, ← keysOf, List.filterMap_cons]
    simp only [List.lookup_cons_self, Option.map_some]
    refine congrArg _ (Eq.trans (List.filterMap_congr fun other hother => ?_) (ih hrest))
    have hne : (other == key) = false := by
      rw [beq_eq_false_iff_ne]
      rintro rfl
      exact hkey hother
    rw [List.lookup_cons, hne]

theorem fields_of_order {order : List String} (horder : order.Nodup)
    (hkeys : keysOf fields = order.filter fun key => key ∈ keysOf fields) :
    fields = order.filterMap fun key => (fields.lookup key).map fun value => (key, value) := by
  have hnodup : (keysOf fields).Nodup := hkeys ▸ horder.filter _
  calc fields
      = (keysOf fields).filterMap fun key => (fields.lookup key).map fun value => (key, value) :=
        (filterMap_lookup hnodup).symm
    _ = order.filterMap fun key => (fields.lookup key).map fun value => (key, value) := by
        rw [hkeys, List.filterMap_filter]
        refine List.filterMap_congr fun key _ => ?_
        split_ifs with hkey
        · rfl
        · have hnone : fields.lookup key = none := by
            refine List.lookup_eq_none_iff.mpr fun pair hpair => ?_
            simp only [bne_iff_ne]
            rintro rfl
            exact hkey (decide_eq_true (List.mem_map_of_mem hpair))
          simp [hnone]

theorem linkFields_of_order (link : ManifestLink) : linkFields link =
    fieldOrder.filterMap fun key => ((linkFields link).lookup key).map fun value => (key, value) := by
  obtain ⟨hash, key, metadata, name, size, t⟩ := link
  cases key <;> cases metadata <;> cases name <;> simp [linkFields, fieldOrder, List.lookup_cons]

theorem decodeLink_eq_ok (h : decodeLink type index item = .ok link) :
    ∃ fields, item.fields? = some fields ∧ readLink fields = .ok link ∧
      ("n" ∈ keysOf fields ↔ type = .directory) := by
  unfold decodeLink at h
  split at h
  · cases h
  · next fields hfields =>
    split at h
    · cases h
    · next hknown =>
      split at h
      · cases h
      · next hrequired =>
        refine ⟨fields, hfields, h, fun hname => ?_, fun hdirectory => ?_⟩
        · have hmem := List.find?_eq_none.mp hknown "n" ((List.mem_insertionSort _).mpr hname)
          cases type <;> simp [requiredFields] at hmem ⊢
        · have hmem := List.find?_eq_none.mp hrequired "n" (by simp [requiredFields, hdirectory])
          simpa using hmem

theorem lookup_isSome {key : String} : (fields.lookup key).isSome ↔ key ∈ keysOf fields := by
  rw [List.lookup_isSome_iff]
  constructor
  · rintro ⟨pair, hpair, hkey⟩
    obtain rfl : key = pair.1 := by simpa using hkey
    exact List.mem_map_of_mem hpair
  · intro hkey
    obtain ⟨pair, hpair, rfl⟩ := List.mem_map.mp hkey
    exact ⟨pair, hpair, by simp⟩

theorem lawful_of_decodeLink (h : decodeLink type index item = .ok link) : link.Lawful type := by
  obtain ⟨fields, -, hread, hname⟩ := decodeLink_eq_ok h
  obtain ⟨-, hhash, hkey, hmetadata, hn, hsize⟩ := readLink_eq_ok.mp hread
  refine ⟨hhash.2, hkey.2, fun metadata hsome => ?_, ?_, hsize.2⟩
  · rw [hsome] at hmetadata
    cases hm : fields.lookup "m" with
    | none => simp [hm, optional] at hmetadata
    | some value =>
      rw [hm, optional, map_eq_ok] at hmetadata
      obtain ⟨copy, hcopy, hsame⟩ := hmetadata
      obtain rfl : copy = metadata := by simpa using hsame
      exact (jsonMetadata_eq_ok hcopy).1
  · rw [← hname, ← lookup_isSome, hn, Option.isSome_map]

theorem linkFields_eq_iff (h : decodeLink type index item = .ok link) :
    .record (linkFields link) = item ↔ LinkInOrder item := by
  obtain ⟨fields, hfields, hread, -⟩ := decodeLink_eq_ok h
  obtain ⟨ht, ⟨hh, -⟩, ⟨hk, -⟩, hm, hn, hs, -⟩ := readLink_eq_ok.mp hread
  obtain ⟨ht', hh', hk', hm', hn', hs'⟩ := lookup_linkFields link
  constructor
  · rintro rfl
    refine ⟨linkFields link, rfl, ?_, fun value hvalue => ?_⟩
    · rw [keysOf_linkFields]
      cases link.key <;> cases link.metadata <;> cases link.name <;> simp [fieldOrder]
    · have hlawful := (lawful_of_decodeLink h).metadata
      rw [hm'] at hvalue
      obtain ⟨metadata, hmetadata, rfl⟩ := Option.map_eq_some_iff.mp hvalue
      exact hlawful metadata hmetadata
  · rintro ⟨fields', rfl, hkeys, hjson⟩
    obtain rfl : fields' = fields := Option.some.inj hfields
    have hmetadata : fields'.lookup "m" = link.metadata.map .record := by
      cases hlookup : fields'.lookup "m" with
      | none =>
        rw [hlookup, optional] at hm
        rw [← Except.ok.inj hm, Option.map_none]
      | some value =>
        rw [hlookup, optional, map_eq_ok] at hm
        obtain ⟨metadata, hcopy, hsome⟩ := hm
        rw [← hsome, Option.map_some, (jsonMetadata_eq_ok hcopy).2.mpr (hjson value hlookup)]
    rw [fields_of_order (by decide) hkeys, linkFields_of_order link]
    simp only [fieldOrder, List.filterMap_cons, List.filterMap_nil, ht, hh, hk, hmetadata, hn, hs, ht',
      hh', hk', hm', hn', hs']

theorem decodeLinks_eq_ok {items : List Value} {links : List ManifestLink}
    (h : decodeLinks type index items = .ok links) :
    (∀ link ∈ links, link.Lawful type) ∧ links.length = items.length ∧
      (links.map (fun link => Value.record (linkFields link)) = items ↔
        ∀ item ∈ items, LinkInOrder item) := by
  induction items generalizing index links with
  | nil =>
    cases h
    simp
  | cons item items ih =>
    obtain ⟨link, hlink, h⟩ := bind_eq_ok.mp h
    obtain ⟨rest, hrest, h⟩ := bind_eq_ok.mp h
    cases h
    obtain ⟨hlawful, hlength, hiff⟩ := ih hrest
    refine ⟨List.forall_mem_cons.mpr ⟨lawful_of_decodeLink hlink, hlawful⟩, by simp [hlength], ?_⟩
    rw [List.map_cons, List.cons.injEq, List.forall_mem_cons, linkFields_eq_iff hlink, hiff]

theorem decodeLinks_lawful {links : List ManifestLink} (h : ∀ link ∈ links, link.Lawful type)
    (index : ℕ) :
    decodeLinks type index (links.map fun link => .record (linkFields link)) = .ok links := by
  induction links generalizing index with
  | nil => rfl
  | cons link links ih =>
    rw [List.map_cons, decodeLinks, decodeLink_lawful (h link (by simp))]
    have hrest := ih (fun link hlink => h link (List.mem_cons_of_mem _ hlink)) (index + 1)
    simp only [bind, Except.bind, hrest, pure, Except.pure]

end Links

section Manifests

variable {limits : ManifestLimits} {manifest : Manifest} {raw : Value}

/-- What the decoder asks of a manifest beyond the size of its encoding. -/
structure Manifest.Lawful (limits : ManifestLimits) (manifest : Manifest) : Prop where
  count : manifest.links.length ≤ limits.maxLinks
  cost : decodedCost (manifestValue manifest) ≤ limits.maxDecodedBytes
  links : ∀ link ∈ manifest.links, link.Lawful manifest.type
  checked : checkLinks manifest.type manifest.links = .ok ()

/-- The fields of the manifest and of its links are in the order of the encoder, and the metadata of
the links is JSON. -/
def Value.InOrder (raw : Value) : Prop :=
  ∃ fields items, raw = .record fields ∧ keysOf fields = ["l", "t"] ∧
    fields.lookup "l" = some (.array items) ∧ ∀ item ∈ items, LinkInOrder item

theorem manifestType_eq_ok {v : Option Value} {type : ManifestType} :
    manifestType v = .ok type ↔ v = some (.number (.integer type.code)) := by
  constructor
  · intro h
    unfold manifestType at h
    split at h <;> cases h <;> rfl
  · rintro rfl
    cases type <;> rfl

theorem exactKeys_eq_ok {fields : List (String × Value)} {allowed : List String} :
    exactKeys fields allowed = .ok () ↔ (keysOf fields).Perm allowed := by
  unfold exactKeys
  split_ifs with h <;> simp [h]

theorem readManifest_eq_ok : readManifest limits raw = .ok manifest ↔ ∃ fields items,
    raw.fields? = some fields ∧ (keysOf fields).Perm ["l", "t"] ∧
    fields.lookup "l" = some (.array items) ∧ items.length ≤ limits.maxLinks ∧
    fields.lookup "t" = some (.number (.integer manifest.type.code)) ∧
    decodeLinks manifest.type 0 items = .ok manifest.links ∧
    checkLinks manifest.type manifest.links = .ok () := by
  constructor
  · intro h
    unfold readManifest at h
    split at h
    · cases h
    · next fields hfields =>
      obtain ⟨_, hkeys, h⟩ := bind_eq_ok.mp h
      split at h
      · next items hitems =>
        split_ifs at h with hcount
        obtain ⟨type, htype, h⟩ := bind_eq_ok.mp h
        obtain ⟨links, hlinks, h⟩ := bind_eq_ok.mp h
        obtain ⟨_, hchecked, h⟩ := bind_eq_ok.mp h
        cases h
        exact ⟨fields, items, hfields, exactKeys_eq_ok.mp hkeys, hitems, not_lt.mp hcount,
          manifestType_eq_ok.mp htype, hlinks, hchecked⟩
      · cases h
  · rintro ⟨fields, items, hfields, hkeys, hitems, hcount, htype, hlinks, hchecked⟩
    unfold readManifest
    rw [hfields]
    simp only [exactKeys_eq_ok.mpr hkeys, hitems, if_neg (not_lt.mpr hcount),
      manifestType_eq_ok.mpr htype, hlinks, hchecked, bind, Except.bind, pure, Except.pure]

theorem readManifest_lawful (h : manifest.Lawful limits) :
    readManifest limits (manifestValue manifest) = .ok manifest := by
  refine readManifest_eq_ok.mpr ⟨_, _, rfl, .refl _, rfl, ?_, rfl, ?_, h.checked⟩
  · rw [List.length_map]
    exact h.count
  · exact decodeLinks_lawful h.links 0

theorem manifestValue_eq_iff (h : readManifest limits raw = .ok manifest) :
    manifestValue manifest = raw ↔ raw.InOrder := by
  obtain ⟨fields, items, hfields, hkeys, hitems, -, htype, hlinks, -⟩ := readManifest_eq_ok.mp h
  obtain ⟨-, -, hiff⟩ := decodeLinks_eq_ok hlinks
  constructor
  · rintro rfl
    obtain rfl := Option.some.inj hfields
    have harray : manifest.links.map (fun link => Value.record (linkFields link)) = items := by
      simpa [List.lookup_cons] using hitems
    exact ⟨_, items, rfl, rfl, hitems, hiff.mp harray⟩
  · rintro ⟨fields', items', rfl, horder, hitems', hall⟩
    obtain rfl : fields' = fields := Option.some.inj hfields
    obtain rfl : items = items' := by simpa [hitems] using hitems'
    have hfieldsEq : fields' = ["l", "t"].filterMap fun key =>
        (fields'.lookup key).map fun value => (key, value) :=
      fields_of_order (by decide) (by rw [horder]; decide)
    rw [hfieldsEq, manifestValue, hiff.mpr hall]
    simp [hitems, htype]

variable (lib : MessagePack)

theorem decodeManifest_eq_ok {wire : List UInt8} : decodeManifest lib wire limits = .ok manifest ↔
    (limits.maxWireBytes ≤ 9007199254740991 ∧ wire.length ≤ limits.maxWireBytes) ∧
    ∃ raw, lib.decode wire = .ok raw ∧ lib.encode raw = .ok wire ∧
      decodedCost raw ≤ limits.maxDecodedBytes ∧ readManifest limits raw = .ok manifest := by
  unfold decodeManifest decodeValidatedManifest
  constructor
  · intro h
    obtain ⟨validated, hvalidated, rfl⟩ := map_eq_ok.mp h
    clear h
    split_ifs at hvalidated with hsize
    split at hvalidated
    · cases hvalidated
    · next raw hraw =>
      split at hvalidated
      · cases hvalidated
      · next canonical hcanonical =>
        split_ifs at hvalidated with hdiffers hcost
        obtain ⟨m, hm, rfl⟩ := map_eq_ok.mp hvalidated
        obtain rfl : canonical = wire := not_not.mp hdiffers
        exact ⟨by omega, raw, hraw, hcanonical, not_lt.mp hcost, hm⟩
  · rintro ⟨hsize, raw, hraw, hcanonical, hcost, hm⟩
    rw [if_neg (by omega), hraw]
    simp only [hcanonical, ne_eq, not_true_eq_false, if_false, if_neg (not_lt.mpr hcost), hm, Except.map]

theorem Manifest.Lawful.decoded {limits : ManifestLimits} {manifest : Manifest} {wire : List UInt8}
    (h : manifest.Lawful limits) (hread : lib.Supports (manifestValue manifest))
    (hwire : encodeManifest lib manifest = .ok wire) (hsafe : limits.maxWireBytes ≤ 9007199254740991)
    (hlength : wire.length ≤ limits.maxWireBytes) : decodeManifest lib wire limits = .ok manifest := by
  obtain ⟨written, hwritten, hread⟩ := hread
  obtain rfl : written = wire := Except.ok.inj (hwritten.symm.trans hwire)
  exact (decodeManifest_eq_ok lib).mpr
    ⟨⟨hsafe, hlength⟩, manifestValue manifest, hread, hwire, h.cost, readManifest_lawful h⟩

theorem decodeManifest_agree {wire : List UInt8} {limits others : ManifestLimits} {other : Manifest}
    (h : decodeManifest lib wire limits = .ok manifest) (h' : decodeManifest lib wire others = .ok other) :
    manifest = other := by
  obtain ⟨-, raw, hraw, -, -, hread⟩ := (decodeManifest_eq_ok lib).mp h
  obtain ⟨-, raw', hraw', -, -, hread'⟩ := (decodeManifest_eq_ok lib).mp h'
  obtain rfl := Except.ok.inj (hraw.symm.trans hraw')
  obtain ⟨fields, items, hfields, -, hitems, -, htype, hlinks, -⟩ := readManifest_eq_ok.mp hread
  obtain ⟨fields', items', hfields', -, hitems', -, htype', hlinks', -⟩ := readManifest_eq_ok.mp hread'
  obtain rfl := Option.some.inj (hfields.symm.trans hfields')
  obtain rfl : items = items' := by simpa [hitems] using hitems'
  have hsame : manifest.type = other.type :=
    Except.ok.inj ((manifestType_eq_ok.mpr htype).symm.trans (manifestType_eq_ok.mpr htype'))
  rw [hsame] at hlinks
  cases manifest
  cases other
  rw [Manifest.mk.injEq]
  exact ⟨hsame, Except.ok.inj (hlinks.symm.trans hlinks')⟩

/-- A lawful manifest that the library supports is decoded from its encoding.  A wire form that is
decoded is the encoding of the manifest exactly when its fields are in order and its metadata is JSON. -/
theorem manifest_round_trips (limits : ManifestLimits) :
    (∀ manifest wire, manifest.Lawful limits → lib.Supports (manifestValue manifest) →
      encodeManifest lib manifest = .ok wire → limits.maxWireBytes ≤ 9007199254740991 →
      wire.length ≤ limits.maxWireBytes → decodeManifest lib wire limits = .ok manifest) ∧
    ∀ wire manifest, decodeManifest lib wire limits = .ok manifest →
      lib.Supports (manifestValue manifest) →
      (encodeManifest lib manifest = .ok wire ↔ ∃ raw, lib.decode wire = .ok raw ∧ raw.InOrder) := by
  constructor
  · rintro manifest wire hlawful ⟨written, hwritten, hread⟩ hwire hsafe hlength
    obtain rfl : written = wire := Except.ok.inj (hwritten.symm.trans hwire)
    exact (decodeManifest_eq_ok lib).mpr ⟨⟨hsafe, hlength⟩, manifestValue manifest, hread, hwire,
      hlawful.cost, readManifest_lawful hlawful⟩
  · rintro wire manifest h ⟨written, hwritten, hread⟩
    obtain ⟨-, raw, hraw, hcanonical, -, hm⟩ := (decodeManifest_eq_ok lib).mp h
    constructor
    · intro hwire
      obtain rfl : written = wire := Except.ok.inj (hwritten.symm.trans hwire)
      have hsame : manifestValue manifest = raw := Except.ok.inj (hread.symm.trans hraw)
      exact ⟨raw, hraw, (manifestValue_eq_iff hm).mp hsame⟩
    · rintro ⟨other, hother, horder⟩
      obtain rfl : raw = other := Except.ok.inj (hraw.symm.trans hother)
      rw [encodeManifest, (manifestValue_eq_iff hm).mpr horder]
      exact hcanonical

end Manifests

section Small

mutual

/-- MessagePack for small values and for numbers of four bytes. -/
def pack : Value → Except String (List UInt8)
  | .null => .ok [0xc0]
  | .boolean b => .ok [if b then 0xc3 else 0xc2]
  | .number (.integer n) =>
    if 0 ≤ n ∧ n < 128 then .ok [UInt8.ofNat n.toNat]
    else if 65536 ≤ n ∧ n < 4294967296 then
      .ok (0xce :: [3, 2, 1, 0].map fun i => UInt8.ofNat (n.toNat / 256 ^ i))
    else .error "unsupported number"
  | .text s =>
    if (utf8 s).length < 32 then .ok (UInt8.ofNat (0xa0 + (utf8 s).length) :: utf8 s)
    else .error "unsupported text"
  | .bytes bs =>
    if bs.length < 256 then .ok (0xc4 :: UInt8.ofNat bs.length :: bs) else .error "unsupported bytes"
  | .array items =>
    if items.length < 16 then (packItems items).map (UInt8.ofNat (0x90 + items.length) :: ·)
    else .error "unsupported array"
  | .record fields =>
    if fields.length < 16 then (packFields fields).map (UInt8.ofNat (0x80 + fields.length) :: ·)
    else .error "unsupported map"
  | .number _ | .date .. | .extension .. => .error "unsupported value"

def packItems : List Value → Except String (List UInt8)
  | [] => .ok []
  | item :: items => do
    let first ← pack item
    let rest ← packItems items
    pure (first ++ rest)

def packFields : List (String × Value) → Except String (List UInt8)
  | [] => .ok []
  | (key, value) :: fields => do
    let first ← pack value
    let rest ← packFields fields
    pure (UInt8.ofNat (0xa0 + (utf8 key).length) :: utf8 key ++ first ++ rest)

end

def utf8Chars : List UInt8 → List Char
  | [] => []
  | [a] => [Char.ofNat a.toNat]
  | [a, b] =>
    if a < 0x80 then [Char.ofNat a.toNat, Char.ofNat b.toNat]
    else [Char.ofNat (a.toNat % 32 * 64 + b.toNat % 64)]
  | a :: b :: c :: rest =>
    if a < 0x80 then Char.ofNat a.toNat :: utf8Chars (b :: c :: rest)
    else if a < 0xe0 then Char.ofNat (a.toNat % 32 * 64 + b.toNat % 64) :: utf8Chars (c :: rest)
    else if a < 0xf0 then
      Char.ofNat ((a.toNat % 16 * 64 + b.toNat % 64) * 64 + c.toNat % 64) :: utf8Chars rest
    else match rest with
      | [] => []
      | d :: rest => Char.ofNat (((a.toNat % 8 * 64 + b.toNat % 64) * 64 + c.toNat % 64) * 64 +
          d.toNat % 64) :: utf8Chars rest

mutual

/-- A value with the bytes after it.  Each level takes a byte, so the length is fuel enough. -/
def unpack : ℕ → List UInt8 → Except String (Value × List UInt8)
  | 0, _ | _, [] => .error "unexpected end"
  | fuel + 1, byte :: rest =>
    if byte < 0x80 then .ok (.number (.integer byte.toNat), rest)
    else if byte < 0x90 then
      (unpackFields fuel (byte.toNat - 0x80) rest).map fun (fields, rest) => (.record fields, rest)
    else if byte < 0xa0 then
      (unpackItems fuel (byte.toNat - 0x90) rest).map fun (items, rest) => (.array items, rest)
    else if byte < 0xc0 then
      .ok (.text (String.ofList (utf8Chars (rest.take (byte.toNat - 0xa0)))),
        rest.drop (byte.toNat - 0xa0))
    else if byte = 0xc0 then .ok (.null, rest)
    else if byte = 0xc2 ∨ byte = 0xc3 then .ok (.boolean (byte = 0xc3), rest)
    else if byte = 0xc4 then
      .ok (.bytes (rest.tail.take (rest.headD 0).toNat), rest.tail.drop (rest.headD 0).toNat)
    else if byte = 0xce then
      .ok (.number (.integer ((rest.take 4).foldl (fun n b => n * 256 + b.toNat) 0 : ℕ)), rest.drop 4)
    else .error "unsupported byte"

def unpackItems : ℕ → ℕ → List UInt8 → Except String (List Value × List UInt8)
  | _, 0, rest => .ok ([], rest)
  | 0, _, _ => .error "unexpected end"
  | fuel + 1, count + 1, rest => do
    let (item, rest) ← unpack fuel rest
    let (items, rest) ← unpackItems fuel count rest
    pure (item :: items, rest)

def unpackFields : ℕ → ℕ → List UInt8 → Except String (List (String × Value) × List UInt8)
  | _, 0, rest => .ok ([], rest)
  | 0, _, _ => .error "unexpected end"
  | fuel + 1, count + 1, rest => do
    let (key, rest) ← unpack fuel rest
    let (value, rest) ← unpack fuel rest
    let (fields, rest) ← unpackFields fuel count rest
    match key with
    | .text key => pure ((key, value) :: fields, rest)
    | _ => .error "unsupported key"

end

def smallMessagePack : MessagePack where
  encode := pack
  decode wire :=
    match unpack wire.length wire with
    | .ok (v, []) => .ok v
    | .ok _ => .error "extra bytes"
    | .error cause => .error cause

def sampleLimits : ManifestLimits :=
  ⟨4096, 4096, 16⟩

/-- A directory with a file. -/
def sampleDirectory : Manifest where
  type := .directory
  links := [⟨List.replicate 32 1, none, none, some "file", 7, .blob⟩]

theorem manifest_round_trips_directory : ∃ wire,
    decodeManifest smallMessagePack wire sampleLimits = .ok sampleDirectory ∧
      encodeManifest smallMessagePack sampleDirectory = .ok wire := by
  have hwire : ∃ wire, encodeManifest smallMessagePack sampleDirectory = .ok wire ∧
      wire.length ≤ 4096 := ⟨_, rfl, by decide +kernel⟩
  obtain ⟨wire, hwire, hlength⟩ := hwire
  refine ⟨wire, ?_, hwire⟩
  refine (manifest_round_trips smallMessagePack sampleLimits).1 sampleDirectory wire ?_ ⟨_, rfl, rfl⟩
    hwire (by decide) hlength
  refine ⟨by decide, by decide +kernel, fun link hlink => ?_, rfl⟩
  obtain rfl := List.mem_singleton.mp hlink
  exact ⟨by decide, by simp, by simp, by simp [sampleDirectory], by decide⟩

/-- The map of the manifest may have its type first. -/
theorem manifest_with_two_encodings : ∃ manifest first second,
    smallMessagePack.Supports (manifestValue manifest) ∧
      decodeManifest smallMessagePack first sampleLimits = .ok manifest ∧
      decodeManifest smallMessagePack second sampleLimits = .ok manifest ∧
      encodeManifest smallMessagePack manifest = .ok first ∧ first ≠ second :=
  ⟨⟨.directory, []⟩, [0x82, 0xa1, 0x6c, 0x90, 0xa1, 0x74, 0x02],
    [0x82, 0xa1, 0x74, 0x02, 0xa1, 0x6c, 0x90], ⟨_, rfl, rfl⟩, rfl, rfl, rfl, by decide⟩

end Small

end NixstrCache.Protocol
