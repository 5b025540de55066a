import Mathlib.Data.List.Lex
import Mathlib.Data.List.Sort
import NixstrCache.Protocol.Nhash

/-!
Manifests of a hashtree and their wire form.

The MessagePack library is a parameter.  Its values are those that it decodes: a map has its fields in
the order of the wire, and a date is what it makes of a timestamp extension.
-/

namespace NixstrCache.Protocol

inductive Number where
  | integer (n : ℤ)
  | fraction (bits : UInt64)
  | notFinite (bits : UInt64)
deriving DecidableEq, Repr

inductive Value where
  | null
  | boolean (b : Bool)
  | number (x : Number)
  | text (s : String)
  | bytes (bs : List UInt8)
  | array (items : List Value)
  | record (fields : List (String × Value))
  | date (seconds nanoseconds : ℤ)
  | extension (type : ℤ) (data : List UInt8)

/-- What `encode` and `decode` throw is a text. -/
structure MessagePack where
  encode : Value → Except String (List UInt8)
  decode : List UInt8 → Except String Value

def MessagePack.Supports (lib : MessagePack) (v : Value) : Prop :=
  ∃ wire, lib.encode v = .ok wire ∧ lib.decode wire = .ok v

inductive LinkType where
  | blob
  | file
  | directory
  | fanout
deriving DecidableEq, Repr

def LinkType.code : LinkType → ℤ
  | .blob => 0
  | .file => 1
  | .directory => 2
  | .fanout => 3

structure ManifestLink where
  hash : List UInt8
  key : Option (List UInt8)
  metadata : Option (List (String × Value))
  name : Option String
  size : ℕ
  type : LinkType

inductive ManifestType where
  | file
  | directory
  | fanout
deriving DecidableEq, Repr

def ManifestType.code : ManifestType → ℤ
  | .file => 1
  | .directory => 2
  | .fanout => 3

structure Manifest where
  type : ManifestType
  links : List ManifestLink

inductive ManifestError where
  | data (message : String)
  | library (message : String)
deriving DecidableEq, Repr

structure ManifestLimits where
  maxWireBytes : ℕ
  maxDecodedBytes : ℕ
  maxLinks : ℕ

structure ValidatedManifest where
  manifest : Manifest
  decodedBytes : ℕ

section Encoding

def linkFields (link : ManifestLink) : List (String × Value) :=
  [("h", Value.bytes link.hash)] ++
    (link.key.map fun key => ("k", Value.bytes key)).toList ++
    (link.metadata.map fun metadata => ("m", Value.record metadata)).toList ++
    (link.name.map fun name => ("n", Value.text name)).toList ++
    [("s", Value.number (.integer link.size)), ("t", Value.number (.integer link.type.code))]

def manifestValue (manifest : Manifest) : Value :=
  .record [("l", .array (manifest.links.map fun link => .record (linkFields link))),
    ("t", .number (.integer manifest.type.code))]

def encodeManifest (lib : MessagePack) (manifest : Manifest) : Except String (List UInt8) :=
  lib.encode (manifestValue manifest)

end Encoding

section Fields

def utf8 (s : String) : List UInt8 :=
  s.toList.flatMap String.utf8EncodeChar

def utf16Units (c : Char) : List ℕ :=
  if c.toNat < 0x10000 then [c.toNat]
  else [0xd800 + (c.toNat - 0x10000) / 0x400, 0xdc00 + (c.toNat - 0x10000) % 0x400]

def utf16 (s : String) : List ℕ :=
  s.toList.flatMap utf16Units

/-- `byteCompare` is negative. -/
def byteLess (a b : String) : Prop :=
  utf8 a < utf8 b

instance (a b : String) : Decidable (byteLess a b) :=
  inferInstanceAs (Decidable (utf8 a < utf8 b))

/-- `isRecord`, with the own properties of the object. -/
def Value.fields? : Value → Option (List (String × Value))
  | .record fields => some fields
  | .date .. => some []
  | .extension type data => some [("type", .number (.integer type)), ("data", .bytes data)]
  | _ => none

def keysOf (fields : List (String × Value)) : List String :=
  fields.map Prod.fst

/-- `ownKeys`: the order of texts is that of their UTF-16 units. -/
def ownKeys (fields : List (String × Value)) : List String :=
  (keysOf fields).insertionSort fun a b => utf16 a ≤ utf16 b

def exactKeys (fields : List (String × Value)) (allowed : List String) : Except ManifestError Unit :=
  if (keysOf fields).Perm allowed then .ok ()
  else .error (.data "unexpected or missing manifest field")

def uint (label : String) : Option Value → Except ManifestError ℕ
  | some (.number (.integer n)) =>
    if 0 ≤ n ∧ n ≤ 9007199254740991 then .ok n.toNat
    else .error (.data (label ++ " must be a safe unsigned integer"))
  | _ => .error (.data (label ++ " must be a safe unsigned integer"))

def bytes32 (label : String) : Option Value → Except ManifestError (List UInt8)
  | some (.bytes bs) =>
    if bs.length = 32 then .ok bs else .error (.data (label ++ " must be 32 bytes"))
  | _ => .error (.data (label ++ " must be 32 bytes"))

mutual

/-- The copy of a JSON value that `jsonMetadata` makes. -/
def visit : Value → Except ManifestError Value
  | .null => .ok .null
  | .boolean b => .ok (.boolean b)
  | .number (.notFinite _) => .error (.data "metadata must be JSON-compatible")
  | .number x => .ok (.number x)
  | .text s => .ok (.text s)
  | .bytes _ => .error (.data "metadata must be JSON-compatible")
  | .array items => (visitItems items).map .array
  | .record fields => (visitFields fields).map .record
  | .date .. => .ok (.record [])
  | .extension .. => .error (.data "metadata must be JSON-compatible")

def visitItems : List Value → Except ManifestError (List Value)
  | [] => .ok []
  | item :: items => do
    let item ← visit item
    let items ← visitItems items
    pure (item :: items)

def visitFields : List (String × Value) → Except ManifestError (List (String × Value))
  | [] => .ok []
  | (key, value) :: fields => do
    let value ← visit value
    let fields ← visitFields fields
    pure ((key, value) :: fields)

end

def jsonMetadata (value : Value) : Except ManifestError (List (String × Value)) :=
  match value.fields? with
  | none => .error (.data "metadata must be a map")
  | some _ =>
    match visit value with
    | .ok (.record fields) => .ok fields
    | .ok _ => .error (.data "metadata must be a map")
    | .error e => .error e

mutual

def decodedCost : Value → ℕ
  | .null => 1
  | .boolean _ => 8
  | .number _ => 8
  | .text s => (utf8 s).length
  | .bytes bs => bs.length
  | .array items => itemsCost items
  | .record fields => fieldsCost fields
  | .date .. => 0
  | .extension _ data => 16 + data.length

def itemsCost : List Value → ℕ
  | [] => 0
  | item :: items => decodedCost item + itemsCost items

def fieldsCost : List (String × Value) → ℕ
  | [] => 0
  | (key, value) :: fields => (utf8 key).length + decodedCost value + fieldsCost fields

end

end Fields

section Decoding

def requiredFields (type : ManifestType) : List String :=
  if type = .directory then ["h", "n", "s", "t"] else ["h", "s", "t"]

def optional {α : Type} (read : Value → Except ManifestError α) :
    Option Value → Except ManifestError (Option α)
  | none => .ok none
  | some value => (read value).map some

def linkType : Option Value → Except ManifestError LinkType
  | some (.number (.integer 0)) => .ok .blob
  | some (.number (.integer 1)) => .ok .file
  | some (.number (.integer 2)) => .ok .directory
  | some (.number (.integer 3)) => .ok .fanout
  | _ => .error (.data "unsupported link type")

def linkName : Value → Except ManifestError String
  | .text name => .ok name
  | _ => .error (.data "link name must be UTF-8 text")

/-- The fields of a link, once their names are in order. -/
def readLink (fields : List (String × Value)) : Except ManifestError ManifestLink := do
  let type ← linkType (fields.lookup "t")
  let hash ← bytes32 "link hash" (fields.lookup "h")
  let key ← optional (fun value => bytes32 "link key" (some value)) (fields.lookup "k")
  let metadata ← optional jsonMetadata (fields.lookup "m")
  let name ← optional linkName (fields.lookup "n")
  let size ← uint "link size" (fields.lookup "s")
  pure ⟨hash, key, metadata, name, size, type⟩

def decodeLink (type : ManifestType) (index : ℕ) (item : Value) : Except ManifestError ManifestLink :=
  match item.fields? with
  | none => .error (.data ("link " ++ toString index ++ " must be a map"))
  | some fields =>
    match (ownKeys fields).find? fun key => key ∉ requiredFields type ++ ["k", "m"] with
    | some key => .error (.data ("unknown link field " ++ key))
    | none =>
      match (requiredFields type).find? fun key => key ∉ keysOf fields with
      | some key => .error (.data ("missing link field " ++ key))
      | none => readLink fields

def decodeLinks (type : ManifestType) : ℕ → List Value → Except ManifestError (List ManifestLink)
  | _, [] => .ok []
  | index, item :: items => do
    let link ← decodeLink type index item
    let links ← decodeLinks type (index + 1) items
    pure (link :: links)

def checkFile (links : List ManifestLink) : Except ManifestError Unit :=
  if links.any fun link => link.name ≠ none ∨ (link.type ≠ .blob ∧ link.type ≠ .file) then
    .error (.data "invalid file-manifest link")
  else .ok ()

def unsafeName (name : String) : Bool :=
  name = "" ∨ name = "." ∨ name = ".." ∨ '/' ∈ name.toList ∨ '\x00' ∈ name.toList

def checkDirectory : Option String → List ManifestLink → Except ManifestError Unit
  | _, [] => .ok ()
  | previous, link :: links =>
    let name := link.name.getD ""
    if unsafeName name then .error (.data "unsafe directory name")
    else if previous.any fun before => ¬byteLess before name then
      .error (.data "directory names must be unique and bytewise sorted")
    else checkDirectory (some name) links

structure Bounds where
  first : String
  last : String
deriving DecidableEq, Repr

/-- The bounds of a fanout link after those of the link before it. -/
def fanoutBounds (priorLast : Option String) (metadata : List (String × Value)) :
    Except ManifestError Bounds := do
  exactKeys metadata ["count", "first", "last"]
  let count ← uint "fanout count" (metadata.lookup "count")
  match metadata.lookup "first", metadata.lookup "last" with
  | some (.text first), some (.text last) =>
    if count = 0 ∨ byteLess last first ∨ (priorLast.any fun prior => ¬byteLess prior first) then
      .error (.data "invalid or overlapping fanout bounds")
    else .ok ⟨first, last⟩
  | _, _ => .error (.data "invalid or overlapping fanout bounds")

def checkFanout : Option String → List ManifestLink → Except ManifestError Unit
  | _, [] => .ok ()
  | priorLast, link :: links =>
    match link.name, link.metadata with
    | none, some metadata =>
      if link.type ≠ .directory ∧ link.type ≠ .fanout then .error (.data "invalid fanout link")
      else do
        let bounds ← fanoutBounds priorLast metadata
        checkFanout (some bounds.last) links
    | _, _ => .error (.data "invalid fanout link")

def checkLinks (type : ManifestType) (links : List ManifestLink) : Except ManifestError Unit :=
  match type with
  | .file => checkFile links
  | .directory => checkDirectory none links
  | .fanout => checkFanout none links

def manifestType : Option Value → Except ManifestError ManifestType
  | some (.number (.integer 1)) => .ok .file
  | some (.number (.integer 2)) => .ok .directory
  | some (.number (.integer 3)) => .ok .fanout
  | _ => .error (.data "unsupported manifest type")

def readManifest (limits : ManifestLimits) (raw : Value) : Except ManifestError Manifest :=
  match raw.fields? with
  | none => .error (.data "manifest root must be a map")
  | some fields => do
    exactKeys fields ["l", "t"]
    match fields.lookup "l" with
    | some (.array items) =>
      if limits.maxLinks < items.length then .error (.data "links-per-manifest limit exceeded")
      else do
        let type ← manifestType (fields.lookup "t")
        let links ← decodeLinks type 0 items
        checkLinks type links
        pure ⟨type, links⟩
    | _ => .error (.data "manifest links must be an array")

def decodeValidatedManifest (lib : MessagePack) (wire : List UInt8) (limits : ManifestLimits) :
    Except ManifestError ValidatedManifest :=
  if 9007199254740991 < limits.maxWireBytes ∨ limits.maxWireBytes < wire.length then
    .error (.data "manifest wire-size limit exceeded")
  else
    match lib.decode wire with
    | .error cause => .error (.data ("malformed MessagePack: " ++ cause))
    | .ok raw =>
      match lib.encode raw with
      | .error cause => .error (.library cause)
      | .ok canonical =>
        if canonical ≠ wire then .error (.data "manifest is not canonically encoded")
        else if limits.maxDecodedBytes < decodedCost raw then
          .error (.data "decoded metadata limit exceeded")
        else (readManifest limits raw).map fun manifest => ⟨manifest, decodedCost raw⟩

def decodeManifest (lib : MessagePack) (wire : List UInt8) (limits : ManifestLimits) :
    Except ManifestError Manifest :=
  (decodeValidatedManifest lib wire limits).map ValidatedManifest.manifest

end Decoding

end NixstrCache.Protocol
