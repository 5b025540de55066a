import NixstrCache.Config.PublicationConfig
import NixstrCache.Lib.Texts

/-!
Records about archives, and the merge of records of one archive.

A record is a text of lines.  A line is a field, a colon, a space and a value; every field but `Sig`
comes at most once.  The merge puts the raw lines of the signatures of other records after the lines of
the first one.
-/

namespace NixstrCache.Protocol

open Config Texts

structure NarInfoError where
  message : String
deriving DecidableEq, Repr

structure NarInfoSignature where
  name : String
  encoded : String
  bytes : List UInt8
  rawLine : String
deriving DecidableEq, Repr

inductive NarInfoField where
  | storePath
  | url
  | compression
  | fileHash
  | fileSize
  | narHash
  | narSize
  | references
  | deriver
  | system
  | ca
deriving DecidableEq, Repr

def NarInfoField.name : NarInfoField → String
  | .storePath => "StorePath"
  | .url => "URL"
  | .compression => "Compression"
  | .fileHash => "FileHash"
  | .fileSize => "FileSize"
  | .narHash => "NarHash"
  | .narSize => "NarSize"
  | .references => "References"
  | .deriver => "Deriver"
  | .system => "System"
  | .ca => "CA"

/-- `REQUIRED`. -/
def requiredNarInfoFields : List NarInfoField :=
  [.storePath, .url, .compression, .fileHash, .fileSize, .narHash, .narSize, .references]

/-- `SEMANTIC_FIELDS`. -/
def semanticFields : List NarInfoField :=
  requiredNarInfoFields ++ [NarInfoField.deriver, .system, .ca]

inductive SemanticValue where
  | undefined
  | text (s : String)
  | number (n : ℕ)
  | list (items : List String)
deriving DecidableEq, Repr

structure NarInfo where
  storePath : String
  url : String
  compression : String
  fileHash : String
  fileSize : ℕ
  narHash : String
  narSize : ℕ
  references : List String
  semantics : NarInfoField → SemanticValue
  signatures : List NarInfoSignature
  fingerprint : String
  rawText : String

section Values

/-- `/^[A-Za-z0-9+/]+={0,2}$/`. -/
def isBase64Text (value : List Char) : Bool :=
  let rest := value.dropWhile fun c => (base64Digit c).isSome
  rest.length < value.length ∧ rest.length ≤ 2 ∧ rest.all (· = '=')

def canonicalBase64 (value : String) (bytes : ℕ) : Except NarInfoError (List UInt8) :=
  if isBase64Text value.toList = false then .error ⟨"signature is not standard base64"⟩
  else
    match forgivingAtob value.toList with
    | none => .error ⟨"signature is not valid base64"⟩
    | some decoded =>
      if decoded.length ≠ bytes ∨ btoa decoded ≠ value.toList then
        .error ⟨"signature must be canonical " ++ toString bytes ++ "-byte base64"⟩
      else .ok decoded

def isDigit (c : Char) : Bool :=
  '0'.toNat ≤ c.toNat ∧ c.toNat ≤ '9'.toNat

def unsignedInteger (value field : String) : Except NarInfoError ℕ :=
  if value.toList = [] ∨ value.toList.all isDigit = false then .error ⟨field ++ " is invalid"⟩
  else if isSafeInteger (decimal value) = false then .error ⟨field ++ " is too large"⟩
  else .ok (decimal value)

/-- `[0-9a-z]`. -/
def isHashChar (c : Char) : Bool :=
  isDigit c ∨ ('a'.toNat ≤ c.toNat ∧ c.toNat ≤ 'z'.toNat)

/-- `/^[0-9a-z]{32}-[^/\s]+$/`. -/
def isStoreName (name : List Char) : Bool :=
  let rest := name.drop 33
  (name.take 32).length = 32 ∧ (name.take 32).all isHashChar ∧ (name.drop 32).head? = some '-' ∧
    rest ≠ [] ∧ rest.all fun c => c ≠ '/' ∧ ¬isSpace c

/-- What follows a text that another one starts with. -/
def after (start : String) (text : List Char) : Option (List Char) :=
  if start.toList.isPrefixOf text then some (text.drop start.length) else none

/-- `/^\/nix\/store\/[0-9a-z]{32}-[^/\s]+$/`. -/
def isStorePath (path : String) : Bool :=
  (after "/nix/store/" path.toList).any isStoreName

/-- `/^sha256:[0-9a-z]+$/`. -/
def isSha256 (hash : String) : Bool :=
  (after "sha256:" hash.toList).any fun rest => rest ≠ [] ∧ rest.all isHashChar

def isNarUrl (url : String) : Bool :=
  url ≠ "" ∧ url.toList.head? ≠ some '/' ∧ '\\' ∉ url.toList ∧
    "..".toList ∉ url.toList.splitOn '/'

def isCompression (compression : String) : Bool :=
  compression ≠ "" ∧ ¬compression.toList.any isSpace

end Values

section Lines

structure Scanned where
  scalars : List (String × String)
  signatures : List NarInfoSignature

def splitField : List Char → Option (List Char × List Char)
  | [] => none
  | c :: rest =>
    if c = ':' ∧ rest.head? = some ' ' then some ([], rest.tail)
    else (splitField rest).map fun (field, value) => (c :: field, value)

/-- The signature in the value of a `Sig` line. -/
def readSignature (line value : List Char) : Except NarInfoError NarInfoSignature :=
  let name := value.takeWhile (· ≠ ':')
  match value.dropWhile (· ≠ ':') with
  | [] => .error ⟨"Sig requires exactly one colon"⟩
  | _ :: encoded =>
    if name = [] ∨ ':' ∈ encoded then .error ⟨"Sig requires exactly one colon"⟩
    else if name.any fun c => isSpace c ∨ c.toNat < 32 ∨ c.toNat = 127 then
      .error ⟨"invalid Sig name"⟩
    else do
      let bytes ← canonicalBase64 (String.ofList encoded) 64
      pure ⟨String.ofList name, String.ofList encoded, bytes, String.ofList line⟩

def scanLine (scanned : Scanned) (line : List Char) : Except NarInfoError Scanned :=
  match splitField line with
  | none => .error ⟨"malformed narinfo line"⟩
  | some (field, value) =>
    if field = [] then .error ⟨"malformed narinfo line"⟩
    else if field = "Sig".toList then do
      let signature ← readSignature line value
      pure { scanned with signatures := scanned.signatures ++ [signature] }
    else if (semanticFields.map NarInfoField.name).contains (String.ofList field) = false then
      .error ⟨"unknown narinfo field: " ++ String.ofList field⟩
    else if (scanned.scalars.lookup (String.ofList field)).isSome then
      .error ⟨"duplicate scalar field: " ++ String.ofList field⟩
    else .ok { scanned with
      scalars := scanned.scalars ++ [(String.ofList field, String.ofList value)] }

/-- `text.slice(0, -1).split("\n")`. -/
def linesOf (text : String) : List (List Char) :=
  text.toList.dropLast.splitOn '\n'

def scan (lines : List (List Char)) : Except NarInfoError Scanned :=
  lines.foldlM scanLine ⟨[], []⟩

end Lines

section Records

def scalar (scalars : List (String × String)) (field : NarInfoField) : String :=
  (scalars.lookup field.name).getD ""

def optionalScalar (scalars : List (String × String)) (field : NarInfoField) : SemanticValue :=
  match scalars.lookup field.name with
  | none => .undefined
  | some value => .text value

/-- `References`. -/
def referencesOf (value : String) : List String :=
  ((value.toList.splitOn ' ').filter (· ≠ [])).map String.ofList

/-- The record that the scalar fields make, without the signatures and the text. -/
def readScalars (scalars : List (String × String)) : Except NarInfoError NarInfo :=
  match requiredNarInfoFields.find? fun field => (scalars.lookup field.name).isNone with
  | some field => .error ⟨"missing required field: " ++ field.name⟩
  | none =>
    let storePath := scalar scalars .storePath
    let url := scalar scalars .url
    let compression := scalar scalars .compression
    let fileHash := scalar scalars .fileHash
    let narHash := scalar scalars .narHash
    if isStorePath storePath = false then .error ⟨"invalid StorePath"⟩
    else if isNarUrl url = false then .error ⟨"invalid URL"⟩
    else if isCompression compression = false then .error ⟨"invalid Compression"⟩
    else if isSha256 fileHash = false ∨ isSha256 narHash = false then .error ⟨"invalid hash"⟩
    else do
      let fileSize ← unsignedInteger (scalar scalars .fileSize) "FileSize"
      let narSize ← unsignedInteger (scalar scalars .narSize) "NarSize"
      let references := referencesOf (scalar scalars .references)
      if references.any fun reference => ¬isStoreName reference.toList then
        .error ⟨"invalid References"⟩
      else
        pure {
          storePath, url, compression, fileHash, fileSize, narHash, narSize, references
          semantics := fun
            | .storePath => .text storePath
            | .url => .text url
            | .compression => .text compression
            | .fileHash => .text fileHash
            | .fileSize => .number fileSize
            | .narHash => .text narHash
            | .narSize => .number narSize
            | .references => .list references
            | .deriver => optionalScalar scalars .deriver
            | .system => optionalScalar scalars .system
            | .ca => optionalScalar scalars .ca
          signatures := []
          fingerprint := "1;" ++ storePath ++ ";" ++ narHash ++ ";" ++ toString narSize ++ ";" ++
            ",".intercalate references
          rawText := "" }

def parseNarInfo (text : String) : Except NarInfoError NarInfo :=
  if text.toList.getLast? ≠ some '\n' ∨ '\r' ∈ text.toList ∨ '\x00' ∈ text.toList then
    .error ⟨"narinfo must be LF-terminated text"⟩
  else do
    let scanned ← scan (linesOf text)
    let record ← readScalars scanned.scalars
    pure { record with signatures := scanned.signatures, rawText := text }

def differingNarInfoFields (a b : NarInfo) : List NarInfoField :=
  semanticFields.filter fun field => a.semantics field ≠ b.semantics field

def appendNarInfoSignatures (winner : NarInfo) (rawSignatureLines : List String) : String :=
  if rawSignatureLines = [] then winner.rawText
  else String.ofList (winner.rawText.toList.dropLast ++
    rawSignatureLines.flatMap (fun line => '\n' :: line.toList) ++ ['\n'])

def isSignatureLine (line : List Char) : Bool :=
  (splitField line).any fun (field, _) => field = "Sig".toList

def signatureLines (text : String) : List String :=
  ((linesOf text).filter isSignatureLine).map String.ofList

end Records

section Scans

variable {scanned next : Scanned} {line : List Char} {lines : List (List Char)}
variable {signature : NarInfoSignature}

/-- The reader takes a line for a signature. -/
def ReadsAs (line : List Char) (signature : NarInfoSignature) : Prop :=
  ∃ value, splitField line = some ("Sig".toList, value) ∧ readSignature line value = .ok signature

theorem ReadsAs.isSignatureLine (h : ReadsAs line signature) : isSignatureLine line = true := by
  obtain ⟨value, hsplit, -⟩ := h
  simp [Protocol.isSignatureLine, hsplit]

theorem ReadsAs.rawLine (h : ReadsAs line signature) : signature.rawLine = String.ofList line := by
  obtain ⟨value, -, h⟩ := h
  simp only [readSignature] at h
  split at h
  · cases h
  · split_ifs at h
    obtain ⟨bytes, -, h⟩ := bind_eq_ok.mp h
    cases h
    rfl

theorem scanLine_signature (h : ReadsAs line signature) (scanned : Scanned) :
    scanLine scanned line =
      .ok { scanned with signatures := scanned.signatures ++ [signature] } := by
  obtain ⟨value, hsplit, hread⟩ := h
  have hfield : "Sig".toList ≠ [] := by decide
  simp only [scanLine, hsplit, if_neg hfield, if_pos, hread]
  rfl

theorem scanLine_cases (h : scanLine scanned line = .ok next) :
    (∃ signature, ReadsAs line signature ∧
      next = { scanned with signatures := scanned.signatures ++ [signature] }) ∨
    (isSignatureLine line = false ∧ next.signatures = scanned.signatures) := by
  unfold scanLine at h
  split at h
  · cases h
  · next field value hsplit =>
    by_cases hsig : field = "Sig".toList
    · left
      split_ifs at h with hempty
      obtain ⟨signature, hread, h⟩ := bind_eq_ok.mp h
      cases h
      exact ⟨signature, ⟨value, hsig ▸ hsplit, hread⟩, rfl⟩
    · right
      split_ifs at h
      cases h
      exact ⟨by simpa [isSignatureLine, hsplit] using hsig, rfl⟩

theorem foldlM_signatures {signatures : List NarInfoSignature}
    (h : ∀ signature ∈ signatures, ReadsAs signature.rawLine.toList signature) (scanned : Scanned) :
    (signatures.map fun signature => signature.rawLine.toList).foldlM scanLine scanned =
      .ok { scanned with signatures := scanned.signatures ++ signatures } := by
  induction signatures generalizing scanned with
  | nil => simp [pure, Except.pure]
  | cons signature signatures ih =>
    obtain ⟨hfirst, hrest⟩ := List.forall_mem_cons.mp h
    rw [List.map_cons, List.foldlM_cons, scanLine_signature hfirst]
    simp only [bind, Except.bind]
    rw [ih hrest, List.append_assoc, List.singleton_append]

theorem foldlM_scanLine (h : lines.foldlM scanLine scanned = .ok next) : ∃ added,
    next.signatures = scanned.signatures ++ added ∧
      List.Forall₂ ReadsAs (lines.filter isSignatureLine) added := by
  induction lines generalizing scanned with
  | nil =>
    cases h
    exact ⟨[], by simp, by simp⟩
  | cons line lines ih =>
    rw [List.foldlM_cons] at h
    obtain ⟨middle, hline, h⟩ := bind_eq_ok.mp h
    obtain ⟨added, hadded, hreads⟩ := ih h
    rcases scanLine_cases hline with ⟨signature, hsignature, rfl⟩ | ⟨hother, hsame⟩
    · refine ⟨signature :: added, by simpa using hadded, ?_⟩
      rw [List.filter_cons_of_pos hsignature.isSignatureLine]
      exact .cons hsignature hreads
    · refine ⟨added, hsame ▸ hadded, ?_⟩
      rw [List.filter_cons_of_neg (by simp [hother])]
      exact hreads

end Scans

section Appending

variable {text : String} {record : NarInfo} {signatures : List NarInfoSignature}

/-- What `parseNarInfo` has checked and read. -/
theorem parseNarInfo_eq_ok : parseNarInfo text = .ok record ↔
    (text.toList.getLast? = some '\n' ∧ '\r' ∉ text.toList ∧ '\x00' ∉ text.toList) ∧
      ∃ scanned scalars, scan (linesOf text) = .ok scanned ∧
        readScalars scanned.scalars = .ok scalars ∧
        record = { scalars with signatures := scanned.signatures, rawText := text } := by
  rw [parseNarInfo]
  split_ifs with hbad
  · refine ⟨fun h => (by cases h), fun h => ?_⟩
    tauto
  · push Not at hbad
    simp only [bind_eq_ok, pure, Except.pure, Except.ok.injEq]
    constructor
    · rintro ⟨scanned, hscanned, scalars, hscalars, rfl⟩
      exact ⟨hbad, scanned, scalars, hscanned, hscalars, rfl⟩
    · rintro ⟨-, scanned, scalars, hscanned, hscalars, rfl⟩
      exact ⟨scanned, hscanned, scalars, hscalars, rfl⟩

/-- A signature that a record of its own has, in a line of plain characters. -/
structure NarInfoSignature.Readable (signature : NarInfoSignature) : Prop where
  reads : ReadsAs signature.rawLine.toList signature
  plain : '\n' ∉ signature.rawLine.toList ∧ '\r' ∉ signature.rawLine.toList ∧
    '\x00' ∉ signature.rawLine.toList

theorem forall₂_readsAs {lines : List (List Char)} (h : List.Forall₂ ReadsAs lines signatures) :
    signatures.map NarInfoSignature.rawLine = lines.map String.ofList ∧
      ∀ signature ∈ signatures, signature.rawLine.toList ∈ lines ∧
        ReadsAs signature.rawLine.toList signature := by
  induction h with
  | nil => simp
  | cons hread hreads ih =>
    obtain ⟨hlines, hall⟩ := ih
    have hraw := hread.rawLine
    refine ⟨by simp [hraw, hlines], List.forall_mem_cons.mpr ⟨?_, fun signature hsignature => ?_⟩⟩
    · rw [hraw, String.toList_ofList]
      exact ⟨List.mem_cons_self, hread⟩
    · obtain ⟨hmem, hreads⟩ := hall signature hsignature
      exact ⟨List.mem_cons_of_mem _ hmem, hreads⟩

theorem parseNarInfo_signatures (h : parseNarInfo text = .ok record) :
    record.signatures.map NarInfoSignature.rawLine = signatureLines text ∧
      ∀ signature ∈ record.signatures, signature.Readable := by
  obtain ⟨⟨-, hreturn, hzero⟩, scanned, scalars, hscanned, -, rfl⟩ := parseNarInfo_eq_ok.mp h
  obtain ⟨added, hadded, hreads⟩ := foldlM_scanLine hscanned
  obtain rfl : scanned.signatures = added := by simpa using hadded
  obtain ⟨hlines, hall⟩ := forall₂_readsAs hreads
  refine ⟨hlines, fun signature hsignature => ?_⟩
  obtain ⟨hmem, hread⟩ := hall signature hsignature
  obtain ⟨hplain, hsubset⟩ := mem_splitOn (List.mem_of_mem_filter hmem)
  have hchars : signature.rawLine.toList ⊆ text.toList :=
    List.Subset.trans hsubset (List.dropLast_subset _)
  exact ⟨hread, hplain, fun hc => hreturn (hchars hc), fun hc => hzero (hchars hc)⟩

theorem toList_appendNarInfoSignatures (hlast : record.rawText.toList.getLast? = some '\n')
    (lines : List String) : (appendNarInfoSignatures record lines).toList =
      record.rawText.toList.dropLast ++ lines.flatMap (fun line => '\n' :: line.toList) ++ ['\n'] := by
  rw [appendNarInfoSignatures]
  split_ifs with hnone
  · rw [hnone, List.flatMap_nil, List.append_nil]
    exact (List.dropLast_append_getLast? _ hlast).symm
  · rw [String.toList_ofList]

theorem parseNarInfo_append (h : parseNarInfo text = .ok record)
    (hsignatures : ∀ signature ∈ signatures, signature.Readable) :
    let appended := appendNarInfoSignatures record (signatures.map NarInfoSignature.rawLine)
    parseNarInfo appended =
      .ok { record with signatures := record.signatures ++ signatures, rawText := appended } := by
  intro appended
  obtain ⟨⟨hlast, hreturn, hzero⟩, scanned, scalars, hscanned, hscalars, rfl⟩ :=
    parseNarInfo_eq_ok.mp h
  have hchars : appended.toList = text.toList.dropLast ++
      (signatures.map fun signature => signature.rawLine.toList).flatMap (fun line => '\n' :: line) ++
        ['\n'] := by
    rw [toList_appendNarInfoSignatures hlast, List.flatMap_map, List.flatMap_map]
  have hlines : linesOf appended =
      linesOf text ++ signatures.map fun signature => signature.rawLine.toList := by
    rw [linesOf, hchars, List.dropLast_concat, splitOn_appended, linesOf]
    intro line hline
    obtain ⟨signature, hsignature, rfl⟩ := List.mem_map.mp hline
    exact (hsignatures signature hsignature).plain.1
  have habsent : ∀ c, c ≠ '\n' → c ∉ text.toList →
      (∀ signature ∈ signatures, c ∉ signature.rawLine.toList) → c ∉ appended.toList := by
    intro c hc htext hall hmem
    rw [hchars] at hmem
    simp only [List.mem_append, List.mem_flatMap, List.mem_map, List.mem_cons, List.not_mem_nil,
      or_false] at hmem
    rcases hmem with (hmem | ⟨line, ⟨signature, hsignature, rfl⟩, hmem⟩) | hmem
    · exact htext (List.dropLast_subset _ hmem)
    · exact hmem.elim hc (hall signature hsignature)
    · exact hc hmem
  refine parseNarInfo_eq_ok.mpr ⟨⟨by simp [hchars], ?_, ?_⟩, ?_⟩
  · exact habsent _ (by decide) hreturn fun signature hsignature =>
      (hsignatures signature hsignature).plain.2.1
  · exact habsent _ (by decide) hzero fun signature hsignature =>
      (hsignatures signature hsignature).plain.2.2
  · refine ⟨{ scanned with signatures := scanned.signatures ++ signatures }, scalars, ?_, hscalars, rfl⟩
    have hscan : (linesOf text).foldlM scanLine ⟨[], []⟩ = .ok scanned := hscanned
    rw [scan, hlines, List.foldlM_append, hscan]
    exact foldlM_signatures (fun signature hsignature => (hsignatures signature hsignature).reads) _

end Appending

end NixstrCache.Protocol
