import NixstrCache.Protocol.NarInfo

/-!
The record that several publications give together.

The publications are asked in the order of their priority; one that lacks the path is passed over.  When
a record disagrees with the first one, the first one is served as it is, and else the signatures of the
others are added to it.
-/

namespace NixstrCache.Nix

open Protocol

section Model

structure Body where
  chunks : List (List UInt8)
  failure : Option String

structure Resolved where
  size : ℕ
  body : Option Body

inductive MergeError where
  | verifiedAbsent (path : String)
  | budgetExceeded (message : String)
  | narInfo (error : NarInfoError)
  | failed (message : String)
deriving DecidableEq, Repr

/-- `new TextDecoder("utf-8", { fatal: true }).decode`, which drops a mark of the byte order. -/
def decodeText (bytes : List UInt8) : Except MergeError String :=
  match String.fromUTF8? ⟨bytes.toArray⟩ with
  | none => .error (.failed "The encoded data was not valid utf-8")
  | some text =>
    if text.toList.head? = some (Char.ofNat 0xfeff) then .ok (String.ofList text.toList.tail)
    else .ok text

/-- The loop over the chunks, with the bytes read so far. -/
def readBounded (limit : ℕ) (failure : Option String) (read : List UInt8) :
    List (List UInt8) → Except MergeError (List UInt8)
  | [] =>
    match failure with
    | some message => .error (.failed message)
    | none => .ok read
  | chunk :: chunks =>
    if limit - read.length < chunk.length then
      .error (.budgetExceeded "decoded metadata byte budget exceeded")
    else readBounded limit failure (read ++ chunk) chunks

def boundedText (body : Body) (limit : ℕ) : Except MergeError String :=
  readBounded limit body.failure [] body.chunks >>= decodeText

def readRecord (decodedMetadataBytes : ℕ) (resolved : Resolved) : Except MergeError NarInfo :=
  if decodedMetadataBytes < resolved.size then
    .error (.budgetExceeded "decoded metadata byte budget exceeded")
  else
    match resolved.body with
    | none => .error (.failed "GET resolution omitted body")
    | some body => do
      let text ← boundedText body decodedMetadataBytes
      (parseNarInfo text).mapError .narInfo

structure Found (Publication : Type) where
  publication : Publication
  record : NarInfo

structure NarInfoConflictDiagnostic where
  storePathHash : String
  winnerIdentity : String
  winnerEventId : String
  loserIdentity : String
  loserEventId : String
  differingFields : List String
deriving DecidableEq, Repr

structure MergedNarInfoResult (Publication : Type) where
  winner : Publication
  providers : List Publication
  record : NarInfo
  text : String

structure MergeOptions (Publication : Type) where
  path : String
  storePathHash : String
  decodedMetadataBytes : ℕ
  cacheIdentity : Publication → String
  eventId : Publication → String

variable {Publication : Type} (options : MergeOptions Publication)

/-- The loop over the snapshot, with what the resolver of each publication answers. -/
def findRecords : List (Publication × Except MergeError Resolved) →
    Except MergeError (List (Found Publication))
  | [] => .ok []
  | (publication, answer) :: rest =>
    match answer >>= readRecord options.decodedMetadataBytes with
    | .error (.verifiedAbsent _) => findRecords rest
    | .error error => .error error
    | .ok record => (findRecords rest).map fun found => ⟨publication, record⟩ :: found

def conflictsOf (first : Found Publication) (others : List (Found Publication)) :
    List (Found Publication × List NarInfoField) :=
  (others.map fun item => (item, differingNarInfoFields first.record item.record)).filter
    fun (_, fields) => fields ≠ []

def diagnosticOf (first item : Found Publication) (fields : List NarInfoField) :
    NarInfoConflictDiagnostic where
  storePathHash := options.storePathHash
  winnerIdentity := options.cacheIdentity first.publication
  winnerEventId := options.eventId first.publication
  loserIdentity := options.cacheIdentity item.publication
  loserEventId := options.eventId item.publication
  differingFields := (fields.map NarInfoField.name).mergeSort fun a b => a ≤ b

/-- The result for what has been found, and the diagnostics on the way. -/
def mergeRecords (first : Found Publication) (others : List (Found Publication)) :
    MergedNarInfoResult Publication × List NarInfoConflictDiagnostic :=
  let providers := (first :: others).map Found.publication
  let conflicts := conflictsOf first others
  if conflicts ≠ [] then
    (⟨first.publication, providers, first.record, first.record.rawText⟩,
      conflicts.map fun (item, fields) => diagnosticOf options first item fields)
  else
    let appended := others.flatMap fun item => item.record.signatures.map NarInfoSignature.rawLine
    (⟨first.publication, providers, first.record, appendNarInfoSignatures first.record appended⟩, [])

def resolveMergedNarInfo (snapshot : List (Publication × Except MergeError Resolved)) :
    Except MergeError (MergedNarInfoResult Publication × List NarInfoConflictDiagnostic) := do
  match ← findRecords options snapshot with
  | [] => .error (.verifiedAbsent options.path)
  | first :: others => pure (mergeRecords options first others)

end Model

section Merge

variable {Publication : Type} {options : MergeOptions Publication}
variable {snapshot : List (Publication × Except MergeError Resolved)}

theorem readRecord_parsed {limit : ℕ} {resolved : Resolved} {record : NarInfo}
    (h : readRecord limit resolved = .ok record) : parseNarInfo record.rawText = .ok record := by
  unfold readRecord at h
  split_ifs at h
  cases hbody : resolved.body with
  | none => simp [hbody] at h
  | some body =>
    simp only [hbody] at h
    obtain ⟨text, -, h⟩ := bind_eq_ok.mp h
    cases hparsed : parseNarInfo text with
    | error e => simp [hparsed, Except.mapError] at h
    | ok parsed =>
      rw [hparsed] at h
      cases h
      obtain ⟨-, scanned, scalars, -, -, hrecord⟩ := parseNarInfo_eq_ok.mp hparsed
      rw [hrecord] at hparsed ⊢
      exact hparsed

theorem findRecords_parsed {found : List (Found Publication)}
    (h : findRecords options snapshot = .ok found) :
    ∀ item ∈ found, parseNarInfo item.record.rawText = .ok item.record := by
  induction snapshot generalizing found with
  | nil =>
    cases h
    simp
  | cons entry rest ih =>
    obtain ⟨publication, answer⟩ := entry
    rw [findRecords] at h
    split at h
    · exact ih h
    · cases h
    · next record hrecord =>
      obtain ⟨others, hothers, rfl⟩ := map_eq_ok.mp h
      obtain ⟨resolved, -, hread⟩ := bind_eq_ok.mp hrecord
      exact List.forall_mem_cons.mpr ⟨readRecord_parsed hread, ih hothers⟩

theorem differingNarInfoFields_eq_nil {a b : NarInfo} :
    differingNarInfoFields a b = [] ↔ b.semantics = a.semantics := by
  rw [differingNarInfoFields, List.filter_eq_nil_iff]
  constructor
  · intro h
    funext field
    have hfield : field ∈ semanticFields := by cases field <;> decide
    have hsame := h field hfield
    rw [decide_eq_true_iff, not_not] at hsame
    exact hsame.symm
  · intro h field _
    rw [h, decide_eq_true_iff]
    exact not_not_intro rfl

theorem conflictsOf_eq_nil {first : Found Publication} {others : List (Found Publication)} :
    conflictsOf first others = [] ↔
      ∀ item ∈ others, item.record.semantics = first.record.semantics := by
  rw [conflictsOf, List.filter_eq_nil_iff, List.forall_mem_map]
  refine forall₂_congr fun item _ => ?_
  rw [← differingNarInfoFields_eq_nil]
  simp

/-- Records that agree with the first one add their signatures to it, in the order of the publications
and of the lines.  A record that disagrees leaves the text of the first one as it is. -/
theorem signatures_passed_through {first : Found Publication} {others : List (Found Publication)}
    (hfound : findRecords options snapshot = .ok (first :: others)) :
    ∃ result diagnostics, resolveMergedNarInfo options snapshot = .ok (result, diagnostics) ∧
      ((∀ item ∈ others, item.record.semantics = first.record.semantics) →
        ∃ merged, parseNarInfo result.text = .ok merged ∧
          merged.semantics = first.record.semantics ∧
          merged.fingerprint = first.record.fingerprint ∧
          merged.signatures = (first :: others).flatMap (fun item => item.record.signatures) ∧
          signatureLines result.text =
            (first :: others).flatMap fun item => signatureLines item.record.rawText) ∧
      ((∃ item ∈ others, item.record.semantics ≠ first.record.semantics) →
        result.text = first.record.rawText) := by
  obtain ⟨hfirst, hothers⟩ := List.forall_mem_cons.mp (findRecords_parsed hfound)
  have hresolve : resolveMergedNarInfo options snapshot = .ok (mergeRecords options first others) := by
    rw [resolveMergedNarInfo, hfound]
    rfl
  refine ⟨(mergeRecords options first others).1, (mergeRecords options first others).2, hresolve,
    fun hagree => ?_, fun ⟨item, hitem, hdiffers⟩ => ?_⟩
  · have hlines : (others.flatMap fun item => item.record.signatures.map NarInfoSignature.rawLine) =
        (others.flatMap fun item => item.record.signatures).map NarInfoSignature.rawLine := by
      rw [List.map_flatMap]
    have hreadable : ∀ signature ∈ others.flatMap fun item => item.record.signatures,
        signature.Readable := by
      intro signature hsignature
      obtain ⟨item, hitem, hsignature⟩ := List.mem_flatMap.mp hsignature
      exact (parseNarInfo_signatures (hothers item hitem)).2 signature hsignature
    have hmerged := parseNarInfo_append hfirst hreadable
    rw [← hlines] at hmerged
    have htext : (mergeRecords options first others).1.text = appendNarInfoSignatures first.record
        (others.flatMap fun item => item.record.signatures.map NarInfoSignature.rawLine) := by
      rw [mergeRecords, if_neg (by simpa using conflictsOf_eq_nil.mpr hagree)]
    rw [← htext] at hmerged
    refine ⟨_, hmerged, rfl, rfl, by rw [List.flatMap_cons], ?_⟩
    rw [← (parseNarInfo_signatures hmerged).1, List.map_append, List.flatMap_cons,
      (parseNarInfo_signatures hfirst).1, ← hlines]
    congr 1
    exact List.flatMap_congr fun item hitem => (parseNarInfo_signatures (hothers item hitem)).1
  · have hconflicts : conflictsOf first others ≠ [] := fun hnone =>
      hdiffers (conflictsOf_eq_nil.mp hnone item hitem)
    rw [mergeRecords, if_pos hconflicts]

end Merge

section Sample

/-- The answer with a text in one chunk. -/
def answerOf (text : String) : Except MergeError Resolved :=
  .ok ⟨text.toByteArray.data.toList.length, some ⟨[text.toByteArray.data.toList], none⟩⟩

theorem decodeText_toByteArray {text : String} (h : text.toList.head? ≠ some (Char.ofNat 0xfeff)) :
    decodeText text.toByteArray.data.toList = .ok text := by
  have hvalid : String.fromUTF8? text.toByteArray = some text :=
    dif_pos text.isValidUTF8
  simp only [decodeText, Array.toArray_toList, hvalid, if_neg h]

theorem answerOf_read {text : String} {record : NarInfo}
    (hmark : text.toList.head? ≠ some (Char.ofNat 0xfeff)) (h : parseNarInfo text = .ok record) :
    answerOf text >>= readRecord text.toByteArray.data.toList.length = .ok record := by
  have hbody : boundedText ⟨[text.toByteArray.data.toList], none⟩
      text.toByteArray.data.toList.length = .ok text := by
    simp only [boundedText, readBounded, List.length_nil, Nat.sub_zero, lt_irrefl, if_false,
      List.nil_append]
    exact decodeText_toByteArray hmark
  simp only [answerOf, bind, Except.bind, readRecord, lt_irrefl, if_false, hbody, h, Except.mapError]

def optionsFor (text : String) : MergeOptions String :=
  ⟨"x.narinfo", "x", text.toByteArray.data.toList.length, id, id⟩

theorem findRecords_twice {text : String} {record : NarInfo}
    (hmark : text.toList.head? ≠ some (Char.ofNat 0xfeff)) (h : parseNarInfo text = .ok record) :
    findRecords (optionsFor text) [("p", answerOf text), ("q", answerOf text)] =
      .ok [⟨"p", record⟩, ⟨"q", record⟩] := by
  simp only [findRecords, optionsFor, answerOf_read hmark h, Except.map]

theorem rawText_eq {text : String} {record : NarInfo} (h : parseNarInfo text = .ok record) :
    record.rawText = text := by
  obtain ⟨-, scanned, scalars, -, -, rfl⟩ := parseNarInfo_eq_ok.mp h
  rfl

def sampleLines : List (List Char) :=
  ["StorePath: /nix/store/".toList ++ List.replicate 32 '0' ++ ['-', 'x'], "URL: nar/x".toList,
    "Compression: none".toList, "FileHash: sha256:0".toList, "FileSize: 1".toList,
    "NarHash: sha256:0".toList, "NarSize: 1".toList, "References: ".toList,
    "Sig: key:".toList ++ List.replicate 86 'A' ++ ['=', '=']]

def sampleText : String :=
  String.ofList (sampleLines.flatMap fun line => line ++ ['\n'])

theorem toList_sampleText : sampleText.toList = sampleLines.flatMap fun line => line ++ ['\n'] :=
  String.toList_ofList

theorem linesOf_sampleText : linesOf sampleText = sampleLines := by
  rw [linesOf, toList_sampleText]
  decide +kernel

theorem sampleText_parses : ∃ record, parseNarInfo sampleText = .ok record := by
  have hsome : (scan sampleLines >>= fun scanned => readScalars scanned.scalars).toOption.isSome =
      true := by decide +kernel
  cases h : scan sampleLines >>= fun scanned => readScalars scanned.scalars with
  | error e => simp [h, Except.toOption] at hsome
  | ok scalars =>
    obtain ⟨scanned, hscanned, hscalars⟩ := bind_eq_ok.mp h
    rw [← linesOf_sampleText] at hscanned
    refine ⟨_, parseNarInfo_eq_ok.mpr ⟨?_, scanned, scalars, hscanned, hscalars, rfl⟩⟩
    rw [toList_sampleText]
    decide +kernel

theorem sampleText_unmarked : sampleText.toList.head? ≠ some (Char.ofNat 0xfeff) := by
  rw [toList_sampleText]
  decide +kernel

/-- The signature of a record that two publications have is served twice. -/
theorem signatures_passed_through_twice : ∃ result diagnostics,
    resolveMergedNarInfo (optionsFor sampleText)
      [("p", answerOf sampleText), ("q", answerOf sampleText)] = .ok (result, diagnostics) ∧
    signatureLines result.text = signatureLines sampleText ++ signatureLines sampleText := by
  obtain ⟨record, hrecord⟩ := sampleText_parses
  obtain ⟨result, diagnostics, hresult, hagree, -⟩ :=
    signatures_passed_through (findRecords_twice sampleText_unmarked hrecord)
  obtain ⟨merged, -, -, -, -, hlines⟩ := hagree fun item hitem => by
    rw [List.mem_singleton.mp hitem]
  refine ⟨result, diagnostics, hresult, ?_⟩
  rw [hlines, List.flatMap_cons, List.flatMap_singleton, rawText_eq hrecord]

end Sample

end NixstrCache.Nix
