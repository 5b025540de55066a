import NixstrCache.Config.CacheIdentity
import NixstrCache.Lib.Texts
import NixstrCache.Nostr.SelectionRuns

/-!
Diagnostics as entries of a log.

A diagnostic is written as one line: the time, the level, a message and its fields.  Some of the texts in
it come from events and requests, and only some of those are cleaned before they are written.
-/

namespace NixstrCache.Operations

open Config Nostr Protocol

section Texts

def isControl (c : Char) : Bool :=
  c.toNat < 32 ∨ isLineTerminator c

def controls (text : String) : List Char :=
  text.toList.filter isControl

/-- `join`. -/
def joined (separator : String) : List String → String
  | [] => ""
  | [text] => text
  | text :: next :: rest => text ++ separator ++ joined separator (next :: rest)

theorem controls_append (a b : String) : controls (a ++ b) = controls a ++ controls b := by
  rw [controls, String.toList_append, List.filter_append, controls, controls]

theorem controls_eq_nil {text : String} :
    controls text = [] ↔ ∀ c ∈ text.toList, isControl c = false := by
  rw [controls, List.filter_eq_nil_iff]
  simp

theorem controls_append_nil {a b : String} :
    controls (a ++ b) = [] ↔ controls a = [] ∧ controls b = [] := by
  rw [controls_append, List.append_eq_nil_iff]

theorem literal_clean {chars : List Char} (h : chars.filter isControl = []) :
    controls (String.ofList chars) = [] := by
  rw [controls, String.toList_ofList]
  exact h

theorem controls_nat (n : ℕ) : controls (toString n) = [] := by
  have hlist : (toString n).toList = Nat.toDigits 10 n := by simp [Nat.toList_repr]
  rw [controls_eq_nil, hlist]
  intro c hc
  obtain ⟨hlow, hhigh⟩ := Texts.toDigits_digit hc
  have hzero : '0'.toNat = 48 := rfl
  have hnine : '9'.toNat = 57 := rfl
  rw [isControl, isLineTerminator, decide_eq_false_iff_not, decide_eq_true_eq]
  omega

theorem controls_joined {separator : String} (hseparator : controls separator = []) {texts : List String} :
    controls (joined separator texts) = [] ↔ ∀ text ∈ texts, controls text = [] := by
  induction texts with
  | nil => exact iff_of_true rfl nofun
  | cons text rest ih =>
    cases rest with
    | nil => simp [joined]
    | cons next rest =>
      rw [joined, controls_append_nil, controls_append_nil, ih, List.forall_mem_cons]
      simp [hseparator]

theorem controls_lines {lines : List String} (h : ∀ line ∈ lines, controls line = []) :
    controls (joined "\n" lines) = List.replicate (lines.length - 1) '\n' := by
  induction lines with
  | nil => rfl
  | cons line rest ih =>
    cases rest with
    | nil => exact h line (by simp)
    | cons next rest =>
      obtain ⟨hline, hrest⟩ := List.forall_mem_cons.mp h
      rw [joined, controls_append, controls_append, hline, ih hrest]
      rfl

end Texts

section Model

/-- A parsed endpoint; `href` is what is left without credentials, query and fragment. -/
structure EndpointUrl where
  protocol : String
  pathname : String
  href : String
deriving DecidableEq, Repr

/-- `new URL`.  A serialized URL has no control characters. -/
structure UrlParser where
  parse : String → Option EndpointUrl
  href_clean : ∀ value url, parse value = some url → controls url.href = []

inductive BlobStoreCode where
  | capacityExhausted
  | reconcileFailure
  | deleteRetry
deriving DecidableEq, Repr

def BlobStoreCode.text : BlobStoreCode → String
  | .capacityExhausted => "capacity_exhausted"
  | .reconcileFailure => "reconcile_failure"
  | .deleteRetry => "delete_retry"

inductive StagingCode where
  | conflict
  | tooLarge
  | invalidNarInfo
  | unavailable
deriving DecidableEq, Repr

def StagingCode.text : StagingCode → String
  | .conflict => "staging_conflict"
  | .tooLarge => "staging_too_large"
  | .invalidNarInfo => "staging_invalid_narinfo"
  | .unavailable => "staging_unavailable"

inductive RouteClass where
  | narinfo
  | nar
deriving DecidableEq, Repr

def RouteClass.text : RouteClass → String
  | .narinfo => "narinfo"
  | .nar => "nar"

inductive Trigger where
  | quiet
  | maximum
deriving DecidableEq, Repr

def Trigger.text : Trigger → String
  | .quiet => "quiet"
  | .maximum => "maximum"

inductive PublicationStage where
  | authorization
  | replication
  | rootSigning
  | relayPublication
  | selectionAdmission
deriving DecidableEq, Repr

def PublicationStage.text : PublicationStage → String
  | .authorization => "authorization"
  | .replication => "replication"
  | .rootSigning => "root_signing"
  | .relayPublication => "relay_publication"
  | .selectionAdmission => "selection_admission"

inductive StageStatus where
  | started
  | complete
  | waiting
  | failed
deriving DecidableEq, Repr

def StageStatus.text : StageStatus → String
  | .started => "started"
  | .complete => "complete"
  | .waiting => "waiting"
  | .failed => "failed"

inductive WriteStatus where
  | initializing
  | ready
  | failed
deriving DecidableEq, Repr

def WriteStatus.text : WriteStatus → String
  | .initializing => "initializing"
  | .ready => "ready"
  | .failed => "failed"

/-- The code that goes with a status of the write capability. -/
def WriteStatus.code : WriteStatus → String
  | .initializing => "write_activation_started"
  | .ready => "write_activation_ready"
  | .failed => "write_activation_failed"

inductive ServingRoute where
  | pinned
  | fallback
deriving DecidableEq, Repr

def ServingRoute.text : ServingRoute → String
  | .pinned => "pinned"
  | .fallback => "fallback"

/-- The diagnostics with the fields that are written. -/
inductive OperationalDiagnostic where
  | publicationProgress (batchId replicaTotal replicaSucceeded relayTotal relaySucceeded : ℕ)
  | blobStore (code : BlobStoreCode) (readyBytes reservedBytes capacityBytes : ℕ) (count : Option ℕ)
  | stagingFailure (code : StagingCode) (routeClass : RouteClass) (status : ℕ)
  | batchBuildFailure (batchId count : ℕ)
  | publicationWindow (trigger : Trigger) (batchId generation count : ℕ)
  | eventRejection (code : String) (eventId cacheIdentity : Option String)
  | mergeConflict (storePathHash winnerIdentity loserIdentity : String) (differingFields : List String)
  | upstreamFailure (code : String) (endpoint : Option String) (attempt durationMs : Option ℕ)
  | signerTransition (code status : String) (cacheIdentity : Option String)
  | batchTransition (code : String) (batchId : ℕ) (count : Option ℕ) (rootHash : Option String)
  | publicationStage (code : String) (stage : PublicationStage) (status : StageStatus) (batchId : ℕ)
      (rootHash : String) (count : Option ℕ)
  | replicaProgress (started : Bool) (rootHash : Option String) (endpoint : String) (completed total : ℕ)
  | replicaAttempt (code : String) (cacheIdentity rootHash : Option String) (endpoint : String)
      (attempt : ℕ) (count : Option ℕ) (durationMs : ℕ) (ok : Bool)
  | relayAcknowledgement (code : String) (eventId : Option String) (endpoint : String) (attempt : ℕ)
      (durationMs : Option ℕ) (ok : Bool)
  | promotion (batchId : ℕ) (eventId rootHash : String)
  | httpRequest (method path : String) (status durationMs : ℕ)
  | writeTransition (status : WriteStatus)
  | writableIdentityMismatch (configuredIdentity durableIdentity : String)
  | blossomServerList (count : ℕ) (endpoints : List String)
  | writeRelayList (found : Bool) (count configuredCount outboxCount : ℕ) (endpoints : List String)
  | cacheSelection (found : Bool) (count : ℕ) (caches htreeLinks : List String)
  | hashtreeNar (head : Bool) (path cacheIdentity rootHash eventId : String) (route : ServingRoute)

section Sanitizers

def safeEndpoint (u : UrlParser) (value : String) : Option String :=
  match u.parse value with
  | none => none
  | some url =>
    if url.protocol ∉ ["http:", "https:", "ws:", "wss:"] then none
    else if url.pathname = "/" ∧ url.href.toList.getLast? = some '/' then
      some (String.ofList url.href.toList.dropLast)
    else some url.href

/-- The characters that `safePath` leaves as they are. -/
def isPathChar (c : Char) : Bool :=
  c.isAlphanum ∨ c ∈ ['.', '_', '+', '/', '-']

/-- The expression matches code units, so a character outside the first plane counts twice. -/
def safePath (value : String) : String :=
  String.ofList ((value.toList.takeWhile fun c => c ≠ '?' ∧ c ≠ '#').flatMap fun c =>
    if isPathChar c then [c] else if c.toNat < 0x10000 then ['?'] else ['?', '?'])

def safeIdentity (value : String) : String :=
  if 136 < utf16Length value ∨ value.toList.any isSpace ∨
      (value.toList.any fun c => c.toNat ≤ 0x1f ∨ c.toNat = 0x7f) then "invalid"
  else
    match matchIdentity value with
    | some found => if utf16Length found.identifier ≤ 64 then value else "invalid"
    | none => "invalid"

def isBech32Char (c : Char) : Bool :=
  c ∈ "023456789acdefghjklmnpqrstuvwxyz".toList

def safeHtreeLink (value : String) : String :=
  let data := value.toList.drop 14
  if value.toList.take 14 = "htree://nhash1".toList ∧ 6 ≤ data.length ∧ data.length ≤ 120 ∧
      data.all isBech32Char then value
  else "invalid"

end Sanitizers

structure LogEntry where
  level : String
  message : String
  fields : List String
deriving DecidableEq, Repr

def number (name : String) (value : ℕ) : String :=
  name ++ "=" ++ toString value

def optionalNumber (name : String) (value : Option ℕ) : List String :=
  (value.map (number name)).toList

def optionalText (name : String) (value : Option String) : List String :=
  match value with
  | none => []
  | some text => if text = "" then [] else [name ++ "=" ++ text]

def milliseconds (value : ℕ) : String :=
  "duration=" ++ toString value ++ "ms"

def endpointField (u : UrlParser) (endpoint : String) : String :=
  "endpoint=" ++ (safeEndpoint u endpoint).getD "invalid"

def endpointsField (u : UrlParser) (endpoints : List String) : List String :=
  if endpoints = [] then []
  else ["endpoints=" ++ joined "," (endpoints.map fun value => (safeEndpoint u value).getD "invalid")]

def ownerMismatch (configuredIdentity durableIdentity : String) : List String :=
  ["!!!!!!!!!!!!!!!!!!!!!!!!!!!!!!!!!!!!!!!!!!!!!!!!!!!!!!!!!!!!!!!!!!!!!!!!",
    "WRITABLE CACHE OWNER MISMATCH — WRITES HAVE BEEN DISABLED",
    "Configured signer: " ++ safeIdentity configuredIdentity,
    "Durable owner:     " ++ safeIdentity durableIdentity,
    "writable.enabled was honored, but this writable database already belongs",
    "to a different signer. PUT is disabled because the daemon refused to",
    "rebind it and risk accidental cache takeover or state corruption.",
    "Restore the original signer, or explicitly migrate/reset the writable state",
    "after preserving any cache data you need. Do not delete state casually.",
    "!!!!!!!!!!!!!!!!!!!!!!!!!!!!!!!!!!!!!!!!!!!!!!!!!!!!!!!!!!!!!!!!!!!!!!!!"]

/-- The cases of `formatOperationalDiagnostic`. -/
def entryOf (u : UrlParser) : OperationalDiagnostic → LogEntry
  | .blobStore code readyBytes reservedBytes capacityBytes count =>
    ⟨if code = .deleteRetry then "WARN" else "ERROR", "blob store: " ++ code.text,
      [number "ready_bytes" readyBytes, number "reserved_bytes" reservedBytes,
        number "capacity_bytes" capacityBytes] ++ optionalNumber "count" count⟩
  | .stagingFailure code routeClass status =>
    ⟨"WARN", "upload staging failed: " ++ code.text, ["route=" ++ routeClass.text, number "status" status]⟩
  | .batchBuildFailure batchId count =>
    ⟨"ERROR", "cache tree build failed", [number "batch" batchId, number "entries" count]⟩
  | .publicationWindow trigger batchId generation count =>
    ⟨"INFO", "publication delay elapsed; starting Hashtree publication",
      ["trigger=" ++ trigger.text, number "batch" batchId, number "generation" generation,
        number "entries" count]⟩
  | .eventRejection code eventId cacheIdentity =>
    ⟨"WARN", "Nostr event rejected: " ++ code,
      optionalText "event" eventId ++ optionalText "cache" cacheIdentity⟩
  | .mergeConflict storePathHash winnerIdentity loserIdentity differingFields =>
    ⟨"WARN", "narinfo publisher conflict",
      ["store=" ++ storePathHash, "winner=" ++ winnerIdentity, "loser=" ++ loserIdentity,
        "fields=" ++ joined "," differingFields]⟩
  | .upstreamFailure code endpoint attempt durationMs =>
    ⟨"WARN", "upstream request failed: " ++ code,
      optionalText "endpoint" (endpoint.bind fun value =>
        if value = "" then none else safeEndpoint u value) ++ optionalNumber "attempt" attempt ++
        (durationMs.map milliseconds).toList⟩
  | .signerTransition code status cacheIdentity =>
    ⟨if status = "failed" then "ERROR" else "INFO", "signer " ++ status ++ ": " ++ code,
      optionalText "cache" cacheIdentity⟩
  | .batchTransition code batchId count rootHash =>
    ⟨"INFO", "publication batch: " ++ code,
      [number "batch" batchId] ++ optionalNumber "entries" count ++ optionalText "root" rootHash⟩
  | .publicationProgress batchId replicaTotal replicaSucceeded relayTotal relaySucceeded =>
    ⟨"INFO", "publication progress",
      [number "batch" batchId, number "replicas" replicaSucceeded ++ "/" ++ toString replicaTotal,
        number "relays" relaySucceeded ++ "/" ++ toString relayTotal]⟩
  | .publicationStage code stage status batchId rootHash count =>
    ⟨if status = .failed then "ERROR" else if status = .waiting then "WARN" else "INFO",
      "publication " ++ stage.text ++ " " ++ status.text ++ ": " ++ code,
      [number "batch" batchId, "root=" ++ rootHash] ++ optionalNumber "entries" count⟩
  | .replicaAttempt code cacheIdentity rootHash endpoint attempt count durationMs ok =>
    ⟨if ok then "INFO" else "WARN",
      "Blossom replica " ++ (if ok then "succeeded" else "failed") ++ ": " ++ code,
      [endpointField u endpoint, number "attempt" attempt] ++ optionalText "cache" cacheIdentity ++
        optionalText "root" rootHash ++ optionalNumber "blobs" count ++ [milliseconds durationMs]⟩
  | .replicaProgress started rootHash endpoint completed total =>
    ⟨"INFO", if started then "Blossom upload started" else "Blossom upload progress",
      [endpointField u endpoint, number "blobs" completed ++ "/" ++ toString total] ++
        optionalText "root" rootHash⟩
  | .relayAcknowledgement code eventId endpoint attempt durationMs ok =>
    ⟨if ok then "INFO" else "WARN",
      "relay publication " ++ (if ok then "acknowledged" else "failed") ++ ": " ++ code,
      [endpointField u endpoint, number "attempt" attempt] ++ optionalText "event" eventId ++
        (durationMs.map milliseconds).toList⟩
  | .promotion batchId eventId rootHash =>
    ⟨"INFO", "cache publication promoted",
      [number "batch" batchId, "event=" ++ eventId, "root=" ++ rootHash]⟩
  | .httpRequest method path status durationMs =>
    ⟨if 500 ≤ status then "ERROR" else if 400 ≤ status then "WARN" else "INFO",
      method ++ " " ++ safePath path ++ " -> " ++ toString status, [milliseconds durationMs]⟩
  | .writeTransition status =>
    ⟨if status = .failed then "ERROR" else "INFO",
      "write capability " ++ status.text ++ ": " ++ status.code, []⟩
  | .writableIdentityMismatch configuredIdentity durableIdentity =>
    ⟨"ERROR", joined "\n" (ownerMismatch configuredIdentity durableIdentity), []⟩
  | .blossomServerList count endpoints =>
    ⟨"INFO", "write Blossom server list changed", [number "servers" count] ++ endpointsField u endpoints⟩
  | .writeRelayList found count configuredCount outboxCount endpoints =>
    ⟨"INFO", if found then "write relay list found" else "write relay list changed",
      [number "relays" count, number "configured" configuredCount, number "outboxes" outboxCount] ++
        endpointsField u endpoints⟩
  | .cacheSelection found count caches htreeLinks =>
    ⟨"INFO", if found then "cache selection found" else "cache selection changed",
      [number "caches" count] ++
        (if caches = [] then [] else ["identities=" ++ joined "," (caches.map safeIdentity)]) ++
        if htreeLinks = [] then [] else ["htrees: " ++ joined "," (htreeLinks.map safeHtreeLink)]⟩
  | .hashtreeNar head path cacheIdentity rootHash eventId route =>
    ⟨"WARN", "NAR resolution failed in Hashtree cache",
      ["method=" ++ (if head then "HEAD" else "GET"), "path=" ++ safePath path,
        "cache=" ++ safeIdentity cacheIdentity, "root=" ++ rootHash, "event=" ++ eventId,
        "route=" ++ route.text]⟩

/-- `padEnd(5)`. -/
def padEnd (level : String) : String :=
  level ++ String.ofList (List.replicate (5 - level.length) ' ')

def LogEntry.line (entry : LogEntry) (timestamp : String) : String :=
  timestamp ++ " " ++ padEnd entry.level ++ " " ++ entry.message ++
    if entry.fields = [] then "" else " " ++ joined " " entry.fields

def formatOperationalDiagnostic (u : UrlParser) (item : OperationalDiagnostic) (timestamp : String) :
    String :=
  (entryOf u item).line timestamp

end Model

section Producers

/-- The text of a `PublicationRejectionCode`. -/
def rejectionText : PublicationRejectionCode → String
  | .invalidEvent => "invalid-event"
  | .future => "future"
  | .expired => "expired"
  | .kind => "kind"
  | .identity => "identity"
  | .htree => "htree"
  | .nhash => "nhash"
  | .unsupportedEncryption => "unsupported-encryption"
  | .nixSignatureKey => "nix-signature-key"
  | .resourceLimit => "resource-limit"

def reasonText : RejectReason → String
  | .invalidBlossomServerList => "invalid-blossom-server-list"
  | .invalid code => rejectionText code
  | .unauthorizedPublisher => "unauthorized-publisher"
  | .unauthorizedIdentity => "unauthorized-identity"
  | .refused none => "rejected"
  | .refused (some .stale) => "stale"
  | .refused (some .downgradeConsentRequired) => "downgrade-consent-required"

/-- `onReject` of the daemon. -/
def onReject (event : RawPublication) (reason : RejectReason) : OperationalDiagnostic :=
  .eventRejection (reasonText reason) (some event.id) none

def isCode (code : String) : Bool :=
  code.toList.all fun c => c.isAlpha ∨ c = '_' ∨ c = '-'

def isHex (text : String) : Bool :=
  text.toList.all isLowerHex

def isMethod (method : String) : Bool :=
  method.toList.all fun c => 0x21 ≤ c.toNat ∧ c.toNat < 0x7f

def isStorePathHash (hash : String) : Bool :=
  hash.toList.all fun c => c.isDigit ∨ c.isLower

/-- The diagnostics of the program, each with what its place guarantees.  The rest comes from events and
requests. -/
inductive Emitted (v : Validator) (store : EventStore) : OperationalDiagnostic → Prop
  | publicationProgress {batchId replicaTotal replicaSucceeded relayTotal relaySucceeded} :
    Emitted v store (.publicationProgress batchId replicaTotal replicaSucceeded relayTotal relaySucceeded)
  | blobStore {code readyBytes reservedBytes capacityBytes count} :
    Emitted v store (.blobStore code readyBytes reservedBytes capacityBytes count)
  | stagingFailure {code routeClass status} : Emitted v store (.stagingFailure code routeClass status)
  | batchBuildFailure {batchId count} : Emitted v store (.batchBuildFailure batchId count)
  | publicationWindow {trigger batchId generation count} :
    Emitted v store (.publicationWindow trigger batchId generation count)
  /-- The selector has rejected an event. -/
  | eventRejection {s t : Selector} {event commits taken reason}
    (hreject : Selector.accept v store s event commits taken = (.rejected reason, t)) :
    Emitted v store (onReject event reason)
  /-- The publications are selected, so their identities are configured ones. -/
  | mergeConflict {storePathHash} {winner loser : CacheIdentity} {differingFields}
    (hhash : isStorePathHash storePathHash = true) (hwinner : winner.Valid) (hloser : loser.Valid)
    (hfields : ∀ field ∈ differingFields, isCode field = true) :
    Emitted v store (.mergeConflict storePathHash (formatCacheIdentity winner) (formatCacheIdentity loser)
      differingFields)
  | upstreamFailure {code endpoint attempt durationMs} (hcode : isCode code = true) :
    Emitted v store (.upstreamFailure code endpoint attempt durationMs)
  | signerTransition {code status} {identifier : String} {kind : ℕ} (hcode : isCode code = true)
    (hstatus : isCode status = true)
    (hidentifier : identifier = "" ∨ validCacheIdentifier identifier = true) :
    Emitted v store (.signerTransition code status
      (some (toString kind ++ ":signer-derived:" ++ identifier)))
  | batchTransition {code batchId count} {rootHash : Option String} (hcode : isCode code = true)
    (hroot : ∀ root ∈ rootHash, isHex root = true) :
    Emitted v store (.batchTransition code batchId count rootHash)
  | publicationStage {stage status batchId rootHash count} (hroot : isHex rootHash = true) :
    Emitted v store (.publicationStage (stage.text ++ "_" ++ status.text) stage status batchId rootHash count)
  | replicaProgress {started} {rootHash : Option String} {endpoint completed total}
    (hroot : ∀ root ∈ rootHash, isHex root = true) :
    Emitted v store (.replicaProgress started rootHash endpoint completed total)
  | replicaAttempt {code} {rootHash : Option String} {endpoint attempt count durationMs ok}
    (hcode : isCode code = true) (hroot : ∀ root ∈ rootHash, isHex root = true) :
    Emitted v store (.replicaAttempt code none rootHash endpoint attempt count durationMs ok)
  | relayAcknowledgement {code} {eventId : Option String} {endpoint attempt durationMs ok}
    (hcode : isCode code = true) (hevent : ∀ id ∈ eventId, isEventId id = true) :
    Emitted v store (.relayAcknowledgement code eventId endpoint attempt durationMs ok)
  | promotion {batchId eventId rootHash} (hevent : isEventId eventId = true) (hroot : isHex rootHash = true) :
    Emitted v store (.promotion batchId eventId rootHash)
  | httpRequest {method path status durationMs} (hmethod : isMethod method = true) :
    Emitted v store (.httpRequest method path status durationMs)
  | writeTransition {status} : Emitted v store (.writeTransition status)
  | writableIdentityMismatch {configuredIdentity durableIdentity} :
    Emitted v store (.writableIdentityMismatch configuredIdentity durableIdentity)
  | blossomServerList {count endpoints} : Emitted v store (.blossomServerList count endpoints)
  | writeRelayList {found count configuredCount outboxCount endpoints} :
    Emitted v store (.writeRelayList found count configuredCount outboxCount endpoints)
  | cacheSelection {found count caches htreeLinks} :
    Emitted v store (.cacheSelection found count caches htreeLinks)
  | hashtreeNar {head path cacheIdentity rootHash eventId route} (hroot : isHex rootHash = true)
    (hevent : isEventId eventId = true) :
    Emitted v store (.hashtreeNar head path cacheIdentity rootHash eventId route)

/-- The control characters that belong to the program itself. -/
def ownControls : OperationalDiagnostic → List Char
  | .writableIdentityMismatch _ _ => List.replicate 9 '\n'
  | _ => []

end Producers

section Sanitized

theorem controls_of_all {text : String} {p : Char → Bool} (hp : ∀ c, p c = true → isControl c = false)
    (h : text.toList.all p = true) : controls text = [] := by
  rw [controls_eq_nil]
  intro c hc
  exact hp c (List.all_eq_true.mp h c hc)

theorem isControl_eq_false {c : Char} (h : 32 ≤ c.toNat ∧ c.toNat < 0x2028) : isControl c = false := by
  rw [isControl, isLineTerminator, decide_eq_false_iff_not, decide_eq_true_eq]
  omega

theorem isAlpha_range {c : Char} (h : c.isAlpha = true) : 65 ≤ c.toNat ∧ c.toNat ≤ 122 := by
  rw [Texts.isAlpha_iff] at h
  omega

theorem isDigit_range {c : Char} (h : c.isDigit = true) : 48 ≤ c.toNat ∧ c.toNat ≤ 57 := by
  simp only [Char.isDigit, Bool.and_eq_true, decide_eq_true_eq, UInt32.le_iff_toNat_le, ge_iff_le] at h
  exact h

theorem isCode_clean {code : String} (h : isCode code = true) : controls code = [] := by
  refine controls_of_all (fun c hc => isControl_eq_false ?_) h
  simp only [Bool.decide_or, Bool.or_eq_true, decide_eq_true_eq, Bool.decide_eq_true] at hc
  rcases hc with hc | rfl | rfl
  · have hrange := isAlpha_range hc
    omega
  · decide
  · decide

theorem isHex_clean {text : String} (h : isHex text = true) : controls text = [] := by
  refine controls_of_all (fun c hc => isControl_eq_false ?_) h
  rw [isLowerHex, decide_eq_true_eq] at hc
  simp only [Char.le_def, UInt32.le_iff_toNat_le] at hc
  change (48 ≤ c.toNat ∧ c.toNat ≤ 57) ∨ (97 ≤ c.toNat ∧ c.toNat ≤ 102) at hc
  omega

theorem isEventId_clean {id : String} (h : isEventId id = true) : controls id = [] := by
  rw [isEventId, decide_eq_true_eq] at h
  refine controls_of_all (fun c hc => isControl_eq_false ?_) h.2
  rw [decide_eq_true_eq] at hc
  simp only [Char.le_def, UInt32.le_iff_toNat_le] at hc
  change (48 ≤ c.toNat ∧ c.toNat ≤ 57) ∨ (97 ≤ c.toNat ∧ c.toNat ≤ 102) at hc
  omega

theorem isMethod_clean {method : String} (h : isMethod method = true) : controls method = [] := by
  refine controls_of_all (fun c hc => isControl_eq_false ?_) h
  rw [decide_eq_true_eq] at hc
  omega

theorem isStorePathHash_clean {hash : String} (h : isStorePathHash hash = true) : controls hash = [] := by
  refine controls_of_all (fun c hc => isControl_eq_false ?_) h
  simp only [Bool.decide_or, Bool.or_eq_true, Bool.decide_eq_true] at hc
  rcases hc with hc | hc
  · have hrange := isDigit_range hc
    omega
  · have hrange := isAlpha_range (c := c) ((Bool.or_eq_true _ _).mpr (Or.inr hc))
    omega

theorem isControl_of_space {c : Char} (hspace : isSpace c = false) (hcode : ¬c.toNat < 32) :
    isControl c = false := by
  rw [isSpace, decide_eq_false_iff_not] at hspace
  rw [isControl, isLineTerminator, decide_eq_false_iff_not, decide_eq_true_eq]
  omega

theorem identifier_clean {identifier : String} (h : validCacheIdentifier identifier = true) :
    controls identifier = [] := by
  rw [validCacheIdentifier, decide_eq_true_eq] at h
  rw [controls_eq_nil]
  intro c hc
  have hnot : ¬(isSpace c = true ∨ c.toNat < 32 ∨ c.toNat = 127) := by
    intro hbad
    exact h.2.2.2 (List.any_eq_true.mpr ⟨c, hc, by simpa using hbad⟩)
  rw [not_or, not_or, Bool.not_eq_true] at hnot
  exact isControl_of_space hnot.1 hnot.2.1

theorem safePath_clean (value : String) : controls (safePath value) = [] := by
  have hquestion : isControl '?' = false := by decide
  rw [controls_eq_nil, safePath, String.toList_ofList]
  intro c hc
  obtain ⟨x, -, hx⟩ := List.mem_flatMap.mp hc
  split_ifs at hx with hpath
  · obtain rfl := List.mem_singleton.mp hx
    simp only [isPathChar, Char.isAlphanum, Bool.decide_or, Bool.or_eq_true, decide_eq_true_eq,
      Bool.decide_eq_true, List.mem_cons, List.not_mem_nil, or_false] at hpath
    rcases hpath with (hpath | hpath) | hpath
    · have hrange := isAlpha_range hpath
      exact isControl_eq_false (by omega)
    · have hrange := isDigit_range hpath
      exact isControl_eq_false (by omega)
    · rcases hpath with rfl | rfl | rfl | rfl | rfl <;> decide
  · rw [List.mem_singleton.mp hx]
    exact hquestion
  · obtain rfl : c = '?' := by simpa using hx
    exact hquestion

theorem safeIdentity_clean (value : String) : controls (safeIdentity value) = [] := by
  have hinvalid : controls "invalid" = [] := by decide
  rw [safeIdentity]
  split_ifs with hbad
  · exact hinvalid
  · split
    · split_ifs
      · rw [not_or, not_or, List.any_eq_true, List.any_eq_true, not_exists, not_exists] at hbad
        rw [controls_eq_nil]
        intro c hc
        refine isControl_of_space ?_ ?_
        · exact Bool.eq_false_iff.mpr fun hspace => hbad.2.1 c ⟨hc, hspace⟩
        · intro hlow
          exact hbad.2.2 c ⟨hc, by simp; omega⟩
      · exact hinvalid
    · exact hinvalid

theorem safeHtreeLink_clean (value : String) : controls (safeHtreeLink value) = [] := by
  rw [safeHtreeLink]
  split_ifs with hlink
  · obtain ⟨hscheme, -, -, hdata⟩ := hlink
    rw [controls, ← List.take_append_drop 14 value.toList, List.filter_append, hscheme]
    have hfirst : "htree://nhash1".toList.filter isControl = [] := by decide
    rw [hfirst, List.nil_append, List.filter_eq_nil_iff]
    intro c hc
    have hchar := List.all_eq_true.mp hdata c hc
    have hall : ∀ c ∈ "023456789acdefghjklmnpqrstuvwxyz".toList, isControl c = false :=
      Texts.forall_of_all (by decide)
    rw [hall c (of_decide_eq_true hchar)]
    exact Bool.false_ne_true
  · decide

theorem safeEndpoint_clean (u : UrlParser) {value text : String} (h : safeEndpoint u value = some text) :
    controls text = [] := by
  unfold safeEndpoint at h
  split at h
  · cases h
  · next url hurl =>
    have hclean := u.href_clean value url hurl
    split_ifs at h
    · obtain rfl := Option.some.inj h
      rw [controls_eq_nil] at hclean ⊢
      intro c hc
      rw [String.toList_ofList] at hc
      exact hclean c (List.mem_of_mem_dropLast hc)
    · exact Option.some.inj h ▸ hclean

theorem formatCacheIdentity_clean {identity : CacheIdentity} (h : identity.Valid) :
    controls (formatCacheIdentity identity) = [] := by
  have hcolon : controls ":" = [] := literal_clean (by decide)
  have hidentifier : controls identity.identifier = [] := by
    rcases h.named with ⟨-, hempty⟩ | ⟨-, hvalid⟩
    · rw [hempty]
      decide
    · exact identifier_clean hvalid
  rw [formatCacheIdentity]
  simp only [controls_append_nil]
  exact ⟨⟨⟨⟨controls_nat _, hcolon⟩, isHex_clean h.pubkey.2⟩, hcolon⟩, hidentifier⟩

end Sanitized

section Entries

variable {u : UrlParser} {v : Validator} {store : EventStore} {timestamp : String}

theorem controls_number (name : String) (value : ℕ) (h : controls name = []) :
    controls (number name value) = [] := by
  have hequals : controls "=" = [] := literal_clean (by decide)
  rw [number, controls_append_nil, controls_append_nil]
  exact ⟨⟨h, hequals⟩, controls_nat value⟩

theorem controls_optionalNumber (name : String) (value : Option ℕ) (h : controls name = []) :
    ∀ field ∈ optionalNumber name value, controls field = [] := by
  intro field hfield
  cases value with
  | none => exact nomatch hfield
  | some value =>
    obtain rfl := List.mem_singleton.mp hfield
    exact controls_number name value h

theorem controls_optionalText (name : String) (value : Option String) (h : controls name = []) :
    (∀ field ∈ optionalText name value, controls field = []) ↔ ∀ text ∈ value, controls text = [] := by
  have hequals : controls "=" = [] := literal_clean (by decide)
  cases value with
  | none => exact iff_of_true nofun nofun
  | some text =>
    rw [optionalText]
    split_ifs with hempty
    · refine iff_of_true nofun fun other hother => ?_
      obtain rfl := Option.mem_some.mp hother
      rw [hempty]
      rfl
    · simp [controls_append_nil, h, hequals]

theorem controls_milliseconds (value : ℕ) : controls (milliseconds value) = [] := by
  have hname : controls "duration=" = [] := literal_clean (by decide)
  have hunit : controls "ms" = [] := literal_clean (by decide)
  rw [milliseconds, controls_append_nil, controls_append_nil]
  exact ⟨⟨hname, controls_nat value⟩, hunit⟩

theorem controls_endpoint (u : UrlParser) (endpoint : String) :
    controls ((safeEndpoint u endpoint).getD "invalid") = [] := by
  cases h : safeEndpoint u endpoint with
  | none => exact (literal_clean (by decide) : controls "invalid" = [])
  | some text => exact safeEndpoint_clean u h

theorem controls_endpointField (u : UrlParser) (endpoint : String) :
    controls (endpointField u endpoint) = [] := by
  have hname : controls "endpoint=" = [] := literal_clean (by decide)
  rw [endpointField, controls_append_nil]
  exact ⟨hname, controls_endpoint u endpoint⟩

theorem controls_endpointsField (u : UrlParser) (endpoints : List String) :
    ∀ field ∈ endpointsField u endpoints, controls field = [] := by
  intro field hfield
  have hname : controls "endpoints=" = [] := literal_clean (by decide)
  rw [endpointsField] at hfield
  split_ifs at hfield
  · exact nomatch hfield
  · obtain rfl := List.mem_singleton.mp hfield
    rw [controls_append_nil, controls_joined (literal_clean (by decide))]
    refine ⟨hname, fun text htext => ?_⟩
    obtain ⟨endpoint, -, rfl⟩ := List.mem_map.mp htext
    exact controls_endpoint u endpoint

theorem controls_padEnd {level : String} (h : controls level = []) : controls (padEnd level) = [] := by
  rw [padEnd, controls_append_nil]
  refine ⟨h, ?_⟩
  rw [controls_eq_nil, String.toList_ofList]
  intro c hc
  rw [List.eq_of_mem_replicate hc]
  decide

theorem line_controls {entry : LogEntry} (htimestamp : controls timestamp = [])
    (hlevel : controls entry.level = []) (hfields : ∀ field ∈ entry.fields, controls field = []) :
    controls (entry.line timestamp) = controls entry.message := by
  have hspace : controls " " = [] := literal_clean (by decide)
  have hend : controls (if entry.fields = [] then "" else " " ++ joined " " entry.fields) = [] := by
    split_ifs
    · rfl
    · rw [controls_append_nil, controls_joined hspace]
      exact ⟨hspace, hfields⟩
  simp only [LogEntry.line, controls_append, htimestamp, hspace, controls_padEnd hlevel, hend,
    List.nil_append, List.append_nil]

theorem line_clean {entry : LogEntry} (htimestamp : controls timestamp = [])
    (hlevel : controls entry.level = []) : controls (entry.line timestamp) = [] ↔
      controls entry.message = [] ∧ ∀ field ∈ entry.fields, controls field = [] := by
  have hspace : controls " " = [] := literal_clean (by decide)
  have hend : controls (if entry.fields = [] then "" else " " ++ joined " " entry.fields) = [] ↔
      ∀ field ∈ entry.fields, controls field = [] := by
    split_ifs with hempty
    · rw [hempty]
      exact iff_of_true rfl nofun
    · rw [controls_append_nil, controls_joined hspace]
      simp [hspace]
  rw [LogEntry.line, controls_append_nil, hend]
  simp only [controls_append_nil, htimestamp, hspace, controls_padEnd hlevel, and_self, true_and]

theorem ownerMismatch_lines (configuredIdentity durableIdentity : String) :
    ∀ line ∈ ownerMismatch configuredIdentity durableIdentity, controls line = [] := by
  have hconfigured : controls ("Configured signer: " ++ safeIdentity configuredIdentity) = [] := by
    rw [controls_append_nil]
    exact ⟨literal_clean (by decide), safeIdentity_clean _⟩
  have hdurable : controls ("Durable owner:     " ++ safeIdentity durableIdentity) = [] := by
    rw [controls_append_nil]
    exact ⟨literal_clean (by decide), safeIdentity_clean _⟩
  simp only [ownerMismatch, List.forall_mem_cons]
  exact ⟨literal_clean (by decide), literal_clean (by decide), hconfigured, hdurable,
    literal_clean (by decide), literal_clean (by decide), literal_clean (by decide),
      literal_clean (by decide),
    literal_clean (by decide), literal_clean (by decide), nofun⟩

theorem level_clean (item : OperationalDiagnostic) : controls (entryOf u item).level = [] := by
  have hlevel : (entryOf u item).level ∈ ["INFO", "WARN", "ERROR"] := by
    cases item with
    | blobStore | signerTransition | publicationStage | replicaAttempt | relayAcknowledgement
    | httpRequest | writeTransition =>
      dsimp only [entryOf]
      split_ifs <;> decide
    | _ => simp [entryOf]
  have hall : ∀ level ∈ ["INFO", "WARN", "ERROR"], controls level = [] := by decide
  exact hall _ hlevel

theorem controls_durations (durationMs : Option ℕ) :
    ∀ field ∈ (durationMs.map milliseconds).toList, controls field = [] := by
  intro field hfield
  cases durationMs with
  | none => exact nomatch hfield
  | some value =>
    obtain rfl := List.mem_singleton.mp hfield
    exact controls_milliseconds value

theorem controls_fraction (name : String) (value total : ℕ) (h : controls name = []) :
    controls (number name value ++ "/" ++ toString total) = [] := by
  rw [controls_append_nil, controls_append_nil]
  exact ⟨⟨controls_number name value h, literal_clean (by decide)⟩, controls_nat total⟩

theorem controls_named {name value : String} (hname : controls name = []) (hvalue : controls value = []) :
    controls (name ++ value) = [] :=
  controls_append_nil.mpr ⟨hname, hvalue⟩

theorem stage_clean (stage : PublicationStage) : controls stage.text = [] := by
  cases stage <;> exact literal_clean (by decide)

theorem status_clean (status : StageStatus) : controls status.text = [] := by
  cases status <;> exact literal_clean (by decide)

theorem controls_root {rootHash : Option String} (hroot : ∀ root ∈ rootHash, isHex root = true) :
    ∀ field ∈ optionalText "root" rootHash, controls field = [] :=
  (controls_optionalText "root" rootHash (literal_clean (by decide))).mpr fun root h => isHex_clean (hroot root h)

theorem reasonText_clean (reason : RejectReason) : controls (reasonText reason) = [] := by
  rcases reason with _ | code | _ | _ | (_ | reason)
  · decide
  · cases code <;> decide
  · decide
  · decide
  · decide
  · cases reason <;> decide

theorem rejection_clean (event : RawPublication) (reason : RejectReason) :
    controls (entryOf u (onReject event reason)).message = [] ∧
        (∀ field ∈ (entryOf u (onReject event reason)).fields, controls field = []) ↔
      controls event.id = [] := by
  have hmessage : controls (entryOf u (onReject event reason)).message = [] :=
    controls_named (literal_clean (by decide)) (reasonText_clean reason)
  have hfields := controls_optionalText "event" (some event.id) (literal_clean (by decide))
  simp only [Option.mem_some, forall_eq'] at hfields
  have hentry : (entryOf u (onReject event reason)).fields =
      optionalText "event" (some event.id) ++ optionalText "cache" none := rfl
  rw [hentry, optionalText, List.append_nil]
  exact (and_iff_right hmessage).trans hfields

theorem emitted_clean {item : OperationalDiagnostic} (h : Emitted v store item)
    (hrejection : ∀ code id cache, item ≠ .eventRejection code id cache)
    (hmismatch : ∀ configured durable, item ≠ .writableIdentityMismatch configured durable) :
    controls (entryOf u item).message = [] ∧
      ∀ field ∈ (entryOf u item).fields, controls field = [] := by
  cases h with
  | publicationProgress =>
    simp only [entryOf, List.forall_mem_cons]
    exact ⟨literal_clean (by decide), controls_number _ _ (literal_clean (by decide)),
      controls_fraction _ _ _ (literal_clean (by decide)),
      controls_fraction _ _ _ (literal_clean (by decide)), nofun⟩
  | @blobStore code =>
    simp only [entryOf, List.forall_mem_append, List.forall_mem_cons]
    exact ⟨controls_named (literal_clean (by decide)) (by cases code <;> decide),
      ⟨controls_number _ _ (literal_clean (by decide)), controls_number _ _ (literal_clean (by decide)),
        controls_number _ _ (literal_clean (by decide)), nofun⟩,
          controls_optionalNumber _ _ (literal_clean (by decide))⟩
  | @stagingFailure code routeClass =>
    simp only [entryOf, List.forall_mem_cons]
    exact ⟨controls_named (literal_clean (by decide)) (by cases code <;> decide),
      controls_named (literal_clean (by decide)) (by cases routeClass <;> decide),
        controls_number _ _ (literal_clean (by decide)), nofun⟩
  | batchBuildFailure =>
    simp only [entryOf, List.forall_mem_cons]
    exact ⟨literal_clean (by decide), controls_number _ _ (literal_clean (by decide)),
      controls_number _ _ (literal_clean (by decide)), nofun⟩
  | @publicationWindow trigger =>
    simp only [entryOf, List.forall_mem_cons]
    exact ⟨literal_clean (by decide),
      controls_named (literal_clean (by decide)) (by cases trigger <;> decide),
      controls_number _ _ (literal_clean (by decide)), controls_number _ _ (literal_clean (by decide)),
        controls_number _ _ (literal_clean (by decide)),
      nofun⟩
  | eventRejection => exact absurd rfl (hrejection _ _ _)
  | @mergeConflict _ _ _ differingFields hhash hwinner hloser hfields =>
    simp only [entryOf, List.forall_mem_cons]
    exact ⟨literal_clean (by decide),
      controls_named (literal_clean (by decide)) (isStorePathHash_clean hhash),
      controls_named (literal_clean (by decide)) (formatCacheIdentity_clean hwinner),
      controls_named (literal_clean (by decide)) (formatCacheIdentity_clean hloser),
      controls_named (literal_clean (by decide)) ((controls_joined (literal_clean (by decide))).mpr fun field hfield =>
        isCode_clean (hfields field hfield)), nofun⟩
  | @upstreamFailure code endpoint attempt durationMs hcode =>
    simp only [entryOf, List.forall_mem_append]
    refine ⟨controls_named (literal_clean (by decide)) (isCode_clean hcode),
      ⟨(controls_optionalText _ _ (literal_clean (by decide))).mpr fun text htext => ?_,
        controls_optionalNumber _ _ (literal_clean (by decide))⟩, controls_durations _⟩
    obtain ⟨value, -, hvalue⟩ := Option.bind_eq_some_iff.mp htext
    split_ifs at hvalue
    exact safeEndpoint_clean u hvalue
  | @signerTransition code status identifier kind hcode hstatus hidentifier =>
    have hclean : controls identifier = [] := by
      rcases hidentifier with rfl | hvalid
      · decide
      · exact identifier_clean hvalid
    simp only [entryOf]
    refine ⟨controls_named (controls_named (controls_named (literal_clean (by decide)) (isCode_clean hstatus))
      (literal_clean (by decide))) (isCode_clean hcode),
        (controls_optionalText _ _ (literal_clean (by decide))).mpr fun text htext => ?_⟩
    obtain rfl := Option.mem_some.mp htext
    exact controls_named (controls_named (controls_nat kind) (literal_clean (by decide))) hclean
  | @batchTransition code _ _ _ hcode hroot =>
    simp only [entryOf, List.forall_mem_append, List.forall_mem_cons]
    exact ⟨controls_named (literal_clean (by decide)) (isCode_clean hcode),
      ⟨⟨controls_number _ _ (literal_clean (by decide)), nofun⟩,
        controls_optionalNumber _ _ (literal_clean (by decide))⟩,
      controls_root hroot⟩
  | @publicationStage stage status _ _ _ hroot =>
    simp only [entryOf, List.forall_mem_append, List.forall_mem_cons]
    have hlead : controls ("publication " ++ stage.text ++ " " ++ status.text ++ ": ") = [] :=
      controls_named (controls_named (controls_named (controls_named (literal_clean (by decide))
        (stage_clean stage)) (literal_clean (by decide))) (status_clean status)) (literal_clean (by decide))
    exact ⟨controls_named hlead (controls_named (controls_named (stage_clean stage)
        (literal_clean (by decide))) (status_clean status)),
      ⟨controls_number _ _ (literal_clean (by decide)),
        controls_named (literal_clean (by decide)) (isHex_clean hroot), nofun⟩,
      controls_optionalNumber _ _ (literal_clean (by decide))⟩
  | @replicaProgress started _ _ _ _ hroot =>
    simp only [entryOf, List.forall_mem_append, List.forall_mem_cons]
    exact ⟨by cases started <;> decide,
      ⟨controls_endpointField u _, controls_fraction _ _ _ (literal_clean (by decide)), nofun⟩,
        controls_root hroot⟩
  | @replicaAttempt code _ _ _ _ _ ok hcode hroot =>
    simp only [entryOf, List.forall_mem_append, List.forall_mem_cons]
    exact ⟨controls_named (by cases ok <;> decide) (isCode_clean hcode),
      ⟨⟨⟨⟨controls_endpointField u _, controls_number _ _ (literal_clean (by decide)), nofun⟩, nofun⟩,
        controls_root hroot⟩, controls_optionalNumber _ _ (literal_clean (by decide))⟩,
          controls_milliseconds _, nofun⟩
  | @relayAcknowledgement code eventId _ _ _ ok hcode hevent =>
    simp only [entryOf, List.forall_mem_append, List.forall_mem_cons]
    exact ⟨controls_named (by cases ok <;> decide) (isCode_clean hcode),
      ⟨⟨controls_endpointField u _, controls_number _ _ (literal_clean (by decide)), nofun⟩,
        (controls_optionalText _ _ (literal_clean (by decide))).mpr fun id hid => isEventId_clean (hevent id hid)⟩,
      controls_durations _⟩
  | promotion hevent hroot =>
    simp only [entryOf, List.forall_mem_cons]
    exact ⟨literal_clean (by decide), controls_number _ _ (literal_clean (by decide)),
      controls_named (literal_clean (by decide)) (isEventId_clean hevent),
      controls_named (literal_clean (by decide)) (isHex_clean hroot), nofun⟩
  | httpRequest hmethod =>
    simp only [entryOf, List.forall_mem_cons]
    exact ⟨controls_named (controls_named (controls_named (controls_named (isMethod_clean hmethod)
      (literal_clean (by decide))) (safePath_clean _)) (literal_clean (by decide))) (controls_nat _),
        controls_milliseconds _, nofun⟩
  | @writeTransition status =>
    exact ⟨controls_named (controls_named (controls_named (literal_clean (by decide)) (by cases status <;> decide))
      (literal_clean (by decide))) (by cases status <;> decide), nofun⟩
  | writableIdentityMismatch => exact absurd rfl (hmismatch _ _)
  | blossomServerList =>
    simp only [entryOf, List.forall_mem_append, List.forall_mem_cons]
    exact ⟨literal_clean (by decide), ⟨controls_number _ _ (literal_clean (by decide)), nofun⟩,
      controls_endpointsField u _⟩
  | @writeRelayList found =>
    simp only [entryOf, List.forall_mem_append, List.forall_mem_cons]
    exact ⟨by cases found <;> decide, ⟨controls_number _ _ (literal_clean (by decide)),
      controls_number _ _ (literal_clean (by decide)),
      controls_number _ _ (literal_clean (by decide)), nofun⟩, controls_endpointsField u _⟩
  | @cacheSelection found count caches htreeLinks =>
    simp only [entryOf, List.forall_mem_append, List.forall_mem_cons]
    refine ⟨by cases found <;> decide, ⟨⟨controls_number _ _ (literal_clean (by decide)), nofun⟩, ?_⟩, ?_⟩
    · split_ifs
      · exact nofun
      · intro field hfield
        obtain rfl := List.mem_singleton.mp hfield
        refine controls_named (literal_clean (by decide)) ((controls_joined (literal_clean (by decide))).mpr fun text htext => ?_)
        obtain ⟨cache, -, rfl⟩ := List.mem_map.mp htext
        exact safeIdentity_clean cache
    · split_ifs
      · exact nofun
      · intro field hfield
        obtain rfl := List.mem_singleton.mp hfield
        refine controls_named (literal_clean (by decide)) ((controls_joined (literal_clean (by decide))).mpr fun text htext => ?_)
        obtain ⟨link, -, rfl⟩ := List.mem_map.mp htext
        exact safeHtreeLink_clean link
  | @hashtreeNar head _ _ _ _ route hroot hevent =>
    simp only [entryOf, List.forall_mem_cons]
    exact ⟨literal_clean (by decide), by cases head <;> decide,
      controls_named (literal_clean (by decide)) (safePath_clean _),
      controls_named (literal_clean (by decide)) (safeIdentity_clean _),
        controls_named (literal_clean (by decide)) (isHex_clean hroot),
      controls_named (literal_clean (by decide)) (isEventId_clean hevent), by cases route <;> decide,
        nofun⟩

/-- A diagnostic stays one entry exactly if it is not about a rejected event whose id breaks the line. -/
theorem diagnostic_contained (u : UrlParser) {item : OperationalDiagnostic} (h : Emitted v store item)
    (htimestamp : controls timestamp = []) :
    controls (formatOperationalDiagnostic u item timestamp) = ownControls item ↔
      ∀ code id cache, item = .eventRejection code (some id) cache → controls id = [] := by
  by_cases hrejection : ∀ code id cache, item ≠ .eventRejection code id cache
  · refine iff_of_true ?_ fun code id cache heq => absurd heq (hrejection _ _ _)
    by_cases hmismatch : ∀ configured durable, item ≠ .writableIdentityMismatch configured durable
    · have hown : ownControls item = [] := by
        cases item with
        | writableIdentityMismatch configured durable => exact absurd rfl (hmismatch _ _)
        | _ => rfl
      rw [hown, formatOperationalDiagnostic, line_clean htimestamp (level_clean item)]
      exact emitted_clean h hrejection hmismatch
    · push Not at hmismatch
      obtain ⟨configured, durable, rfl⟩ := hmismatch
      rw [formatOperationalDiagnostic, line_controls htimestamp (level_clean _) (by simp [entryOf])]
      exact controls_lines (ownerMismatch_lines _ _)
  · push Not at hrejection
    obtain ⟨code, id, cache, rfl⟩ := hrejection
    generalize hitem : OperationalDiagnostic.eventRejection code id cache = item at h
    cases h with
    | @eventRejection _ _ event _ _ reason =>
      have hown : ownControls (onReject event reason) = [] := rfl
      rw [hown, formatOperationalDiagnostic, line_clean htimestamp (level_clean _), rejection_clean]
      refine ⟨fun hid code id cache heq => ?_, fun hall => hall _ _ _ rfl⟩
      cases heq
      exact hid
    | _ => cases hitem

end Entries

section Instances

def noUrls : UrlParser where
  parse _ := none
  href_clean _ _ h := nomatch h

/-- An event that was not signed, under any id. -/
def unsignedEvent (id : String) : RawPublication :=
  { Selector.samplePublication 'd' 90 [] with id }

theorem unsigned_rejected {id : String}
    (hunsigned : unsignedEvent id ∉ Selector.samplePublications) :
    Selector.accept Selector.sampleValidator Selector.sampleStore (Selector.sampleRun []) (unsignedEvent id)
      true true = (.rejected (.invalid .invalidEvent), Selector.sampleRun []) := by
  have hverify : Selector.sampleValidator.verifyEvent (unsignedEvent id) = some false :=
    congrArg some (decide_eq_false hunsigned)
  have hnow : (Selector.sampleRun []).now = 100 := by decide
  have hchecked : checkEvent Selector.sampleValidator (unsignedEvent id) 100 =
      .error ⟨.invalidEvent, "NIP-01 id or signature verification failed"⟩ := by
    unfold checkEvent
    rw [hverify]
    rfl
  have hinvalid : validatePublication Selector.sampleValidator (unsignedEvent id) 100 =
      .error ⟨.invalidEvent, "NIP-01 id or signature verification failed"⟩ := by
    unfold validatePublication
    rw [hchecked]
    rfl
  have hkind : (unsignedEvent id).kind ≠ 10063 := by
    change (17091 : ℕ) ≠ 10063
    decide
  unfold Selector.accept
  rw [if_neg hkind, hnow, hinvalid]

theorem diagnostic_contained_sample :
    controls (formatOperationalDiagnostic noUrls (onReject (unsignedEvent "d0") (.invalid .invalidEvent))
      "2026-01-01T00:00:00.000Z") = [] :=
  (diagnostic_contained noUrls (.eventRejection (unsigned_rejected (by decide))) (by decide)).mpr
    fun code id cache heq => by
      cases heq
      decide

/-- The id of an event that was never verified writes a second entry. -/
theorem diagnostic_forged : ∃ event s t,
    Selector.accept Selector.sampleValidator Selector.sampleStore s event true true =
        (.rejected (.invalid .invalidEvent), t) ∧
      formatOperationalDiagnostic noUrls (onReject event (.invalid .invalidEvent)) "2026-01-01T00:00:00.000Z" =
        "2026-01-01T00:00:00.000Z WARN  Nostr event rejected: invalid-event event=x\n" ++
          "2026-01-01T00:00:00.000Z INFO  cache publication promoted" :=
  ⟨unsignedEvent "x\n2026-01-01T00:00:00.000Z INFO  cache publication promoted", _, _,
    unsigned_rejected (by decide), by decide⟩

end Instances

end NixstrCache.Operations
