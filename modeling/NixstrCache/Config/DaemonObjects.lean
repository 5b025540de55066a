import Mathlib.Tactic.NormNum
import NixstrCache.Config.PublicationConfig

/-!
The objects that the daemon makes from its configuration.

The limits and the sizes of the staging area are checked when the configuration is read.  Every object
checks its own arguments once more when it is made, by rules that are written apart from the first ones.
-/

namespace NixstrCache.Config

open Protocol

section Values

/-- A value of the type `number`. -/
inductive Number where
  | nan
  | infinite (negative : Bool)
  | finite (value : ℚ)
deriving DecidableEq

/-- The integer behind `Number.isSafeInteger`. -/
def Number.safe? : Number → Option ℤ
  | .finite value => if value.den = 1 ∧ isSafeInteger value.num then some value.num else none
  | _ => none

/-- `<` between finite numbers. -/
def Number.below : Number → Number → Bool
  | .finite a, .finite b => a < b
  | _, _ => false

inductive RawValue where
  | text (value : String)
  | number (value : Number)
  | flag (value : Bool)
  | other
deriving DecidableEq

structure Conversions where
  number : String → Number
  string : Number → String

end Values

section Limits

inductive Limit where
  | manifestWireBytes
  | decodedMetadataBytes
  | blobTransferBytes
  | requestTransferBytes
  | requestOutputBytes
  | traversalDepth
  | linksPerNode
  | uniqueManifestNodes
  | totalDecodedManifestBytes
  | sourceAttempts
  | maxRedirects
  | connectTimeoutMs
  | idleTimeoutMs
  | totalTimeoutMs
  | concurrentFetches
  | manifestCacheEntries
  | manifestCacheBytes
deriving DecidableEq, Repr

def Limit.all : List Limit :=
  [.manifestWireBytes, .decodedMetadataBytes, .blobTransferBytes, .requestTransferBytes,
    .requestOutputBytes, .traversalDepth, .linksPerNode, .uniqueManifestNodes,
    .totalDecodedManifestBytes, .sourceAttempts, .maxRedirects, .connectTimeoutMs, .idleTimeoutMs,
    .totalTimeoutMs, .concurrentFetches, .manifestCacheEntries, .manifestCacheBytes]

def Limit.name : Limit → String
  | .manifestWireBytes => "manifestWireBytes"
  | .decodedMetadataBytes => "decodedMetadataBytes"
  | .blobTransferBytes => "blobTransferBytes"
  | .requestTransferBytes => "requestTransferBytes"
  | .requestOutputBytes => "requestOutputBytes"
  | .traversalDepth => "traversalDepth"
  | .linksPerNode => "linksPerNode"
  | .uniqueManifestNodes => "uniqueManifestNodes"
  | .totalDecodedManifestBytes => "totalDecodedManifestBytes"
  | .sourceAttempts => "sourceAttempts"
  | .maxRedirects => "maxRedirects"
  | .connectTimeoutMs => "connectTimeoutMs"
  | .idleTimeoutMs => "idleTimeoutMs"
  | .totalTimeoutMs => "totalTimeoutMs"
  | .concurrentFetches => "concurrentFetches"
  | .manifestCacheEntries => "manifestCacheEntries"
  | .manifestCacheBytes => "manifestCacheBytes"

structure LimitSpec where
  defaultValue : ℤ
  ceiling : ℤ
deriving DecidableEq, Repr

/-- `LIMIT_SPECS`. -/
def Limit.spec : Limit → LimitSpec
  | .manifestWireBytes => ⟨4 * 1024 * 1024, 32 * 1024 * 1024⟩
  | .decodedMetadataBytes => ⟨1024 * 1024, 8 * 1024 * 1024⟩
  | .blobTransferBytes => ⟨256 * 1024 * 1024, 4 * 1024 * 1024 * 1024⟩
  | .requestTransferBytes => ⟨1024 * 1024 * 1024, 8 * 1024 * 1024 * 1024⟩
  | .requestOutputBytes => ⟨1024 * 1024 * 1024, 8 * 1024 * 1024 * 1024⟩
  | .traversalDepth => ⟨32, 128⟩
  | .linksPerNode => ⟨174, 1024⟩
  | .uniqueManifestNodes => ⟨2048, 16384⟩
  | .totalDecodedManifestBytes => ⟨64 * 1024 * 1024, 512 * 1024 * 1024⟩
  | .sourceAttempts => ⟨10, 32⟩
  | .maxRedirects => ⟨3, 8⟩
  | .connectTimeoutMs => ⟨5000, 30000⟩
  | .idleTimeoutMs => ⟨30000, 300000⟩
  | .totalTimeoutMs => ⟨300000, 1800000⟩
  | .concurrentFetches => ⟨8, 64⟩
  | .manifestCacheEntries => ⟨1024, 16384⟩
  | .manifestCacheBytes => ⟨64 * 1024 * 1024, 512 * 1024 * 1024⟩

theorem Limit.default_accepted (limit : Limit) : isSafeInteger limit.spec.defaultValue = true ∧
    0 < limit.spec.defaultValue ∧ limit.spec.defaultValue ≤ limit.spec.ceiling := by
  cases limit <;> decide

/-- `limits` in the raw configuration: a plain object, or something else. -/
inductive RawLimits where
  | absent
  | object (value : Limit → Option RawValue)
  | other

structure RawStaging where
  bodyBytes : Option RawValue
  aggregateBytes : Option RawValue

structure RawWritable where
  enabled : Option RawValue
  staging : Option RawStaging

structure RawConfig where
  limits : RawLimits
  writable : Option RawWritable

variable (js : Conversions)

/-- The text of a limit after `normalizeRawConfig`. -/
def normalizeLimit (limit : Limit) : Option RawValue → Option String × List ConfigDiagnostic
  | none => (none, [])
  | some (.text value) => (some value, [])
  | some (.number value) => (some (js.string value), [])
  | some _ => (none, [⟨"limits." ++ limit.name, "invalid", "limits." ++ limit.name ++ " must be a number"⟩])

def normalizeLimits : RawLimits → (Limit → Option String) × List ConfigDiagnostic
  | .absent => (fun _ => none, [])
  | .object value =>
    (fun limit => (normalizeLimit js limit (value limit)).1,
      Limit.all.flatMap fun limit => (normalizeLimit js limit (value limit)).2)
  | .other => (fun _ => none, [⟨"limits", "invalid", "limits must be an object"⟩])

def limitValue (supplied : Limit → Option String) (limit : Limit) : Number :=
  match supplied limit with
  | none => .finite limit.spec.defaultValue
  | some text => js.number text

def limitDiagnostics (limit : Limit) (value : Number) : List ConfigDiagnostic :=
  if value.safe?.any fun n => 0 < n ∧ n ≤ limit.spec.ceiling then []
  else [⟨"limits." ++ limit.name, "out_of_range",
    limit.name ++ " must be a positive integer no greater than " ++ toString limit.spec.ceiling⟩]

def timeoutDiagnostics (value : Limit → Number) : List ConfigDiagnostic :=
  if (value .totalTimeoutMs).below (value .connectTimeoutMs) then
    [⟨"limits.totalTimeoutMs", "out_of_range", "totalTimeoutMs must be at least connectTimeoutMs"⟩]
  else []

def parseLimits (raw : RawLimits) : (Limit → Number) × List ConfigDiagnostic :=
  let supplied := normalizeLimits js raw
  let value := limitValue js supplied.1
  (value, supplied.2 ++ (Limit.all.flatMap fun limit => limitDiagnostics limit (value limit)) ++
    timeoutDiagnostics value)

end Limits

section Staging

variable (js : Conversions)

/-- `String(value)` of a number or a text. -/
def stringNumber : RawValue → String
  | .text value => value
  | .number value => js.string value
  | .flag value => toString value
  | .other => "[object Object]"

def parsePositiveBytes (value : Option String) (field : String) (fallback : ℤ) :
    ℤ × List ConfigDiagnostic :=
  let parsed := match value with
    | none => some fallback
    | some text => (js.number text).safe?
  match parsed.filter fun n => 0 < n with
  | some n => (n, [])
  | none => (fallback, [⟨field, "out_of_range", field ++ " must be a positive safe integer"⟩])

def RawWritable.isEnabled (writable : RawWritable) : Bool :=
  writable.enabled = some (.flag true) ∨ writable.enabled = some (.text "true")

def enabledDiagnostics (writable : RawWritable) : List ConfigDiagnostic :=
  if writable.enabled.all fun value =>
      value ∈ [RawValue.flag true, .flag false, .text "true", .text "false"] then []
  else [⟨"writable.enabled", "invalid", "writable.enabled must be a boolean"⟩]

structure Staging where
  bodyBytes : ℤ
  aggregateBytes : ℤ
deriving DecidableEq, Repr

def parseStaging (staging : Option RawStaging) : Staging × List ConfigDiagnostic :=
  let bodyBytes := parsePositiveBytes js ((staging.bind RawStaging.bodyBytes).map (stringNumber js))
    "writable.staging.bodyBytes" (1024 * 1024 * 1024)
  let aggregateBytes :=
    parsePositiveBytes js ((staging.bind RawStaging.aggregateBytes).map (stringNumber js))
      "writable.staging.aggregateBytes" (8 * 1024 * 1024 * 1024)
  (⟨bodyBytes.1, aggregateBytes.1⟩, bodyBytes.2 ++ aggregateBytes.2 ++
    if aggregateBytes.1 < bodyBytes.1 then
      [⟨"writable.staging.aggregateBytes", "out_of_range",
        "stagingAggregateBytes must be at least stagingBodyBytes"⟩]
    else [])

end Staging

structure ValidatedConfig where
  limits : Limit → ℤ
  /-- The staging area of an enabled `writable`. -/
  writable : Option Staging

/-- `parseConfig`, where `elsewhere` is what the checks of the other fields report. -/
def parseConfig (js : Conversions) (elsewhere : List ConfigDiagnostic) (raw : RawConfig) :
    Except (List ConfigDiagnostic) ValidatedConfig :=
  let limits := parseLimits js raw.limits
  let enabled := raw.writable.any RawWritable.isEnabled
  let staging := parseStaging js (if enabled then raw.writable.bind RawWritable.staging else none)
  match elsewhere ++ (raw.writable.map enabledDiagnostics).getD [] ++ staging.2 ++ limits.2 with
  | [] => .ok ⟨fun limit => ((limits.1 limit).safe?).getD 0, if enabled then some staging.1 else none⟩
  | diagnostics => .error diagnostics

section Objects

/-- `TraversalLimits`. -/
structure BudgetLimits where
  maxDepth : ℤ
  maxLinks : ℤ
  maxUniqueNodes : ℤ
  maxDecodedBytes : ℤ
  maxAttempts : ℤ
  maxRedirects : ℤ
  maxConcurrent : ℤ
  maxBlobTransferBytes : ℤ
  maxTransferredBytes : ℤ
  maxOutputBytes : ℤ
  deadline : ℤ
deriving DecidableEq, Repr

def BudgetLimits.entries (limits : BudgetLimits) : List (String × ℤ) :=
  [("maxDepth", limits.maxDepth), ("maxLinks", limits.maxLinks),
    ("maxUniqueNodes", limits.maxUniqueNodes), ("maxDecodedBytes", limits.maxDecodedBytes),
    ("maxAttempts", limits.maxAttempts), ("maxRedirects", limits.maxRedirects),
    ("maxConcurrent", limits.maxConcurrent), ("maxBlobTransferBytes", limits.maxBlobTransferBytes),
    ("maxTransferredBytes", limits.maxTransferredBytes), ("maxOutputBytes", limits.maxOutputBytes),
    ("deadline", limits.deadline)]

/-- A loop over entries that stops at the first one that is not a positive safe integer. -/
def checkPositive (message : String) : List (String × ℤ) → Except String Unit
  | [] => .ok ()
  | (name, value) :: rest =>
    if isSafeInteger value = false ∨ value ≤ 0 then .error (name ++ message)
    else checkPositive message rest

/-- `new RequestBudget`. -/
def newRequestBudget (limits : BudgetLimits) : Except String Unit :=
  checkPositive " must be a positive integer" limits.entries

/-- `new VerifiedManifestCache`. -/
def newVerifiedManifestCache (maxEntries maxDecodedBytes : ℤ) : Except String Unit :=
  checkPositive " must be a positive safe integer"
    [("maxEntries", maxEntries), ("maxDecodedBytes", maxDecodedBytes)]

/-- `new WinnerRouteRegistry`. -/
def newWinnerRouteRegistry (maxEntries ttlMs : ℤ) : Except String Unit :=
  checkPositive " must be a positive integer" [("maxEntries", maxEntries), ("ttlMs", ttlMs)]

/-- `new SignerRouteRegistry`, which checks nothing. -/
def newSignerRouteRegistry (_maxEntries _ttlMs : ℤ) : Except String Unit :=
  .ok ()

structure SafeFetcherLimits where
  maxRedirects : ℤ
  connectTimeoutMs : ℤ
  idleTimeoutMs : Option ℤ
  totalTimeoutMs : ℤ
deriving DecidableEq, Repr

/-- `new SafeFetcher`. -/
def newSafeFetcher (limits : SafeFetcherLimits) : Except String Unit :=
  if limits.maxRedirects < 0 ∨ 8 < limits.maxRedirects then
    .error "maxRedirects must be between 0 and 8"
  else if limits.connectTimeoutMs ≤ 0 ∨ limits.totalTimeoutMs < limits.connectTimeoutMs ∨
      limits.idleTimeoutMs.any (· ≤ 0) then .error "invalid request deadlines"
  else .ok ()

structure WriterLimits where
  maxLinks : ℤ
  maxInventoryBlobs : ℤ
  maxInventoryBytes : ℤ
deriving DecidableEq, Repr

/-- `new HashtreeWriter`. -/
def newHashtreeWriter (limits : WriterLimits) : Except String Unit :=
  if limits.maxLinks < 2 then .error "maxLinks must be at least two" else .ok ()

namespace ValidatedConfig

variable (config : ValidatedConfig) (now : ℤ)

/-- `budgetFor`. -/
def readBudget : BudgetLimits where
  maxDepth := config.limits .traversalDepth
  maxLinks := config.limits .linksPerNode * config.limits .uniqueManifestNodes
  maxUniqueNodes := config.limits .uniqueManifestNodes
  maxDecodedBytes := config.limits .totalDecodedManifestBytes
  maxAttempts := config.limits .sourceAttempts
  maxRedirects := config.limits .maxRedirects
  maxConcurrent := config.limits .concurrentFetches
  maxBlobTransferBytes := config.limits .blobTransferBytes
  maxTransferredBytes := config.limits .requestTransferBytes
  maxOutputBytes := config.limits .requestOutputBytes
  deadline := now + config.limits .totalTimeoutMs

def materializeBudget (staging : Staging) : BudgetLimits where
  maxDepth := config.limits .traversalDepth
  maxLinks := config.limits .linksPerNode * config.limits .uniqueManifestNodes
  maxUniqueNodes := config.limits .uniqueManifestNodes
  maxDecodedBytes := config.limits .totalDecodedManifestBytes
  maxAttempts := config.limits .sourceAttempts * config.limits .uniqueManifestNodes
  maxRedirects := config.limits .maxRedirects
  maxConcurrent := config.limits .concurrentFetches
  maxBlobTransferBytes := config.limits .blobTransferBytes
  maxTransferredBytes := staging.aggregateBytes
  maxOutputBytes := staging.aggregateBytes
  deadline := now + config.limits .totalTimeoutMs

def writerLimits (staging : Staging) : WriterLimits where
  maxLinks := config.limits .linksPerNode
  maxInventoryBlobs := config.limits .uniqueManifestNodes + config.limits .linksPerNode
  maxInventoryBytes := staging.aggregateBytes

def fetcherLimits : SafeFetcherLimits where
  maxRedirects := config.limits .maxRedirects
  connectTimeoutMs := config.limits .connectTimeoutMs
  idleTimeoutMs := some (config.limits .idleTimeoutMs)
  totalTimeoutMs := config.limits .totalTimeoutMs

def startReading : Except String Unit := do
  newSafeFetcher config.fetcherLimits
  newVerifiedManifestCache (config.limits .manifestCacheEntries) (config.limits .manifestCacheBytes)
  newRequestBudget (config.readBudget now)
  newWinnerRouteRegistry 4096 (5 * 60000)
  newSignerRouteRegistry 1024 (5 * 60000)

def activateWriting (staging : Staging) : Except String Unit := do
  newHashtreeWriter (config.writerLimits staging)
  newRequestBudget (config.materializeBudget now staging)

/-- Every object that the daemon makes. -/
def makeObjects : Except String Unit := do
  config.startReading now
  match config.writable with
  | none => .ok ()
  | some staging => config.activateWriting now staging

end ValidatedConfig

end Objects

section Accepted

variable {js : Conversions} {elsewhere : List ConfigDiagnostic} {raw : RawConfig}
  {config : ValidatedConfig} {now : ℤ}

theorem safe?_eq_some {value : Number} {n : ℤ} :
    value.safe? = some n ↔ value = .finite n ∧ isSafeInteger n = true := by
  cases value with
  | nan => simp [Number.safe?]
  | infinite negative => simp [Number.safe?]
  | finite q =>
    rw [Number.safe?]
    constructor
    · intro h
      split_ifs at h with hq
      obtain rfl := Option.some.inj h
      exact ⟨congrArg Number.finite (Rat.coe_int_num_of_den_eq_one hq.1).symm, hq.2⟩
    · rintro ⟨hq, hn⟩
      obtain rfl := Number.finite.inj hq
      simp [hn]

theorem limitDiagnostics_eq_nil {limit : Limit} {value : Number} :
    limitDiagnostics limit value = [] ↔
      ∃ n, value.safe? = some n ∧ 0 < n ∧ n ≤ limit.spec.ceiling := by
  rw [limitDiagnostics]
  cases value.safe? with
  | none => simp
  | some n => simp

theorem parsePositiveBytes_eq_nil {value : Option String} {field : String} {fallback : ℤ}
    (hfallback : isSafeInteger fallback = true)
    (h : (parsePositiveBytes js value field fallback).2 = []) :
    0 < (parsePositiveBytes js value field fallback).1 ∧
      isSafeInteger (parsePositiveBytes js value field fallback).1 = true := by
  unfold parsePositiveBytes at h ⊢
  dsimp only at h ⊢
  split at h
  · next n hn =>
    obtain ⟨hparsed, hpositive⟩ := Option.filter_eq_some_iff.mp hn
    refine ⟨by simpa using hpositive, ?_⟩
    cases value with
    | none => exact Option.some.inj hparsed ▸ hfallback
    | some text => exact (safe?_eq_some.mp hparsed).2
  · cases h

structure ValidatedConfig.Accepted (config : ValidatedConfig) : Prop where
  limits : ∀ limit, 0 < config.limits limit ∧ config.limits limit ≤ limit.spec.ceiling
  timeouts : config.limits .connectTimeoutMs ≤ config.limits .totalTimeoutMs
  staging : ∀ staging, config.writable = some staging →
    0 < staging.aggregateBytes ∧ isSafeInteger staging.aggregateBytes = true

theorem parseConfig_accepted (h : parseConfig js elsewhere raw = .ok config) : config.Accepted := by
  unfold parseConfig at h
  dsimp only at h
  split at h
  · next hnil =>
    cases h
    rw [List.append_eq_nil_iff, List.append_eq_nil_iff] at hnil
    obtain ⟨⟨-, hstaging⟩, hlimits⟩ := hnil
    rw [parseLimits, List.append_eq_nil_iff, List.append_eq_nil_iff] at hlimits
    obtain ⟨⟨-, hvalues⟩, htimeouts⟩ := hlimits
    have hsafe : ∀ limit, ∃ n, (limitValue js (normalizeLimits js raw.limits).1 limit).safe? = some n ∧
        0 < n ∧ n ≤ limit.spec.ceiling := by
      intro limit
      have hall : limit ∈ Limit.all := by cases limit <;> decide
      exact limitDiagnostics_eq_nil.mp (List.flatMap_eq_nil_iff.mp hvalues limit hall)
    refine ⟨fun limit => ?_, ?_, fun staging hsome => ?_⟩
    · obtain ⟨n, hn, hbounds⟩ := hsafe limit
      change 0 < ((limitValue js (normalizeLimits js raw.limits).1 limit).safe?).getD 0 ∧
        ((limitValue js (normalizeLimits js raw.limits).1 limit).safe?).getD 0 ≤ limit.spec.ceiling
      rw [hn]
      exact hbounds
    · obtain ⟨total, htotal, -⟩ := hsafe .totalTimeoutMs
      obtain ⟨connect, hconnect, -⟩ := hsafe .connectTimeoutMs
      rw [timeoutDiagnostics, (safe?_eq_some.mp htotal).1, (safe?_eq_some.mp hconnect).1] at htimeouts
      have hnot : ¬(total : ℚ) < connect := by simpa [Number.below] using htimeouts
      change ((limitValue js (normalizeLimits js raw.limits).1 .connectTimeoutMs).safe?).getD 0 ≤
        ((limitValue js (normalizeLimits js raw.limits).1 .totalTimeoutMs).safe?).getD 0
      rw [hconnect, htotal]
      exact_mod_cast not_lt.mp hnot
    · dsimp only at hsome
      split_ifs at hsome with henabled
      obtain rfl := Option.some.inj hsome
      rw [if_pos henabled, parseStaging, List.append_eq_nil_iff, List.append_eq_nil_iff] at hstaging
      exact parsePositiveBytes_eq_nil (by decide) hstaging.1.2
  · cases h

theorem checkPositive_ok {message : String} {entries : List (String × ℤ)} :
    checkPositive message entries = .ok () ↔
      ∀ entry ∈ entries, isSafeInteger entry.2 = true ∧ 0 < entry.2 := by
  induction entries with
  | nil => simp [checkPositive]
  | cons entry rest ih =>
    obtain ⟨name, value⟩ := entry
    rw [checkPositive, List.forall_mem_cons, ← ih]
    split_ifs with hbad
    · simp only [false_iff]
      rintro ⟨⟨hsafe, hpositive⟩, -⟩
      rcases hbad with hbad | hbad
      · rw [hsafe] at hbad
        cases hbad
      · omega
    · rw [not_or, Bool.not_eq_false, not_le] at hbad
      simp [hbad]

theorem safe_of_le {n bound : ℤ} (hpositive : 0 < n) (hn : n ≤ bound)
    (hbound : bound ≤ 9007199254740991) : isSafeInteger n = true := by
  rw [isSafeInteger, decide_eq_true_eq]
  omega

theorem product_safe {a b : ℤ} (ha : 0 < a ∧ a ≤ 1024) (hb : 0 < b ∧ b ≤ 16384) :
    isSafeInteger (a * b) = true ∧ 0 < a * b := by
  have hpositive : 0 < a * b := mul_pos ha.1 hb.1
  have hle : a * b ≤ 1024 * 16384 := mul_le_mul ha.2 hb.2 hb.1.le (by norm_num)
  exact ⟨safe_of_le hpositive hle (by norm_num), hpositive⟩

theorem ValidatedConfig.Accepted.positive (h : config.Accepted) (limit : Limit) :
    isSafeInteger (config.limits limit) = true ∧ 0 < config.limits limit :=
  ⟨safe_of_le (h.limits limit).1 (h.limits limit).2 (by cases limit <;> decide), (h.limits limit).1⟩

theorem deadline_positive (h : config.Accepted) (hnow : 0 ≤ now ∧ now ≤ 8640000000000000) :
    isSafeInteger (now + config.limits .totalTimeoutMs) = true ∧
      0 < now + config.limits .totalTimeoutMs := by
  obtain ⟨hpositive, hceiling⟩ := h.limits .totalTimeoutMs
  have hdeadline : 0 < now + config.limits .totalTimeoutMs := by omega
  have hbound : now + config.limits .totalTimeoutMs ≤ 8640000000000000 + 1800000 :=
    add_le_add hnow.2 hceiling
  exact ⟨safe_of_le hdeadline hbound (by norm_num), hdeadline⟩

theorem readBudget_accepted (h : config.Accepted) (hnow : 0 ≤ now ∧ now ≤ 8640000000000000) :
    newRequestBudget (config.readBudget now) = .ok () := by
  have hlinks := product_safe (h.limits .linksPerNode) (h.limits .uniqueManifestNodes)
  rw [newRequestBudget, checkPositive_ok]
  simp only [BudgetLimits.entries, ValidatedConfig.readBudget, List.forall_mem_cons]
  exact ⟨h.positive _, hlinks, h.positive _, h.positive _, h.positive _, h.positive _, h.positive _,
    h.positive _, h.positive _, h.positive _, deadline_positive h hnow, by simp⟩

theorem materializeBudget_accepted (h : config.Accepted) (hnow : 0 ≤ now ∧ now ≤ 8640000000000000)
    {staging : Staging} (hstaging : config.writable = some staging) :
    newRequestBudget (config.materializeBudget now staging) = .ok () := by
  have hlinks := product_safe (h.limits .linksPerNode) (h.limits .uniqueManifestNodes)
  have hattempts : isSafeInteger (config.limits .sourceAttempts * config.limits .uniqueManifestNodes) =
      true ∧ 0 < config.limits .sourceAttempts * config.limits .uniqueManifestNodes := by
    have hceiling : config.limits .sourceAttempts ≤ 32 := (h.limits .sourceAttempts).2
    exact product_safe ⟨(h.limits .sourceAttempts).1, by omega⟩ (h.limits .uniqueManifestNodes)
  have hbytes := (h.staging staging hstaging).symm
  rw [newRequestBudget, checkPositive_ok]
  simp only [BudgetLimits.entries, ValidatedConfig.materializeBudget, List.forall_mem_cons]
  exact ⟨h.positive _, hlinks, h.positive _, h.positive _, hattempts, h.positive _, h.positive _,
    h.positive _, hbytes, hbytes, deadline_positive h hnow, by simp⟩

theorem safeFetcher_accepted (h : config.Accepted) : newSafeFetcher config.fetcherLimits = .ok () := by
  have hredirects := h.limits .maxRedirects
  have hceiling : config.limits .maxRedirects ≤ 8 := hredirects.2
  have hconnect := (h.limits .connectTimeoutMs).1
  have hidle := (h.limits .idleTimeoutMs).1
  have htimeouts := h.timeouts
  rw [newSafeFetcher, if_neg, if_neg]
  · simp only [ValidatedConfig.fetcherLimits, Option.any_some, decide_eq_true_eq]
    omega
  · simp only [ValidatedConfig.fetcherLimits]
    omega

theorem startReading_accepted (h : config.Accepted) (hnow : 0 ≤ now ∧ now ≤ 8640000000000000) :
    config.startReading now = .ok () := by
  have hcache : newVerifiedManifestCache (config.limits .manifestCacheEntries)
      (config.limits .manifestCacheBytes) = .ok () := by
    rw [newVerifiedManifestCache, checkPositive_ok]
    simp only [List.forall_mem_cons]
    exact ⟨h.positive _, h.positive _, by simp⟩
  rw [ValidatedConfig.startReading, safeFetcher_accepted h, hcache, readBudget_accepted h hnow]
  decide

/-- An accepted configuration can be run exactly when its writer may put two links in a node. -/
theorem accepted_config_runs (h : parseConfig js elsewhere raw = .ok config)
    (hnow : 0 ≤ now ∧ now ≤ 8640000000000000) :
    config.makeObjects now = .ok () ↔ (config.writable.isSome = true → 2 ≤ config.limits .linksPerNode) := by
  have haccepted := parseConfig_accepted h
  rw [ValidatedConfig.makeObjects, startReading_accepted haccepted hnow]
  cases hwritable : config.writable with
  | none => exact iff_of_true rfl nofun
  | some staging =>
    have hbudget := materializeBudget_accepted haccepted hnow hwritable
    change config.activateWriting now staging = .ok () ↔ _
    have hwriter : newHashtreeWriter (config.writerLimits staging) =
        if config.limits .linksPerNode < 2 then .error "maxLinks must be at least two" else .ok () := rfl
    rw [ValidatedConfig.activateWriting, hbudget, hwriter]
    by_cases hlinks : config.limits .linksPerNode < 2
    · have hnot : ¬2 ≤ config.limits .linksPerNode := by omega
      rw [if_pos hlinks]
      exact iff_of_false nofun fun hall => hnot (hall rfl)
    · rw [if_neg hlinks]
      exact iff_of_true rfl fun _ => not_lt.mp hlinks

end Accepted

section Instances

/-- The language on the texts that are used below. -/
def smallConversions : Conversions where
  number text := if text = "1" then .finite 1 else if text = "2" then .finite 2 else .nan
  string _ := "NaN"

/-- Writing with the default sizes, and a text for `linksPerNode`. -/
def writableConfig (linksPerNode : String) : RawConfig where
  limits := .object fun limit => if limit = .linksPerNode then some (.text linksPerNode) else none
  writable := some ⟨some (.flag true), none⟩

theorem accepted_config_runs_sample : ∃ config,
    parseConfig smallConversions [] (writableConfig "2") = .ok config ∧ config.writable.isSome = true ∧
      config.makeObjects 1700000000000 = .ok () := by
  have hchecks : (parseConfig smallConversions [] (writableConfig "2")).toOption.any (fun config =>
      config.writable.isSome && decide (2 ≤ config.limits .linksPerNode)) = true := by
    decide +kernel
  cases h : parseConfig smallConversions [] (writableConfig "2") with
  | error diagnostics =>
    rw [h] at hchecks
    cases hchecks
  | ok config =>
    rw [h] at hchecks
    simp only [Except.toOption, Option.any_some, Bool.and_eq_true, decide_eq_true_eq] at hchecks
    exact ⟨config, rfl, hchecks.1, (accepted_config_runs h (by decide)).mpr fun _ => hchecks.2⟩

/-- One link in a node is accepted, and the writer is not made. -/
theorem single_link_refused : ∃ config,
    parseConfig smallConversions [] (writableConfig "1") = .ok config ∧
      config.makeObjects 1700000000000 = .error "maxLinks must be at least two" := by
  have hchecks : (parseConfig smallConversions [] (writableConfig "1")).toOption.any (fun config =>
      decide (config.makeObjects 1700000000000 = .error "maxLinks must be at least two")) = true := by
    decide +kernel
  cases h : parseConfig smallConversions [] (writableConfig "1") with
  | error diagnostics =>
    rw [h] at hchecks
    cases hchecks
  | ok config =>
    rw [h] at hchecks
    exact ⟨config, rfl, of_decide_eq_true hchecks⟩

end Instances

end NixstrCache.Config
