import NixstrCache.Lib.Markup
import NixstrCache.Nostr.SelectionRuns
import NixstrCache.Operations.Diagnostics
import NixstrCache.Persistence.Schema
import NixstrCache.Protocol.Hashtree

/-!
The status page.

The snapshot is derived from what the daemon knows, and the page is a function of the snapshot.  Texts that
come from publications and from the configuration are escaped where they are put into the page.
-/

namespace NixstrCache.Operations

open Markup Nostr Nostr.Selector Persistence Protocol

section Health

inductive HealthReason where
  | repositoryUnavailable
  | fatalError
  | noReadSources
  | writeDisabled
  | writeRepositoryUnavailable
  | signerDisconnected
  | signerConnecting
  | signerFailed
  | signerOwnershipMismatch
  | writeInitializing
  | writeActivationFailed
  | noBlossomDestination
  | noPublicationRelay
  | noCompleteReplica
  | relayNotAcknowledged
  | repairPending
deriving DecidableEq, Repr

/-- `REASON_TEXT`. -/
def HealthReason.text : HealthReason → String
  | .repositoryUnavailable => "the state repository is unavailable"
  | .fatalError => "a fatal internal error occurred"
  | .noReadSources => "no caches are selected and the writable overlay is empty"
  | .writeDisabled => "writes are disabled"
  | .writeRepositoryUnavailable => "the write repository is unavailable"
  | .signerDisconnected => "the signer is disconnected"
  | .signerConnecting => "the signer is still connecting"
  | .signerFailed => "the signer failed"
  | .signerOwnershipMismatch => "the signer does not own the configured writable identity"
  | .writeInitializing => "write capability is still initializing"
  | .writeActivationFailed => "write activation failed"
  | .noBlossomDestination => "no Blossom upload destination is configured"
  | .noPublicationRelay => "no publication relay is configured or reachable"
  | .noCompleteReplica => "no Blossom replica has a complete upload yet"
  | .relayNotAcknowledged => "no publication relay has acknowledged the signed event yet"
  | .repairPending => "a previous publication is still being repaired"

inductive WriteHealth where
  | disabled
  | blocked
  | ready
  | repairing
deriving DecidableEq, Repr

def WriteHealth.text : WriteHealth → String
  | .disabled => "disabled"
  | .blocked => "blocked"
  | .ready => "ready"
  | .repairing => "repairing"

structure HealthSnapshot where
  processFailed : Bool
  processReasons : List HealthReason
  readAvailable : Bool
  readReasons : List HealthReason
  writeStatus : WriteHealth
  writeReasons : List HealthReason

inductive OverallLevel where
  | ok
  | degraded
  | down
deriving DecidableEq, Repr

def OverallLevel.text : OverallLevel → String
  | .ok => "ok"
  | .degraded => "degraded"
  | .down => "down"

inductive SignerStatus where
  | disconnected
  | connecting
  | ready
  | failed
deriving DecidableEq, Repr

def SignerStatus.text : SignerStatus → String
  | .disconnected => "disconnected"
  | .connecting => "connecting"
  | .ready => "ready"
  | .failed => "failed"

end Health

section Dates

def civilDate (day : ℤ) : ℤ × ℕ × ℕ :=
  let z := day + 719468
  let era := z / 146097
  let dayOfEra := (z % 146097).toNat
  let yearOfEra := (dayOfEra - dayOfEra / 1460 + dayOfEra / 36524 - dayOfEra / 146096) / 365
  let dayOfYear := dayOfEra - (365 * yearOfEra + yearOfEra / 4 - yearOfEra / 100)
  let month := (5 * dayOfYear + 2) / 153
  let date := dayOfYear - (153 * month + 2) / 5 + 1
  (yearOfEra + era * 400 + (if month < 10 then 0 else 1), if month < 10 then month + 3 else month - 9,
    date)

def padStart (width n : ℕ) : String :=
  String.ofList (List.replicate (width - (toString n).length) '0') ++ toString n

def yearText (year : ℤ) : String :=
  if 0 ≤ year ∧ year ≤ 9999 then padStart 4 year.toNat
  else (if year < 0 then "-" else "+") ++ padStart 6 year.natAbs

def maxTime : ℤ :=
  8640000000000000

/-- `new Date(milliseconds).toISOString()`. -/
def toISOString (milliseconds : ℤ) : Except String String :=
  if maxTime < milliseconds.natAbs then .error "Invalid time value"
  else
    let (year, month, date) := civilDate (milliseconds / 86400000)
    let time := (milliseconds % 86400000).toNat
    .ok (yearText year ++ "-" ++ padStart 2 month ++ "-" ++ padStart 2 date ++ "T" ++
      padStart 2 (time / 3600000) ++ ":" ++ padStart 2 (time / 60000 % 60) ++ ":" ++
      padStart 2 (time / 1000 % 60) ++ "." ++ padStart 3 (time % 1000) ++ "Z")

example : toISOString 0 = .ok "1970-01-01T00:00:00.000Z" := by decide +kernel

example : toISOString maxTime = .ok "+275760-09-13T00:00:00.000Z" := by decide +kernel

end Dates

section Snapshot

structure StorageUsage where
  readyBytes : ℕ
  reservedBytes : ℕ
  capacityBytes : ℕ
  tombstones : ℕ

structure Pending where
  blobs : ℕ
  bytes : ℕ

structure WriteInputs where
  enabled : Bool
  acceptingUploads : Bool
  signerStatus : Option SignerStatus
  signerPubkey : Option String
  destinations : ℕ
  relays : ℕ
  pending : Option Pending
  batchId : Option ℕ
  endpointWork : List EndpointWork

structure StatusInputs where
  health : HealthSnapshot
  host : String
  port : ℕ
  caches : List SelectedPublication
  writableIdentity : Option String
  overlayEntries : ℕ
  storage : Option StorageUsage
  write : WriteInputs

structure StatusCacheView where
  priority : ℕ
  pubkey : String
  name : Option String
  identity : String
  nhash : String
  keyCount : ℕ
  updatedAt : ℤ
  expired : Bool
  writable : Bool

structure EndpointProgress where
  total : ℕ
  succeeded : ℕ
  retries : ℕ

structure StorageView where
  usage : StorageUsage
  usedPercent : ℕ

structure PublicationProgress where
  batchId : ℕ
  replicas : EndpointProgress
  relays : EndpointProgress

structure WriteView where
  status : WriteHealth
  signerStatus : Option SignerStatus
  signerDetail : String
  destinations : ℕ
  relays : ℕ
  acceptingUploads : Bool
  pending : Option Pending
  publication : Option PublicationProgress

structure StatusSnapshot where
  timestamp : String
  level : OverallLevel
  summary : String
  reasons : List String
  readAvailable : Bool
  caches : List StatusCacheView
  overlayEntries : ℕ
  storage : Option StorageView
  write : WriteView
  substituter : String
  trustedPublicKeys : List String

/-- What the snapshot takes from the platform: the origin of a URL, or nothing where the parser throws,
and the rounded quotient of two numbers in percent. -/
structure StatusPlatform where
  origin : String → Option String
  percent : ℕ → ℕ → ℕ

/-- `summarizeEndpointWork`, as far as the page shows it. -/
def summarizeEndpointWork (work : List EndpointWork) (kind : EndpointWorkKind) : EndpointProgress :=
  let selected := work.filter fun row => row.kind = kind
  { total := selected.length
    succeeded := (selected.filter fun row => row.status = .complete).length
    retries := (selected.map fun row => row.attempts - 1).sum }

def overallLevel (health : HealthSnapshot) : OverallLevel :=
  if health.processFailed then .down
  else if health.readAvailable ∧ (health.writeStatus = .ready ∨ health.writeStatus = .disabled) then .ok
  else .degraded

def summaryText (cachesCount : ℕ) (writeEnabled : Bool) (writeStatus : WriteHealth) : String :=
  let cachesPart := if cachesCount = 0 then "No caches selected."
    else "Serving " ++ toString cachesCount ++ " cache" ++ (if cachesCount = 1 then "" else "s") ++ "."
  let writePart := if writeEnabled = false then "Writes disabled."
    else match writeStatus with
      | .ready => "Writes ready."
      | .repairing => "Repairing publication."
      | _ => "Uploads blocked."
  cachesPart ++ " " ++ writePart

def normalizeHost (host : String) : String :=
  if host = "0.0.0.0" then "127.0.0.1"
  else if host = "::" ∨ host = "[::]" then "[::1]"
  else if ':' ∈ host.toList ∧ host.startsWith "[" = false then "[" ++ host ++ "]"
  else host

def trustedPublicKeys (caches : List SelectedPublication) : List String :=
  ((caches.flatMap fun cache => cache.publication.nixSigKeys.map fun key =>
    key.name ++ ":" ++ key.encoded).dedup).insertionSort fun a b => utf16 a ≤ utf16 b

def signerDetail (pubkey : Option String) : String :=
  match pubkey with
  | none => ""
  | some pubkey => if pubkey = "" then "" else String.ofList (pubkey.toList.take 6) ++ "…"

def isNhash (value : String) : Bool :=
  let chars := value.toList
  let data := chars.drop 6
  chars.take 6 = "nhash1".toList ∧ 6 ≤ data.length ∧ data.length ≤ 120 ∧ data.all isBech32Char

def cacheView (writableIdentity : Option String) (nowSeconds : ℤ) (item : SelectedPublication)
    (index : ℕ) : StatusCacheView :=
  let publication := item.publication
  { priority := index + 1
    pubkey := publication.identity.pubkey
    name := publication.identity.name
    identity := cacheIdentity publication
    nhash := if isNhash publication.root.nhash then publication.root.nhash else ""
    keyCount := publication.nixSigKeys.length
    updatedAt := publication.event.createdAt
    expired := publication.expiresAt.any fun expiresAt => expiresAt ≤ nowSeconds
    writable := writableIdentity = some (cacheIdentity publication) }

def storageView (p : StatusPlatform) (storage : StorageUsage) : StorageView :=
  { usage := storage
    usedPercent := if storage.capacityBytes = 0 then 0
      else min 100 (p.percent storage.readyBytes storage.capacityBytes) }

def writeView (health : HealthSnapshot) (write : WriteInputs) : WriteView :=
  { status := health.writeStatus
    signerStatus := write.signerStatus
    signerDetail := signerDetail write.signerPubkey
    destinations := write.destinations
    relays := write.relays
    acceptingUploads := write.acceptingUploads
    pending := write.pending
    publication := write.batchId.map fun batchId =>
      let batchWork := write.endpointWork.filter fun row => row.batchId = batchId
      ⟨batchId, summarizeEndpointWork batchWork .replica, summarizeEndpointWork batchWork .relay⟩ }

def substituterOrigin (p : StatusPlatform) (inputs : StatusInputs) : Except String String :=
  match p.origin ("http://" ++ normalizeHost inputs.host ++ ":" ++ toString inputs.port) with
  | some origin => .ok origin
  | none => .error "Invalid URL"

/-- `current` of the snapshot provider at a time in milliseconds. -/
def statusSnapshot (p : StatusPlatform) (inputs : StatusInputs) (nowMs : ℤ) :
    Except String StatusSnapshot := do
  let timestamp ← toISOString nowMs
  let substituter ← substituterOrigin p inputs
  pure
    { timestamp := timestamp
      level := overallLevel inputs.health
      summary := summaryText inputs.caches.length inputs.write.enabled inputs.health.writeStatus
      reasons := (inputs.health.processReasons ++ inputs.health.readReasons ++
        inputs.health.writeReasons).map HealthReason.text
      readAvailable := inputs.health.readAvailable
      caches := inputs.caches.mapIdx fun index item =>
        cacheView inputs.writableIdentity (nowMs / 1000) item index
      overlayEntries := inputs.overlayEntries
      storage := inputs.storage.map (storageView p)
      write := writeView inputs.health inputs.write
      substituter := substituter
      trustedPublicKeys := trustedPublicKeys inputs.caches }

end Snapshot

section Page

def escapeChar (c : Char) : List Char :=
  if c = '&' then "&amp;".toList
  else if c = '<' then "&lt;".toList
  else if c = '>' then "&gt;".toList
  else if c = '"' then "&quot;".toList
  else if c = '\'' then "&#39;".toList
  else [c]

def escapeHtml (value : String) : String :=
  String.ofList (value.toList.flatMap escapeChar)

def byteUnits : List String :=
  ["B", "KB", "MB", "GB", "TB"]

/-- How often `formatBytes` divides. -/
def byteUnit (value : ℕ) : ℕ :=
  ((List.range 4).filter fun k => 1024 ^ (k + 1) ≤ value).length

def formatBytes (value : ℕ) : String :=
  if value = 0 then "0 B"
  else
    let unit := byteUnit value
    let scaled := if unit = 0 then toString value
      else
        let tenths := (20 * value + 1024 ^ unit) / (2 * 1024 ^ unit)
        toString (tenths / 10) ++ "." ++ toString (tenths % 10)
    scaled ++ " " ++ byteUnits.getD unit ""

def sectionClass (level : String) : String :=
  if level = "ok" then "" else " " ++ level

def toUpperCase (text : String) : String :=
  String.ofList (text.toList.map Char.toUpper)

/-- `STYLE`. -/
def style : String :=
  lines
    [ "",
      ":root \x7b",
      "  color-scheme: light dark;",
      "  --bg: #ffffff;",
      "  --fg: #1a1a1a;",
      "  --muted: #5a5a5a;",
      "  --border: #d0d0d0;",
      "  --card-bg: #f6f6f6;",
      "  --ok: #1a7f37;",
      "  --degraded: #9a6700;",
      "  --down: #cf222e;",
      "  --accent: #1a7f37;",
      "\x7d",
      "@media (prefers-color-scheme: dark) \x7b",
      "  :root \x7b",
      "    --bg: #0d1117;",
      "    --fg: #e6edf3;",
      "    --muted: #9198a1;",
      "    --border: #30363d;",
      "    --card-bg: #161b22;",
      "    --ok: #3fb950;",
      "    --degraded: #d29922;",
      "    --down: #f85149;",
      "  \x7d",
      "\x7d",
      "* \x7b box-sizing: border-box; \x7d",
      "body \x7b",
      "  margin: 0;",
      "  padding: 1.5rem;",
      "  max-width: 64rem;",
      "  margin-inline: auto;",
      "  background: var(--bg);",
      "  color: var(--fg);",
      "  font-family: -apple-system, BlinkMacSystemFont, \"Segoe UI\", Roboto,",
      "    Helvetica, Arial, sans-serif;",
      "  line-height: 1.5;",
      "\x7d",
      "h1 \x7b font-size: 1.4rem; margin: 0 0 0.35rem 0; \x7d",
      "h2 \x7b font-size: 1.05rem; margin: 0 0 0.5rem 0; \x7d",
      "section \x7b",
      "  border: 1px solid var(--border);",
      "  border-left: 4px solid var(--border);",
      "  border-radius: 6px;",
      "  padding: 1rem;",
      "  margin-bottom: 1rem;",
      "  background: var(--card-bg);",
      "\x7d",
      "section.degraded, section.blocked, section.repairing \x7b",
      "  border-left-color: var(--degraded);",
      "\x7d",
      "section.down \x7b border-left-color: var(--down); \x7d",
      ".badge \x7b",
      "  display: inline-block;",
      "  padding: 0.15rem 0.5rem;",
      "  border-radius: 4px;",
      "  font-weight: 700;",
      "  letter-spacing: 0.02em;",
      "  color: #fff;",
      "  background: var(--ok);",
      "\x7d",
      ".badge.degraded, .badge.blocked, .badge.repairing \x7b",
      "  background: var(--degraded);",
      "\x7d",
      ".badge.down \x7b background: var(--down); \x7d",
      ".badge.disabled \x7b background: var(--muted); \x7d",
      "pre \x7b",
      "  background: var(--bg);",
      "  border: 1px solid var(--border);",
      "  border-radius: 4px;",
      "  padding: 0.75rem;",
      "  overflow-x: auto;",
      "  user-select: all;",
      "  font-size: 0.85rem;",
      "  white-space: pre-wrap;",
      "  word-break: break-all;",
      "\x7d",
      "table \x7b width: 100%; border-collapse: collapse; \x7d",
      "th, td \x7b",
      "  text-align: left;",
      "  padding: 0.35rem 0.5rem;",
      "  border-bottom: 1px solid var(--border);",
      "  font-size: 0.9rem;",
      "\x7d",
      ".muted \x7b color: var(--muted); \x7d",
      ".small \x7b font-size: 0.8rem; \x7d",
      ".bar \x7b",
      "  height: 0.75rem;",
      "  border-radius: 4px;",
      "  background: var(--border);",
      "  overflow: hidden;",
      "\x7d",
      ".bar > span \x7b display: block; height: 100%; background: var(--accent); \x7d",
      "@media (max-width: 40rem) \x7b",
      "  body \x7b padding: 0.75rem; \x7d",
      "  table, thead, tbody, tr \x7b display: block; \x7d",
      "  th \x7b display: none; \x7d",
      "  td \x7b border-bottom: none; padding: 0.15rem 0; \x7d",
      "\x7d",
      "" ]

def headerSection (s : StatusSnapshot) : List String :=
  [ "<header>",
    "<h1>nixstr-cache <span class=\"badge" ++ sectionClass s.level.text ++ "\">" ++
      toUpperCase s.level.text ++ "</span></h1>",
    "<p>" ++ escapeHtml s.summary ++ "</p>",
    "<p class=\"muted\">" ++ escapeHtml s.timestamp ++ " - this page refreshes every 10 seconds</p>",
    "</header>" ]

def reasonsSection (s : StatusSnapshot) : List String :=
  ["<section class=\"reasons" ++ sectionClass s.level.text ++ "\">", "<ul>"] ++
    s.reasons.map (fun reason => "<li>" ++ escapeHtml reason ++ "</li>") ++ ["</ul>", "</section>"]

/-- `join(" ")` of the escaped keys. -/
def joinedKeys (keys : List String) : String :=
  String.ofList ([' '].intercalate (keys.map String.toList))

def nixConfKeysLine (keys : List String) : String :=
  if keys = [] then "# no cache keys known yet"
  else "extra-trusted-public-keys = " ++ joinedKeys (keys.map escapeHtml)

def nixSettingsKeysLine (keys : List String) : String :=
  if keys = [] then "  # no cache keys known yet"
  else "  extra-trusted-public-keys = [ " ++
    joinedKeys (keys.map fun key => "\"" ++ escapeHtml key ++ "\"") ++ " ];"

def setupSection (s : StatusSnapshot) : List String :=
  [ "<section>",
    "<h2>Use this cache</h2>",
    "<p><code>/etc/nix/nix.conf</code> (additive - keeps cache.nixos.org):</p>",
    "<pre>" ++ ("extra-substituters = " ++ escapeHtml s.substituter ++ "\n" ++
      nixConfKeysLine s.trustedPublicKeys) ++ "</pre>",
    "<p>NixOS equivalent (<code>configuration.nix</code>):</p>",
    "<pre>" ++ ("nix.settings = \x7b\n  extra-substituters = [ \"" ++ escapeHtml s.substituter ++
      "\" ];\n" ++ nixSettingsKeysLine s.trustedPublicKeys ++ "\n\x7d;") ++ "</pre>",
    "<p class=\"muted\">Nix still verifies every configured binary-cache signature. The Nostr signature authenticates the publisher and Hashtree root; it does not replace Nix's own trust configuration.</p>",
    "</section>" ]

def cacheLabel (cache : StatusCacheView) : String :=
  match cache.name with
  | some name => escapeHtml name
  | none => escapeHtml (String.ofList (cache.pubkey.toList.take 8)) ++ "…"

def rootDisplay (cache : StatusCacheView) : String :=
  if cache.nhash = "" then "invalid"
  else escapeHtml (String.ofList (cache.nhash.toList.take 12)) ++ "…"

def markers (cache : StatusCacheView) : String :=
  (if cache.writable then "<span class=\"badge\">WRITABLE</span>" else "") ++ " " ++
    (if cache.expired then "<span class=\"badge degraded\">EXPIRED</span>" else "")

def cacheRow (cache : StatusCacheView) : Except String (List String) := do
  let updated ← toISOString (cache.updatedAt * 1000)
  pure
    [ "<tr>",
      "<td>" ++ toString cache.priority ++ "</td>",
      "<td>" ++ cacheLabel cache ++ "<br><span class=\"muted small\">" ++ escapeHtml cache.identity ++
        "</span></td>",
      "<td>" ++ rootDisplay cache ++ "</td>",
      "<td>" ++ toString cache.keyCount ++ "</td>",
      "<td>" ++ escapeHtml updated ++ "</td>",
      "<td>" ++ markers cache ++ "</td>",
      "</tr>" ]

def cacheRows : List StatusCacheView → Except String (List String)
  | [] => .ok []
  | cache :: caches => do
    let row ← cacheRow cache
    let rows ← cacheRows caches
    pure (row ++ rows)

def overlayLine (s : StatusSnapshot) : List String :=
  if 0 < s.overlayEntries then
    ["<p class=\"muted\">" ++ toString s.overlayEntries ++
      " entries pending in the writable overlay</p>"]
  else []

def cachesTable (s : StatusSnapshot) : Except String (List String) := do
  if s.caches = [] then
    pure ["<p>No caches are selected. The daemon is running but has nothing to serve — check that <code>caches</code> is configured and that a relay is reachable.</p>"]
  else do
    let rows ← cacheRows s.caches
    pure ([ "<table>",
        "<thead><tr><th>#</th><th>name</th><th>root</th><th>keys</th><th>updated</th><th></th></tr></thead>",
        "<tbody>" ] ++ rows ++ ["</tbody>", "</table>"] ++ overlayLine s)

def readText (available : Bool) : String :=
  if available then "ok" else "unavailable"

def readLevel (available : Bool) : String :=
  if available then "ok" else "degraded"

def cachesSection (s : StatusSnapshot) : Except String (List String) := do
  let table ← cachesTable s
  pure ([ "<section class=\"caches" ++ sectionClass (readLevel s.readAvailable) ++ "\">",
      "<h2>Caches (" ++ toString s.caches.length ++ ") <span class=\"badge" ++
        sectionClass (readLevel s.readAvailable) ++ "\">" ++ toUpperCase (readText s.readAvailable) ++
        "</span></h2>" ] ++ table ++ ["</section>"])

def storageSection (storage : StorageView) : List String :=
  let percent := toString storage.usedPercent
  let usage := storage.usage
  [ "<section>",
    "<h2>Storage</h2>",
    "<div class=\"bar\"><span style=\"width:" ++ percent ++ "%\"></span></div>",
    "<p>" ++ (formatBytes usage.readyBytes ++ " of " ++ formatBytes usage.capacityBytes ++ " (" ++
      percent ++ "%)") ++ "</p>",
    "<p class=\"muted\">" ++ ("ready " ++ formatBytes usage.readyBytes ++ " - reserved " ++
      formatBytes usage.reservedBytes ++ " - undeleted blobs " ++ toString usage.tombstones) ++ "</p>",
    "</section>" ]

def writeLevel (status : WriteHealth) : String :=
  if status = .ready then "ok" else status.text

def retriesText (progress : EndpointProgress) : String :=
  if progress.retries = 0 then "" else ", " ++ toString progress.retries ++ " retries"

def progressText (progress : EndpointProgress) : String :=
  toString progress.succeeded ++ "/" ++ toString progress.total ++ " ok" ++ retriesText progress

def signerLine (write : WriteView) : String :=
  "<tr><td>signer</td><td>" ++
    (escapeHtml ((write.signerStatus.getD .disconnected).text) ++
      (if write.signerDetail = "" then "" else " - " ++ escapeHtml write.signerDetail)) ++ "</td></tr>"

def publicationLine (write : WriteView) : List String :=
  (write.publication.map fun publication =>
    "<p>" ++ ("batch " ++ toString publication.batchId ++ " - replicas " ++
      progressText publication.replicas ++ " - relays " ++ progressText publication.relays) ++
      "</p>").toList

def pendingLine (write : WriteView) : List String :=
  (write.pending.map fun pending =>
    "<p class=\"muted\">" ++ ("staged " ++ toString pending.blobs ++ " blobs, " ++
      formatBytes pending.bytes ++ " waiting") ++ "</p>").toList

def writesBody (write : WriteView) : List String :=
  if write.status = .disabled then
    ["<p class=\"muted\">Writes are disabled. This cache is read-only.</p>"]
  else
    [ "<table>",
      "<tbody>",
      signerLine write,
      "<tr><td>uploads (PUT)</td><td>" ++
        (if write.acceptingUploads then "accepted" else "refused") ++ "</td></tr>",
      "<tr><td>Blossom servers</td><td>" ++ toString write.destinations ++
        "</td><td>publication relays</td><td>" ++ toString write.relays ++ "</td></tr>",
      "</tbody>",
      "</table>" ] ++ publicationLine write ++ pendingLine write

def writesSection (write : WriteView) : List String :=
  [ "<section class=\"writes" ++ sectionClass (writeLevel write.status) ++ "\">",
    "<h2>Writes <span class=\"badge" ++ sectionClass (writeLevel write.status) ++ "\">" ++
      toUpperCase write.status.text ++ "</span></h2>" ] ++ writesBody write ++ ["</section>"]

def footerSection : List String :=
  ["<footer>", "<p class=\"muted\">JSON status: /health - Nix probe: /nix-cache-info</p>", "</footer>"]

def titlePrefix (level : OverallLevel) : String :=
  if level = .ok then "" else toUpperCase level.text ++ " - "

def headSection (level : OverallLevel) : List String :=
  [ "<!DOCTYPE html>",
    "<html lang=\"en\">",
    "<head>",
    "<meta charset=\"utf-8\">",
    "<meta name=\"viewport\" content=\"width=device-width, initial-scale=1\">",
    "<meta http-equiv=\"refresh\" content=\"10\">",
    "<title>" ++ (escapeHtml (titlePrefix level) ++ "nixstr-cache") ++ "</title>",
    "<style>" ++ style ++ "</style>",
    "</head>",
    "<body>" ]

def renderStatusPage (s : StatusSnapshot) : Except String String := do
  let caches ← cachesSection s
  pure (lines (headSection s.level ++ headerSection s ++
    (if s.reasons = [] then [] else reasonsSection s) ++ setupSection s ++ caches ++
    (s.storage.map storageSection).getD [] ++ writesSection s.write ++ footerSection ++
    ["</body>", "</html>"]))

end Page

section Plain

theorem plain_escapeHtml (value : String) : Plain (escapeHtml value) := by
  intro hmem
  rw [escapeHtml, String.toList_ofList, List.mem_flatMap] at hmem
  obtain ⟨c, -, hc⟩ := hmem
  unfold escapeChar at hc
  split_ifs at hc
  · exact absurd hc (by decide)
  · exact absurd hc (by decide)
  · exact absurd hc (by decide)
  · exact absurd hc (by decide)
  · exact absurd hc (by decide)
  · next hless _ _ _ => exact hless (List.mem_singleton.mp hc).symm

theorem digits_nat {n : ℕ} {c : Char} (h : c ∈ (toString n).toList) : c ≠ '<' ∧ c ≠ '"' := by
  have hlist : (toString n).toList = Nat.toDigits 10 n := by simp [Nat.toList_repr]
  rw [hlist] at h
  obtain ⟨hlow, hhigh⟩ := Texts.toDigits_digit h
  constructor
  · rintro rfl
    exact absurd hhigh (by decide)
  · rintro rfl
    exact absurd hlow (by decide)

theorem plain_nat (n : ℕ) : Plain (toString n) :=
  fun hmem => (digits_nat hmem).1 rfl

theorem plain_formatBytes (value : ℕ) : Plain (formatBytes value) := by
  have hunit : ∀ unit, Plain (byteUnits.getD unit "") := by
    intro unit
    have hall : ∀ text ∈ byteUnits, Plain text := by decide
    rw [List.getD_eq_getElem?_getD]
    cases htext : byteUnits[unit]? with
    | none => exact List.not_mem_nil
    | some text => exact hall text (List.mem_of_getElem? htext)
  refine .ite (by decide) (.append (.append (.ite (plain_nat _) ?_) (by decide)) (hunit _))
  exact .append (.append (plain_nat _) (by decide)) (plain_nat _)

theorem plain_joinedKeys {keys : List String} (h : ∀ key ∈ keys, Plain key) :
    Plain (joinedKeys keys) := by
  intro hmem
  rw [joinedKeys, String.toList_ofList] at hmem
  rcases Texts.mem_intercalate hmem with hspace | ⟨word, hword, hmem⟩
  · exact absurd hspace (by decide)
  · obtain ⟨key, hkey, rfl⟩ := List.mem_map.mp hword
    exact h key hkey hmem

theorem plain_nixConfKeysLine (keys : List String) : Plain (nixConfKeysLine keys) := by
  refine .ite (by decide) (.append (by decide) (plain_joinedKeys fun key hkey => ?_))
  obtain ⟨key, -, rfl⟩ := List.mem_map.mp hkey
  exact plain_escapeHtml key

theorem plain_nixSettingsKeysLine (keys : List String) : Plain (nixSettingsKeysLine keys) := by
  refine .ite (by decide) (.append (.append (by decide) (plain_joinedKeys fun key hkey => ?_)) (by decide))
  obtain ⟨key, -, rfl⟩ := List.mem_map.mp hkey
  exact .append (.append (by decide) (plain_escapeHtml key)) (by decide)

theorem plain_cacheLabel (cache : StatusCacheView) : Plain (cacheLabel cache) := by
  unfold cacheLabel
  split
  · exact plain_escapeHtml _
  · exact .append (plain_escapeHtml _) (by decide)

theorem plain_rootDisplay (cache : StatusCacheView) : Plain (rootDisplay cache) :=
  .ite (by decide) (.append (plain_escapeHtml _) (by decide))

theorem plain_progressText (progress : EndpointProgress) : Plain (progressText progress) := by
  refine .append (.append (.append (.append (plain_nat _) (by decide)) (plain_nat _)) (by decide)) ?_
  exact .ite (by decide) (.append (.append (by decide) (plain_nat _)) (by decide))

end Plain

section Blanks

def StatusCacheView.blank (cache : StatusCacheView) : StatusCacheView :=
  { cache with pubkey := "", name := none, identity := "", nhash := "" }

/-- The snapshot without its texts. -/
def StatusSnapshot.blank (s : StatusSnapshot) : StatusSnapshot :=
  { s with
    timestamp := ""
    summary := ""
    reasons := s.reasons.map fun _ => ""
    caches := s.caches.map StatusCacheView.blank
    write := { s.write with signerDetail := "" }
    substituter := ""
    trustedPublicKeys := [] }

theorem alike_of_closed {sections : List String} (h : ∀ line ∈ sections, scan .text line.toList = .text) :
    List.Forall₂ Alike sections sections :=
  List.forall₂_same.mpr fun line hline => .refl (h line hline)

theorem alike_append {first first' second second' : List String} (h : List.Forall₂ Alike first first')
    (h' : List.Forall₂ Alike second second') :
    List.Forall₂ Alike (first ++ second) (first' ++ second') :=
  List.rel_append h h'

theorem plain_lines {texts : List String} (h : ∀ text ∈ texts, Plain text) : Plain (lines texts) := by
  induction texts with
  | nil => exact List.not_mem_nil
  | cons text texts ih =>
    obtain ⟨htext, htexts⟩ := List.forall_mem_cons.mp h
    cases texts with
    | nil => exact htext
    | cons next texts => exact .append (.append htext (by decide)) (ih htexts)

theorem plain_style : Plain style := by
  refine plain_lines ?_
  repeat' refine List.forall_mem_cons.mpr ⟨.literal (by decide), ?_⟩
  exact List.forall_mem_nil _

theorem headSection_alike (level : OverallLevel) :
    List.Forall₂ Alike (headSection level) (headSection level) := by
  have htitle : Plain (escapeHtml (titlePrefix level) ++ "nixstr-cache") :=
    .append (plain_escapeHtml _) (by decide)
  have hstyle : Alike ("<style>" ++ style ++ "</style>") ("<style>" ++ style ++ "</style>") :=
    .wrap (scan_literal (by decide)) (scan_literal (by decide)) plain_style plain_style
  exact .cons (.literal (by decide)) (.cons (.literal (by decide)) (.cons (.literal (by decide))
    (.cons (.literal (by decide)) (.cons (.literal (by decide)) (.cons (.literal (by decide))
    (.cons (.wrap (scan_literal (by decide)) (scan_literal (by decide)) htitle htitle)
    (.cons hstyle (.cons (.literal (by decide)) (.cons (.literal (by decide)) .nil)))))))))

theorem quote_sectionClass {level : String} (h : '"' ∉ level.toList) :
    '"' ∉ (sectionClass level).toList := by
  unfold sectionClass
  split_ifs
  · exact List.not_mem_nil
  · rw [String.toList_append, List.mem_append]
    exact not_or.mpr ⟨by decide, h⟩

theorem quote_overallLevel (level : OverallLevel) : '"' ∉ level.text.toList := by
  cases level <;> exact absent_literal (by decide)

theorem quote_readLevel (available : Bool) : '"' ∉ (readLevel available).toList := by
  cases available <;> exact absent_literal (by decide)

theorem quote_writeLevel (status : WriteHealth) : '"' ∉ (writeLevel status).toList := by
  cases status <;> exact absent_literal (by decide)

theorem plain_upper {chars : List Char} (h : '<' ∉ chars.map Char.toUpper) :
    Plain (toUpperCase (String.ofList chars)) := by
  rw [toUpperCase, String.toList_ofList]
  exact .literal h

theorem headerSection_alike (s : StatusSnapshot) :
    List.Forall₂ Alike (headerSection s) (headerSection s.blank) := by
  have hupper : Plain (toUpperCase s.level.text) := by
    cases s.level <;> exact plain_upper (by decide)
  have hbadge : scan .text ("<h1>nixstr-cache <span class=\"badge" ++ sectionClass s.level.text ++ "\">" ++
      toUpperCase s.level.text ++ "</span></h1>").toList = .text :=
    scan_wrap (scan_through (scan_literal (by decide))
      (quote_sectionClass (quote_overallLevel s.level)) (scan_literal (by decide)))
      (scan_literal (by decide)) hupper
  exact .cons (.literal (by decide)) (.cons (.refl hbadge)
    (.cons (.wrap (scan_literal (by decide)) (scan_literal (by decide)) (plain_escapeHtml _)
      (plain_escapeHtml _))
    (.cons (.wrap (scan_literal (by decide)) (scan_literal (by decide)) (plain_escapeHtml _)
      (plain_escapeHtml _))
    (.cons (.literal (by decide)) .nil))))

theorem reasonsSection_alike (s : StatusSnapshot) :
    List.Forall₂ Alike (reasonsSection s) (reasonsSection s.blank) := by
  have hopen : scan .text ("<section class=\"reasons" ++ sectionClass s.level.text ++ "\">").toList = .text :=
    scan_through (scan_literal (by decide)) (quote_sectionClass (quote_overallLevel s.level))
      (scan_literal (by decide))
  refine alike_append (alike_append ?_ ?_) (.cons (.literal (by decide)) (.cons (.literal (by decide)) .nil))
  · exact .cons (.refl hopen) (.cons (.literal (by decide)) .nil)
  · simp only [StatusSnapshot.blank, List.map_map]
    refine List.forall₂_map_left_iff.mpr (List.forall₂_map_right_iff.mpr ?_)
    exact List.forall₂_same.mpr fun reason _ =>
      .wrap (scan_literal (by decide)) (scan_literal (by decide)) (plain_escapeHtml _) (plain_escapeHtml _)

set_option maxRecDepth 2000 in
theorem setupSection_alike (s : StatusSnapshot) :
    List.Forall₂ Alike (setupSection s) (setupSection s.blank) := by
  have hconf (s : StatusSnapshot) : Plain ("extra-substituters = " ++ escapeHtml s.substituter ++ "\n" ++
      nixConfKeysLine s.trustedPublicKeys) :=
    .append (.append (.append (.literal (by decide)) (plain_escapeHtml _)) (.literal (by decide)))
      (plain_nixConfKeysLine _)
  have hsettings (s : StatusSnapshot) : Plain ("nix.settings = \x7b\n  extra-substituters = [ \"" ++
      escapeHtml s.substituter ++ "\" ];\n" ++ nixSettingsKeysLine s.trustedPublicKeys ++ "\n\x7d;") :=
    .append (.append (.append (.append (.literal (by decide)) (plain_escapeHtml _)) (.literal (by decide)))
      (plain_nixSettingsKeysLine _)) (.literal (by decide))
  exact .cons (.literal (by decide)) (.cons (.literal (by decide))
    (.cons (.literal (by decide))
    (.cons (.wrap (scan_literal (by decide)) (scan_literal (by decide)) (hconf s) (hconf s.blank))
    (.cons (.literal (by decide))
    (.cons (.wrap (scan_literal (by decide)) (scan_literal (by decide)) (hsettings s) (hsettings s.blank))
    (.cons (.literal (by decide)) (.cons (.literal (by decide)) .nil)))))))

theorem storageSection_alike (storage : StorageView) :
    List.Forall₂ Alike (storageSection storage) (storageSection storage) := by
  have hbar : scan .text ("<div class=\"bar\"><span style=\"width:" ++ toString storage.usedPercent ++
      "%\"></span></div>").toList = .text := by
    have hpercent : '"' ∉ (toString storage.usedPercent).toList :=
      fun hmem => (digits_nat hmem).2 rfl
    exact scan_through (scan_literal (by decide)) hpercent (scan_literal (by decide))
  have hused : Plain (formatBytes storage.usage.readyBytes ++ " of " ++
      formatBytes storage.usage.capacityBytes ++ " (" ++ toString storage.usedPercent ++ "%)") :=
    .append (.append (.append (.append (.append (plain_formatBytes _) (by decide)) (plain_formatBytes _))
      (by decide)) (plain_nat _)) (by decide)
  have hparts : Plain ("ready " ++ formatBytes storage.usage.readyBytes ++ " - reserved " ++
      formatBytes storage.usage.reservedBytes ++ " - undeleted blobs " ++
      toString storage.usage.tombstones) :=
    .append (.append (.append (.append (.append (by decide) (plain_formatBytes _)) (by decide))
      (plain_formatBytes _)) (by decide)) (plain_nat _)
  exact .cons (.literal (by decide)) (.cons (.literal (by decide)) (.cons (.refl hbar)
    (.cons (.wrap (scan_literal (by decide)) (scan_literal (by decide)) hused hused)
    (.cons (.wrap (scan_literal (by decide)) (scan_literal (by decide)) hparts hparts)
    (.cons (.literal (by decide)) .nil)))))

theorem signerLine_alike (write : WriteView) :
    Alike (signerLine write) (signerLine { write with signerDetail := "" }) := by
  have hsigner (write : WriteView) : Plain (escapeHtml ((write.signerStatus.getD .disconnected).text) ++
      (if write.signerDetail = "" then "" else " - " ++ escapeHtml write.signerDetail)) :=
    .append (plain_escapeHtml _) (.ite (by decide) (.append (by decide) (plain_escapeHtml _)))
  exact .wrap (scan_literal (by decide)) (scan_literal (by decide)) (hsigner write) (hsigner _)

theorem publicationLine_alike (write : WriteView) :
    List.Forall₂ Alike (publicationLine write) (publicationLine write) := by
  refine alike_of_closed fun line hline => ?_
  obtain ⟨publication, -, rfl⟩ := Option.mem_map.mp (Option.mem_toList.mp hline)
  have hplain : Plain ("batch " ++ toString publication.batchId ++ " - replicas " ++
      progressText publication.replicas ++ " - relays " ++ progressText publication.relays) :=
    .append (.append (.append (.append (.append (by decide) (plain_nat _)) (by decide))
      (plain_progressText _)) (by decide)) (plain_progressText _)
  exact scan_wrap (scan_literal (by decide)) (scan_literal (by decide)) hplain

theorem pendingLine_alike (write : WriteView) :
    List.Forall₂ Alike (pendingLine write) (pendingLine write) := by
  refine alike_of_closed fun line hline => ?_
  obtain ⟨pending, -, rfl⟩ := Option.mem_map.mp (Option.mem_toList.mp hline)
  have hplain : Plain ("staged " ++ toString pending.blobs ++ " blobs, " ++ formatBytes pending.bytes ++
      " waiting") :=
    .append (.append (.append (.append (by decide) (plain_nat _)) (by decide)) (plain_formatBytes _))
      (by decide)
  exact scan_wrap (scan_literal (by decide)) (scan_literal (by decide)) hplain

theorem writesBody_alike (write : WriteView) :
    List.Forall₂ Alike (writesBody write) (writesBody { write with signerDetail := "" }) := by
  unfold writesBody
  by_cases hdisabled : write.status = .disabled
  · rw [if_pos hdisabled, if_pos hdisabled]
    exact .cons (.literal (by decide)) .nil
  · rw [if_neg hdisabled, if_neg hdisabled]
    have huploads : Plain (if write.acceptingUploads then "accepted" else "refused") :=
      .ite (by decide) (by decide)
    refine alike_append (alike_append ?_ (publicationLine_alike write)) (pendingLine_alike write)
    exact .cons (.literal (by decide)) (.cons (.literal (by decide))
      (.cons (signerLine_alike write)
      (.cons (.wrap (scan_literal (by decide)) (scan_literal (by decide)) huploads huploads)
      (.cons ((Alike.wrap (scan_literal (by decide)) (scan_literal (by decide)) (plain_nat _)
        (plain_nat _)).append
        (.plain (plain_nat _) (plain_nat _)) |>.append (.literal (by decide)))
      (.cons (.literal (by decide)) (.cons (.literal (by decide)) .nil))))))

theorem writesSection_alike (write : WriteView) :
    List.Forall₂ Alike (writesSection write) (writesSection { write with signerDetail := "" }) := by
  have hclass := quote_sectionClass (quote_writeLevel write.status)
  have hopen : scan .text ("<section class=\"writes" ++ sectionClass (writeLevel write.status) ++
      "\">").toList = .text :=
    scan_through (scan_literal (by decide)) hclass (scan_literal (by decide))
  have hupper : Plain (toUpperCase write.status.text) := by
    cases write.status <;> exact plain_upper (by decide)
  have hheading : scan .text ("<h2>Writes <span class=\"badge" ++ sectionClass (writeLevel write.status) ++
      "\">" ++ toUpperCase write.status.text ++ "</span></h2>").toList = .text :=
    scan_wrap (scan_through (scan_literal (by decide)) hclass (scan_literal (by decide)))
      (scan_literal (by decide)) hupper
  exact alike_append (alike_append (.cons (.refl hopen) (.cons (.refl hheading) .nil))
    (writesBody_alike write)) (.cons (.literal (by decide)) .nil)

theorem cacheRow_alike {cache : StatusCacheView} {row : List String} (h : cacheRow cache = .ok row) :
    ∃ blank, cacheRow cache.blank = .ok blank ∧ List.Forall₂ Alike row blank := by
  unfold cacheRow at h
  obtain ⟨updated, htime, h⟩ := bind_eq_ok.mp h
  obtain rfl := Except.ok.inj h
  have hblank : toISOString (cache.blank.updatedAt * 1000) = .ok updated := htime
  refine ⟨_, bind_eq_ok.mpr ⟨updated, hblank, rfl⟩, ?_⟩
  have hmarkers : scan .text (markers cache).toList = .text :=
    scan_wrap (scan_ite (scan_literal (by decide)) (scan_literal (by decide)))
      (scan_ite (scan_literal (by decide)) (scan_literal (by decide))) (.literal (by decide))
  have hcell : scan .text "<td>".toList = .text := scan_literal (by decide)
  have hend : scan .text "</td>".toList = .text := scan_literal (by decide)
  exact .cons (.literal (by decide)) (.cons (.wrap hcell hend (plain_nat _) (plain_nat _))
    (.cons (((Alike.wrap hcell (scan_literal (by decide)) (plain_cacheLabel _) (plain_cacheLabel _)).append
      (.plain (plain_escapeHtml _) (plain_escapeHtml _))).append (.literal (by decide)))
    (.cons (.wrap hcell hend (plain_rootDisplay _) (plain_rootDisplay _))
    (.cons (.wrap hcell hend (plain_nat _) (plain_nat _))
    (.cons (.wrap hcell hend (plain_escapeHtml _) (plain_escapeHtml _))
    (.cons (((Alike.refl hcell).append (.refl hmarkers)).append (.refl hend))
    (.cons (.literal (by decide)) .nil)))))))

theorem cacheRows_alike {caches : List StatusCacheView} {rows : List String}
    (h : cacheRows caches = .ok rows) :
    ∃ blank, cacheRows (caches.map StatusCacheView.blank) = .ok blank ∧
      List.Forall₂ Alike rows blank := by
  induction caches generalizing rows with
  | nil =>
    obtain rfl := Except.ok.inj h
    exact ⟨[], rfl, .nil⟩
  | cons cache caches ih =>
    obtain ⟨row, hrow, h⟩ := bind_eq_ok.mp h
    obtain ⟨rest, hrest, h⟩ := bind_eq_ok.mp h
    obtain rfl := Except.ok.inj h
    obtain ⟨blank, hblank, halike⟩ := cacheRow_alike hrow
    obtain ⟨blanks, hblanks, hrestAlike⟩ := ih hrest
    refine ⟨blank ++ blanks, ?_, alike_append halike hrestAlike⟩
    rw [List.map_cons, cacheRows, hblank, hblanks]
    rfl

set_option maxRecDepth 2000 in
theorem cachesTable_alike {s : StatusSnapshot} {table : List String} (h : cachesTable s = .ok table) :
    ∃ blank, cachesTable s.blank = .ok blank ∧ List.Forall₂ Alike table blank := by
  unfold cachesTable at h ⊢
  by_cases hnone : s.caches = []
  · rw [if_pos hnone] at h
    have hblank : s.blank.caches = [] := List.map_eq_nil_iff.mpr hnone
    rw [if_pos hblank]
    obtain rfl := Except.ok.inj h
    exact ⟨_, rfl, .cons (.literal (by decide)) .nil⟩
  · rw [if_neg hnone] at h
    have hblank : s.blank.caches ≠ [] := fun hnil => hnone (List.map_eq_nil_iff.mp hnil)
    rw [if_neg hblank]
    obtain ⟨rows, hrows, h⟩ := bind_eq_ok.mp h
    obtain rfl := Except.ok.inj h
    obtain ⟨blank, hblankRows, halike⟩ := cacheRows_alike hrows
    refine ⟨_, bind_eq_ok.mpr ⟨blank, hblankRows, rfl⟩, ?_⟩
    have hoverlay : List.Forall₂ Alike (overlayLine s) (overlayLine s) := by
      refine alike_of_closed fun line hline => ?_
      unfold overlayLine at hline
      split_ifs at hline
      · obtain rfl := List.mem_singleton.mp hline
        exact scan_wrap (scan_literal (by decide)) (scan_literal (by decide)) (plain_nat _)
      · cases hline
    exact alike_append (alike_append (alike_append (.cons (.literal (by decide)) (.cons (.literal (by decide))
      (.cons (.literal (by decide)) .nil))) halike) (.cons (.literal (by decide))
      (.cons (.literal (by decide)) .nil))) hoverlay

theorem cachesSection_alike {s : StatusSnapshot} {sections : List String}
    (h : cachesSection s = .ok sections) :
    ∃ blank, cachesSection s.blank = .ok blank ∧ List.Forall₂ Alike sections blank := by
  obtain ⟨table, htable, h⟩ := bind_eq_ok.mp h
  obtain rfl := Except.ok.inj h
  obtain ⟨blank, hblank, halike⟩ := cachesTable_alike htable
  refine ⟨_, bind_eq_ok.mpr ⟨blank, hblank, rfl⟩, ?_⟩
  have hclass := quote_sectionClass (quote_readLevel s.readAvailable)
  have hopen : scan .text ("<section class=\"caches" ++ sectionClass (readLevel s.readAvailable) ++
      "\">").toList = .text :=
    scan_through (scan_literal (by decide)) hclass (scan_literal (by decide))
  have hupper : Plain (toUpperCase (readText s.readAvailable)) := by
    cases s.readAvailable <;> exact plain_upper (by decide)
  have hcount : s.blank.caches.length = s.caches.length := List.length_map _
  have hheading : scan .text ("<h2>Caches (" ++ toString s.caches.length ++ ") <span class=\"badge" ++
      sectionClass (readLevel s.readAvailable) ++ "\">" ++ toUpperCase (readText s.readAvailable) ++
      "</span></h2>").toList = .text :=
    scan_wrap (scan_through (scan_wrap (scan_literal (by decide)) (scan_literal (by decide))
      (plain_nat _)) hclass (scan_literal (by decide))) (scan_literal (by decide)) hupper
  refine alike_append (alike_append ?_ halike) (.cons (.literal (by decide)) .nil)
  rw [hcount]
  exact .cons (.refl hopen) (.cons (.refl hheading) .nil)

theorem renderStatusPage_alike {s : StatusSnapshot} {page : String} (h : renderStatusPage s = .ok page) :
    ∃ blank, renderStatusPage s.blank = .ok blank ∧
      markup .text page.toList = markup .text blank.toList := by
  obtain ⟨caches, hcaches, h⟩ := bind_eq_ok.mp h
  obtain rfl := Except.ok.inj h
  obtain ⟨blank, hblank, halike⟩ := cachesSection_alike hcaches
  refine ⟨_, bind_eq_ok.mpr ⟨blank, hblank, rfl⟩, ?_⟩
  have hreasons : List.Forall₂ Alike (if s.reasons = [] then [] else reasonsSection s)
      (if s.blank.reasons = [] then [] else reasonsSection s.blank) := by
    by_cases hnone : s.reasons = []
    · have hblankNone : s.blank.reasons = [] := List.map_eq_nil_iff.mpr hnone
      rw [if_pos hnone, if_pos hblankNone]
      exact .nil
    · have hblankSome : s.blank.reasons ≠ [] := fun hnil => hnone (List.map_eq_nil_iff.mp hnil)
      rw [if_neg hnone, if_neg hblankSome]
      exact reasonsSection_alike s
  have hstorage : List.Forall₂ Alike ((s.storage.map storageSection).getD [])
      ((s.storage.map storageSection).getD []) := by
    cases s.storage with
    | none => exact .nil
    | some storage => exact storageSection_alike storage
  have hfooter : List.Forall₂ Alike footerSection footerSection :=
    .cons (.literal (by decide)) (.cons (.literal (by decide)) (.cons (.literal (by decide)) .nil))
  exact (Alike.lines (alike_append (alike_append (alike_append (alike_append (alike_append (alike_append
    (alike_append (alike_append (headSection_alike s.level) (headerSection_alike s)) hreasons)
    (setupSection_alike s)) halike) hstorage) (writesSection_alike s.write))
    hfooter) (.cons (.literal (by decide)) (.cons (.literal (by decide)) .nil)))).same

end Blanks

section Times

theorem toISOString_isOk {milliseconds : ℤ} :
    (∃ text, toISOString milliseconds = .ok text) ↔ (milliseconds.natAbs : ℤ) ≤ maxTime := by
  unfold toISOString
  split_ifs with hrange
  · simpa using hrange
  · exact ⟨fun _ => not_lt.mp hrange, fun _ => ⟨_, rfl⟩⟩

theorem cacheRow_isOk {cache : StatusCacheView} : (∃ row, cacheRow cache = .ok row) ↔
    -8640000000000 ≤ cache.updatedAt ∧ cache.updatedAt ≤ 8640000000000 := by
  have hrange : ((cache.updatedAt * 1000).natAbs : ℤ) ≤ maxTime ↔
      -8640000000000 ≤ cache.updatedAt ∧ cache.updatedAt ≤ 8640000000000 := by
    unfold maxTime
    omega
  rw [← hrange, ← toISOString_isOk]
  constructor
  · rintro ⟨row, hrow⟩
    obtain ⟨updated, hupdated, -⟩ := bind_eq_ok.mp hrow
    exact ⟨updated, hupdated⟩
  · rintro ⟨updated, hupdated⟩
    exact ⟨_, bind_eq_ok.mpr ⟨updated, hupdated, rfl⟩⟩

theorem cacheRows_isOk {caches : List StatusCacheView} : (∃ rows, cacheRows caches = .ok rows) ↔
    ∀ cache ∈ caches, -8640000000000 ≤ cache.updatedAt ∧ cache.updatedAt ≤ 8640000000000 := by
  induction caches with
  | nil => exact ⟨fun _ => nofun, fun _ => ⟨[], rfl⟩⟩
  | cons cache caches ih =>
    rw [List.forall_mem_cons, ← ih, ← cacheRow_isOk]
    constructor
    · rintro ⟨rows, hrows⟩
      obtain ⟨row, hrow, hrows⟩ := bind_eq_ok.mp hrows
      obtain ⟨rest, hrest, -⟩ := bind_eq_ok.mp hrows
      exact ⟨⟨row, hrow⟩, ⟨rest, hrest⟩⟩
    · rintro ⟨⟨row, hrow⟩, ⟨rest, hrest⟩⟩
      exact ⟨_, bind_eq_ok.mpr ⟨row, hrow, bind_eq_ok.mpr ⟨rest, hrest, rfl⟩⟩⟩

theorem renderStatusPage_isOk {s : StatusSnapshot} : (∃ page, renderStatusPage s = .ok page) ↔
    ∀ cache ∈ s.caches, -8640000000000 ≤ cache.updatedAt ∧ cache.updatedAt ≤ 8640000000000 := by
  have htable : (∃ table, cachesTable s = .ok table) ↔ ∃ rows, cacheRows s.caches = .ok rows := by
    unfold cachesTable
    by_cases hnone : s.caches = []
    · rw [if_pos hnone, hnone]
      exact ⟨fun _ => ⟨[], rfl⟩, fun _ => ⟨_, rfl⟩⟩
    · rw [if_neg hnone]
      constructor
      · rintro ⟨table, h⟩
        obtain ⟨rows, hrows, -⟩ := bind_eq_ok.mp h
        exact ⟨rows, hrows⟩
      · rintro ⟨rows, hrows⟩
        exact ⟨_, bind_eq_ok.mpr ⟨rows, hrows, rfl⟩⟩
  rw [← cacheRows_isOk, ← htable]
  constructor
  · rintro ⟨page, h⟩
    obtain ⟨caches, hcaches, -⟩ := bind_eq_ok.mp h
    obtain ⟨table, htable, -⟩ := bind_eq_ok.mp hcaches
    exact ⟨table, htable⟩
  · rintro ⟨table, htable⟩
    exact ⟨_, bind_eq_ok.mpr ⟨_, bind_eq_ok.mpr ⟨table, htable, rfl⟩, rfl⟩⟩

theorem statusSnapshot_caches {p : StatusPlatform} {inputs : StatusInputs} {nowMs : ℤ}
    {s : StatusSnapshot} (h : statusSnapshot p inputs nowMs = .ok s) :
    s.caches = inputs.caches.mapIdx fun index item =>
      cacheView inputs.writableIdentity (nowMs / 1000) item index := by
  obtain ⟨timestamp, -, h⟩ := bind_eq_ok.mp h
  obtain ⟨substituter, -, h⟩ := bind_eq_ok.mp h
  obtain rfl := Except.ok.inj h
  rfl

def samplePlatform : StatusPlatform where
  origin url := some url
  percent part total := 100 * part / total

def sampleInputs (caches : List SelectedPublication) : StatusInputs where
  health := ⟨false, [], true, [], .disabled, [.writeDisabled]⟩
  host := "127.0.0.1"
  port := 8080
  caches
  writableIdentity := none
  overlayEntries := 0
  storage := none
  write := ⟨false, false, none, none, 0, 0, none, none, []⟩

def sampleCache : SelectedPublication :=
  ⟨⟨samplePublication 'a' 89 [], ⟨17091, "p", none⟩, ⟨[], "", "nhash1"⟩, [], [], none⟩, []⟩

/-- A publication from the last second that is too early for a date. -/
def earlyPublication : RawPublication :=
  samplePublication 'd' (-8640000000001) []

def earlyValidator : Validator :=
  { sampleValidator with
    verifyEvent := fun raw => some (decide (raw = earlyPublication))
    verified_id := by
      intro raw h
      obtain rfl : raw = earlyPublication := by simpa using h
      decide
    verified_event := by
      intro a b ha hb _
      obtain rfl : a = earlyPublication := by simpa using ha
      obtain rfl : b = earlyPublication := by simpa using hb
      rfl }

/-- The page of a snapshot is rendered, and other texts in the snapshot leave its markup as it is,
exactly when every publication was created at a time that a date can have. -/
theorem status_page_contained {p : StatusPlatform} {inputs : StatusInputs} {nowMs : ℤ}
    {s : StatusSnapshot} (h : statusSnapshot p inputs nowMs = .ok s) :
    (∃ page, renderStatusPage s = .ok page ∧ ∀ t : StatusSnapshot, t.blank = s.blank →
      ∃ other, renderStatusPage t = .ok other ∧
        markup .text other.toList = markup .text page.toList) ↔
      ∀ item ∈ inputs.caches, -8640000000000 ≤ item.publication.event.createdAt ∧
        item.publication.event.createdAt ≤ 8640000000000 := by
  have htimes : (∀ cache ∈ s.caches, -8640000000000 ≤ cache.updatedAt ∧
      cache.updatedAt ≤ 8640000000000) ↔
        ∀ item ∈ inputs.caches, -8640000000000 ≤ item.publication.event.createdAt ∧
          item.publication.event.createdAt ≤ 8640000000000 := by
    rw [statusSnapshot_caches h]
    constructor
    · intro hall item hitem
      obtain ⟨index, hindex, rfl⟩ := List.getElem_of_mem hitem
      exact hall (cacheView inputs.writableIdentity (nowMs / 1000) inputs.caches[index] index)
        (List.mem_mapIdx.mpr ⟨index, hindex, rfl⟩)
    · intro hall cache hcache
      obtain ⟨index, hindex, rfl⟩ := List.mem_mapIdx.mp hcache
      exact hall _ (List.getElem_mem hindex)
  rw [← htimes, ← renderStatusPage_isOk]
  constructor
  · rintro ⟨page, hpage, -⟩
    exact ⟨page, hpage⟩
  · rintro ⟨page, hpage⟩
    obtain ⟨blank, hblank, hsame⟩ := renderStatusPage_alike hpage
    refine ⟨page, hpage, fun t ht => ?_⟩
    have hother : ∃ other, renderStatusPage t = .ok other := by
      refine renderStatusPage_isOk.mpr fun cache hcache => ?_
      have hcaches : t.caches.map StatusCacheView.blank = s.caches.map StatusCacheView.blank :=
        congrArg StatusSnapshot.caches ht
      have hmem : cache.blank ∈ s.caches.map StatusCacheView.blank :=
        hcaches ▸ List.mem_map_of_mem hcache
      obtain ⟨found, hfound, hblankEq⟩ := List.mem_map.mp hmem
      have hblankTime : found.blank.updatedAt = cache.blank.updatedAt :=
        congrArg StatusCacheView.updatedAt hblankEq
      have hsameTime : found.updatedAt = cache.updatedAt := hblankTime
      rw [← hsameTime]
      exact renderStatusPage_isOk.mp ⟨page, hpage⟩ found hfound
    obtain ⟨other, hother⟩ := hother
    obtain ⟨otherBlank, hotherBlank, hotherSame⟩ := renderStatusPage_alike hother
    rw [ht, hblank] at hotherBlank
    obtain rfl := Except.ok.inj hotherBlank
    exact ⟨other, hother, hotherSame.trans hsame.symm⟩

theorem status_page_contained_sample : ∃ s,
    statusSnapshot samplePlatform (sampleInputs [sampleCache]) 100000 = .ok s ∧
    ((∃ page, renderStatusPage s = .ok page ∧ ∀ t : StatusSnapshot, t.blank = s.blank →
      ∃ other, renderStatusPage t = .ok other ∧
        markup .text other.toList = markup .text page.toList) ↔
      ∀ item ∈ (sampleInputs [sampleCache]).caches,
        -8640000000000 ≤ item.publication.event.createdAt ∧
          item.publication.event.createdAt ≤ 8640000000000) :=
  have hsnapshot : ∃ s, statusSnapshot samplePlatform (sampleInputs [sampleCache]) 100000 = .ok s :=
    ⟨_, rfl⟩
  let ⟨s, hs⟩ := hsnapshot
  ⟨s, hs, status_page_contained hs⟩

theorem early_publication_throws : ∃ publication,
    validatePublication earlyValidator earlyPublication 100 = .ok publication ∧
      ∃ s, statusSnapshot samplePlatform (sampleInputs [⟨publication, []⟩]) 100000 = .ok s ∧
        renderStatusPage s = .error "Invalid time value" :=
  ⟨_, rfl, _, rfl, rfl⟩

end Times

end NixstrCache.Operations
