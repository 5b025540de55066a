import NixstrCache.Lib.Programs
import NixstrCache.Blossom.BlobFetcher
import NixstrCache.Hashtree.PathResolver

/-!
What a request of the reader takes from the blob fetcher, under its budget.

A request spends its budget in one session.  Everything around it is in a world: the clock, the signal,
what the blob store holds, which fetches of other requests are under way, what the sources answer, and
how a verified file reads.  All of this may depend on what the request has done so far.  The blobs of a
request are fetched one after the other, so the limit of concurrent fetches is never reached.
-/

namespace NixstrCache.Hashtree.Reader

open Protocol Persistence Programs
open Blossom (Answer SourceCandidate FetchLimits)

abbrev Hash := List UInt8

structure TraversalLimits where
  maxDepth : ℕ
  maxLinks : ℕ
  maxUniqueNodes : ℕ
  maxDecodedBytes : ℕ
  maxAttempts : ℕ
  maxBlobTransferBytes : ℕ
  maxTransferredBytes : ℕ
  maxOutputBytes : ℕ
  deadline : ℕ
deriving DecidableEq, Repr

inductive ReadError where
  | budgetExceeded (message : String)
  | verifiedAbsent (path : String)
  | failed (message : String)
  /-- `BlobUnavailable` or `HashMismatch`, with the origins of the sources that have failed. -/
  | unavailable (origins : List String)
  | narResolutionFailed (path : String) (origins : List String)
  | aborted
  /-- A traversal has not come to an end. -/
  | spinning
deriving DecidableEq, Repr

/-- What a request has spent, and what it has done. -/
structure Session where
  links : ℕ
  nodes : List Hash
  decoded : ℕ
  attempts : ℕ
  transferred : ℕ
  output : ℕ
  /-- How often the clock has been read. -/
  readings : ℕ
  /-- The manifests that the request has at hand. -/
  manifests : List Hash
  /-- The blobs that its fetches have brought into the store. -/
  admitted : List Hash
  /-- The manifests that its traversals have taken up, each with its depth. -/
  visits : List (Hash × ℕ)

def Session.initial : Session := ⟨0, [], 0, 0, 0, 0, 0, [], [], []⟩

abbrev Program := EStateM ReadError Session

/-- The pieces in which the file of a verified blob is read; the reading may fail after them. -/
structure VerifiedBlob (content : Bytes) where
  pieces : List Bytes
  broken : Bool
  reads : pieces.flatten <+: content
  whole : broken = false → pieces.flatten = content

structure Source where
  candidate : SourceCandidate
  quarantined : Bool
  answer : Answer
  /-- The blob store has room for the reservation. -/
  reserves : Bool

structure World where
  clock : ℕ → ℕ
  aborted : Session → Bool
  /-- The bytes with this hash. -/
  content : Hash → Bytes
  /-- `decodeValidatedManifest` under the limits of the resolver. -/
  decode : Bytes → Option ValidatedManifest
  maxWireBytes : ℕ
  /-- The manifest cache has the manifest, or a load of another request settles so. -/
  loaded : Session → Hash → Option (Except ReadError Unit)
  /-- `store.lookup` finds the blob. -/
  stored : Session → Hash → Bool
  /-- A fetch of another request is under way and settles so. -/
  inflight : Session → Hash → Option (Except ReadError Unit)
  sources : Session → Hash → List Source
  /-- `store.lookup` finds the blob after it has been admitted. -/
  leased : Session → Hash → Bool
  blob : Session → (hash : Hash) → VerifiedBlob (content hash)
  loaded_settles : ∀ s hash, loaded s hash ≠ some (.error .spinning)
  inflight_settles : ∀ s hash, inflight s hash ≠ some (.error .spinning)

variable (w : World) (limits : TraversalLimits)

section Budget

/-- A debit of the budget: the deadline is checked first. -/
def debit (allowed : Session → Bool) (message : String) (update : Session → Session) :
    Program Unit := fun s =>
  let read := { s with readings := s.readings + 1 }
  if limits.deadline ≤ w.clock s.readings then
    .error (.budgetExceeded "request deadline exceeded") read
  else if allowed s then .ok () (update read)
  else .error (.budgetExceeded message) read

def checkDepth (depth : ℕ) : Program Unit :=
  debit w limits (fun _ => depth ≤ limits.maxDepth) "traversal depth exceeded" id

def debitLinks (count : ℕ) : Program Unit :=
  debit w limits (fun s => s.links + count ≤ limits.maxLinks) "link budget exceeded"
    fun s => { s with links := s.links + count }

def visitNode (hash : Hash) : Program Unit :=
  debit w limits (fun s => hash ∈ s.nodes ∨ s.nodes.length < limits.maxUniqueNodes)
    "unique-node budget exceeded"
    fun s => if hash ∈ s.nodes then s else { s with nodes := hash :: s.nodes }

def debitDecoded (count : ℕ) : Program Unit :=
  debit w limits (fun s => s.decoded + count ≤ limits.maxDecodedBytes) "decoded-byte budget exceeded"
    fun s => { s with decoded := s.decoded + count }

def debitAttempt : Program Unit :=
  debit w limits (fun s => s.attempts < limits.maxAttempts) "source-attempt budget exceeded"
    fun s => { s with attempts := s.attempts + 1 }

def debitTransfer (count : ℕ) : Program Unit :=
  debit w limits (fun s => s.transferred + count ≤ limits.maxTransferredBytes)
    "request transfer budget exceeded" fun s => { s with transferred := s.transferred + count }

def ensureOutputAvailable (count : ℕ) : Program Unit :=
  debit w limits (fun s => s.output + count ≤ limits.maxOutputBytes) "request output budget exceeded" id

def debitOutput (count : ℕ) : Program Unit :=
  debit w limits (fun s => s.output + count ≤ limits.maxOutputBytes) "request output budget exceeded"
    fun s => { s with output := s.output + count }

def acquire : Program Unit :=
  debit w limits (fun _ => true) "concurrency budget exceeded" id

def throwIfAborted : Program Unit := fun s =>
  if w.aborted s then .error .aborted s else .ok () s

end Budget

section Fetching

def refuse (c : Bool) (error : ReadError) : Program Unit :=
  if c then throw error else pure ()

def succeeds (p : Program Unit) : Program Bool := fun s =>
  match p s with
  | .ok _ t => .ok true t
  | .error _ t => .ok false t

/-- The body of a response, as far as the limits let it through. -/
def receive (fetchLimits : FetchLimits) : List (Option Bytes) → Bytes → Program (Option Bytes)
  | [], received => pure (some received)
  | none :: _, _ => pure none
  | some piece :: rest, received => do
    if ← succeeds (debitTransfer w limits piece.length) then
      let size := received.length + piece.length
      if fetchLimits.maxTransferBytes < size ∨ fetchLimits.declaredSize.any (· < size) then pure none
      else receive fetchLimits rest (received ++ piece)
    else pure none

def admitBlob (hash : Hash) : Program Unit :=
  modify fun s => { s with admitted := hash :: s.admitted }

/-- `#attempt`: whether the source gives the blob. -/
def attemptSource (hash : Hash) (fetchLimits : FetchLimits) (source : Source) : Program Bool := do
  if source.answer.refused ∨ source.answer.status ≠ 200 ∨
      fetchLimits.allows source.answer.contentLength = false ∨ source.reserves = false then
    pure false
  else do
    let received ← receive w limits fetchLimits source.answer.body []
    if received = some (w.content hash) then do
      admitBlob hash
      pure (fetchLimits.declaredSize.all (· = (w.content hash).length))
    else pure false

/-- `#populate`, with the attempts and the failures so far. -/
def populate (hash : Hash) (fetchLimits : FetchLimits) : List Source → ℕ → List String → Program Unit
  | [], _, failures => throw (.unavailable failures)
  | source :: rest, attempts, failures =>
    if fetchLimits.maxAttempts ≤ attempts then throw (.unavailable failures)
    else if source.quarantined then populate hash fetchLimits rest attempts failures
    else do
      debitAttempt w limits
      if ← attemptSource w limits hash fetchLimits source then pure ()
      else populate hash fetchLimits rest (attempts + 1) (failures ++ [source.candidate.origin])

/-- The fetch of another request, or one of its own. -/
def settle (hash : Hash) (fetchLimits : FetchLimits) : Program Unit := do
  let s ← get
  match w.inflight s hash with
  | some (.ok ()) => pure ()
  | some (.error error) => throw error
  | none => populate w limits hash fetchLimits (w.sources s hash) 0 []

/-- `store.lookup` after the fetch. -/
def lease (hash : Hash) : Program Unit := do
  let s ← get
  refuse (w.leased s hash = false) (.failed "verified blob disappeared after admission")

def ensureStored (hash : Hash) (fetchLimits : FetchLimits) : Program Unit := do
  let s ← get
  if w.stored s hash then pure ()
  else do
    settle w limits hash fetchLimits
    lease w hash

/-- `BlobFetcher.fetch`. -/
def fetchBlob (hash : Hash) (fetchLimits : FetchLimits) :
    Program (VerifiedBlob (w.content hash)) := do
  ensureStored w limits hash fetchLimits
  let s ← get
  pure (w.blob s hash)

def maxSafeInteger : ℕ := 9007199254740991

def transferLimit (declaredSize : Option ℕ) (transferCeiling : ℕ) (s : Session) : ℕ :=
  min (min limits.maxBlobTransferBytes (limits.maxTransferredBytes - s.transferred))
    (min transferCeiling (declaredSize.getD maxSafeInteger))

def fetch (hash : Hash) (declaredSize : Option ℕ) (transferCeiling : ℕ) :
    Program (VerifiedBlob (w.content hash)) := do
  refuse (declaredSize.any (limits.maxBlobTransferBytes < ·))
    (.budgetExceeded "per-blob transfer budget exceeded")
  acquire w limits
  let s ← get
  let maxTransferBytes := transferLimit limits declaredSize transferCeiling s
  refuse (maxTransferBytes = 0) (.budgetExceeded "request transfer budget exceeded")
  fetchBlob w limits hash ⟨limits.maxAttempts, maxTransferBytes, declaredSize⟩

def World.manifest (w : World) (hash : Hash) : Option ValidatedManifest :=
  w.decode (w.content hash)

def decodeManifest (hash : Hash) : Program ValidatedManifest :=
  match w.manifest hash with
  | some decoded => pure decoded
  | none => throw (.failed "invalid manifest")

def loadManifest (hash : Hash) : Program ValidatedManifest := do
  let s ← get
  match w.loaded s hash with
  | some (.ok ()) => decodeManifest w hash
  | some (.error error) => throw error
  | none => do
    let blob ← fetch w limits hash none w.maxWireBytes
    refuse blob.broken (.failed "blob cannot be read")
    decodeManifest w hash

/-- `#manifest`.  A manifest at hand is what its bytes decode to. -/
def manifestOf (hash : Hash) : Program Manifest := do
  let s ← get
  if hash ∈ s.manifests then do
    let decoded ← decodeManifest w hash
    pure decoded.manifest
  else do
    visitNode w limits hash
    let decoded ← loadManifest w limits hash
    debitDecoded w limits decoded.decodedBytes
    modify fun s => { s with manifests := hash :: s.manifests }
    pure decoded.manifest

end Fetching

section Changes

variable {w limits} {R : Session → Session → Prop}

/-- A relation that holds across all that a fetch does to a session. -/
structure FetchClosed (limits : TraversalLimits) (R : Session → Session → Prop) : Prop where
  refl : ∀ s, R s s
  trans : ∀ s t u, R s t → R t u → R s u
  read : ∀ s, R s { s with readings := s.readings + 1 }
  attempt : ∀ s, s.attempts < limits.maxAttempts → R s { s with attempts := s.attempts + 1 }
  transfer : ∀ s count, s.transferred + count ≤ limits.maxTransferredBytes →
    R s { s with transferred := s.transferred + count }
  admits : ∀ s hash, R s { s with admitted := hash :: s.admitted }

structure LoadClosed (limits : TraversalLimits) (R : Session → Session → Prop) : Prop extends
    FetchClosed limits R where
  node : ∀ s hash, hash ∉ s.nodes → s.nodes.length < limits.maxUniqueNodes →
    R s { s with nodes := hash :: s.nodes }
  decode : ∀ s count, s.decoded + count ≤ limits.maxDecodedBytes →
    R s { s with decoded := s.decoded + count }
  manifest : ∀ s hash, hash ∈ s.nodes → R s { s with manifests := hash :: s.manifests }

theorem debit_keeps {allowed : Session → Bool} {message : String} {update : Session → Session}
    (hread : ∀ s, R s { s with readings := s.readings + 1 })
    (hupdate : ∀ s, allowed s = true → R s (update { s with readings := s.readings + 1 })) :
    Keeps R (debit w limits allowed message update) := by
  intro s
  rw [final, debit]
  by_cases hdeadline : limits.deadline ≤ w.clock s.readings
  · simp only [hdeadline, if_true]
    exact hread s
  · by_cases hallowed : allowed s = true
    · simp only [hdeadline, hallowed, if_true, if_false]
      exact hupdate s hallowed
    · simp only [hdeadline, hallowed, if_false]
      exact hread s

theorem debit_ok {allowed : Session → Bool} {message : String} {update : Session → Session}
    {s t : Session} {a : Unit} (h : debit w limits allowed message update s = .ok a t) :
    allowed s = true ∧ t = update { s with readings := s.readings + 1 } := by
  rw [debit] at h
  split_ifs at h with hdeadline hallowed
  exact ⟨hallowed, (EStateM.Result.ok.inj h).2.symm⟩

theorem debit_error {allowed : Session → Bool} {message : String} {update : Session → Session}
    {s t : Session} {e : ReadError} (h : debit w limits allowed message update s = .error e t) :
    t = { s with readings := s.readings + 1 } := by
  rw [debit] at h
  split_ifs at h with hdeadline hallowed
  · exact (EStateM.Result.error.inj h).2.symm
  · exact (EStateM.Result.error.inj h).2.symm

theorem modify_keeps {f : Session → Session} (h : ∀ s, R s (f s)) :
    Keeps R (modify f : Program PUnit) :=
  h

theorem refuse_keeps (hrefl : ∀ s, R s s) (c : Bool) (error : ReadError) : Keeps R (refuse c error) :=
  .ite (.throw hrefl _) (.pure hrefl _)

theorem refuse_ok {c : Bool} {error : ReadError} {s t : Session} {a : Unit}
    (h : refuse c error s = .ok a t) : c = false ∧ t = s := by
  cases c with
  | true => exact nomatch h
  | false => exact ⟨rfl, (EStateM.Result.ok.inj h).2.symm⟩

theorem refuse_bind {α : Type} {c : Bool} {error : ReadError} {p : Program α} {s t : Session} {a : α}
    (h : (refuse c error >>= fun _ => p) s = .ok a t) : c = false ∧ p s = .ok a t := by
  obtain ⟨_, u, hrefuse, h⟩ := bind_ok.mp h
  rw [(refuse_ok hrefuse).2] at h
  exact ⟨(refuse_ok hrefuse).1, h⟩

theorem succeeds_keeps {p : Program Unit} (h : Keeps R p) : Keeps R (succeeds p) := by
  intro s
  have hs := h s
  rw [final] at hs ⊢
  rw [succeeds]
  cases hp : p s with
  | ok a t => simpa only [hp] using hs
  | error e t => simpa only [hp] using hs

theorem FetchClosed.debitTransfer (h : FetchClosed limits R) (count : ℕ) :
    Keeps R (debitTransfer w limits count) :=
  debit_keeps h.read fun s hallowed => h.trans _ _ _ (h.read s) (h.transfer _ _ (by simpa using hallowed))

theorem FetchClosed.receive (h : FetchClosed limits R) (fetchLimits : FetchLimits)
    (pieces : List (Option Bytes)) (received : Bytes) :
    Keeps R (receive w limits fetchLimits pieces received) := by
  induction pieces generalizing received with
  | nil => exact .pure h.refl _
  | cons piece rest ih =>
    rcases piece with - | piece
    · exact .pure h.refl _
    · refine .bind h.trans (succeeds_keeps (h.debitTransfer _)) fun ok => ?_
      exact .ite (.ite (.pure h.refl _) (ih _)) (.pure h.refl _)

theorem FetchClosed.attemptSource (h : FetchClosed limits R) (hash : Hash) (fetchLimits : FetchLimits)
    (source : Source) : Keeps R (attemptSource w limits hash fetchLimits source) := by
  refine .ite (.pure h.refl _) (.bind h.trans (h.receive _ _ _) fun received => ?_)
  exact .ite (.bind h.trans (modify_keeps fun s => h.admits s hash) fun _ => .pure h.refl _)
    (.pure h.refl _)

theorem FetchClosed.populate (h : FetchClosed limits R) (hash : Hash) (fetchLimits : FetchLimits)
    (sources : List Source) (attempts : ℕ) (failures : List String) :
    Keeps R (populate w limits hash fetchLimits sources attempts failures) := by
  induction sources generalizing attempts failures with
  | nil => exact .throw h.refl _
  | cons source rest ih =>
    refine .ite (.throw h.refl _) (.ite (ih _ _) (.bind h.trans ?_ fun _ => ?_))
    · exact debit_keeps h.read fun s hallowed =>
        h.trans _ _ _ (h.read s) (h.attempt _ (by simpa using hallowed))
    · exact .bind h.trans (h.attemptSource _ _ _) fun ok => .ite (.pure h.refl _) (ih _ _)

theorem FetchClosed.settle (h : FetchClosed limits R) (hash : Hash) (fetchLimits : FetchLimits) :
    Keeps R (settle w limits hash fetchLimits) := by
  refine .bind h.trans (.get h.refl) fun s => ?_
  split
  · exact .pure h.refl _
  · exact .throw h.refl _
  · exact h.populate _ _ _ _ _

theorem FetchClosed.fetchBlob (h : FetchClosed limits R) (hash : Hash) (fetchLimits : FetchLimits) :
    Keeps R (fetchBlob w limits hash fetchLimits) := by
  have hlease : Keeps R (lease w hash) := .bind h.trans (.get h.refl) fun s => refuse_keeps h.refl _ _
  have hensure : Keeps R (ensureStored w limits hash fetchLimits) :=
    .bind h.trans (.get h.refl) fun s =>
      .ite (.pure h.refl _) (.bind h.trans (h.settle _ _) fun _ => hlease)
  exact .bind h.trans hensure fun _ => .bind h.trans (.get h.refl) fun s => .pure h.refl _

theorem FetchClosed.fetch (h : FetchClosed limits R) (hash : Hash) (declaredSize : Option ℕ)
    (transferCeiling : ℕ) : Keeps R (fetch w limits hash declaredSize transferCeiling) := by
  have hacquire : Keeps R (acquire w limits) := debit_keeps h.read fun s _ => h.read s
  refine .bind h.trans (refuse_keeps h.refl _ _) fun _ => .bind h.trans hacquire fun _ =>
    .bind h.trans (.get h.refl) fun s => .bind h.trans (refuse_keeps h.refl _ _) fun _ => ?_
  exact h.fetchBlob _ _

theorem decodeManifest_keeps (hrefl : ∀ s, R s s) (hash : Hash) : Keeps R (decodeManifest w hash) := by
  rw [decodeManifest]
  split
  · exact .pure hrefl _
  · exact .throw hrefl _

theorem FetchClosed.loadManifest (h : FetchClosed limits R) (hash : Hash) :
    Keeps R (loadManifest w limits hash) := by
  refine .bind h.trans (.get h.refl) fun s => ?_
  split
  · exact decodeManifest_keeps h.refl hash
  · exact .throw h.refl _
  · exact .bind h.trans (h.fetch _ _ _) fun blob => .bind h.trans (refuse_keeps h.refl _ _) fun _ =>
      decodeManifest_keeps h.refl hash

theorem LoadClosed.visitNode (h : LoadClosed limits R) (hash : Hash) :
    Keeps R (visitNode w limits hash) := by
  refine debit_keeps h.read fun s hallowed => ?_
  split_ifs with hmem
  · exact h.read s
  · refine h.trans _ _ _ (h.read s) (h.node _ hash hmem ?_)
    simpa [show hash ∉ s.nodes from hmem] using hallowed

theorem visitNode_ok {hash : Hash} {s t : Session} {a : Unit}
    (h : visitNode w limits hash s = .ok a t) : hash ∈ t.nodes := by
  rw [(debit_ok h).2]
  split_ifs with hmem
  · exact hmem
  · exact List.mem_cons_self ..

theorem nodes_fetchClosed : FetchClosed limits fun s t => t.nodes = s.nodes where
  refl := fun _ => rfl
  trans := fun _ _ _ h h' => h'.trans h
  read := fun _ => rfl
  attempt := fun _ _ => rfl
  transfer := fun _ _ _ => rfl
  admits := fun _ _ => rfl

theorem fetch_nodes {hash : Hash} {declaredSize : Option ℕ} {transferCeiling : ℕ} {s t : Session}
    {blob : VerifiedBlob (w.content hash)}
    (h : fetch w limits hash declaredSize transferCeiling s = .ok blob t) : t.nodes = s.nodes := by
  have hkept : (final (fetch w limits hash declaredSize transferCeiling) s).nodes = s.nodes :=
    nodes_fetchClosed.fetch hash declaredSize transferCeiling s
  rwa [final_ok h] at hkept

theorem loadManifest_nodes {hash : Hash} {decoded : ValidatedManifest} {s t : Session}
    (h : loadManifest w limits hash s = .ok decoded t) : t.nodes = s.nodes := by
  have hkept : (final (loadManifest w limits hash) s).nodes = s.nodes :=
    nodes_fetchClosed.loadManifest hash s
  rwa [final_ok h] at hkept

theorem LoadClosed.manifestOf (h : LoadClosed limits R) (hash : Hash) :
    Keeps R (manifestOf w limits hash) := by
  refine .bind h.trans (.get h.refl) fun s => .ite ?_ ?_
  · exact .bind h.trans (decodeManifest_keeps h.refl hash) fun decoded => .pure h.refl _
  · intro s
    refine Keeps.bind_at h.trans (h.visitNode hash s) fun _ u hvisit => ?_
    refine Keeps.bind_at h.trans (h.loadManifest hash u) fun decoded u' hload => ?_
    have hdebit : Keeps R (debitDecoded w limits decoded.decodedBytes) :=
      debit_keeps h.read fun s hallowed =>
        h.trans _ _ _ (h.read s) (h.decode _ _ (by simpa using hallowed))
    refine Keeps.bind_at h.trans (hdebit u') fun _ v hdecoded => h.manifest v hash ?_
    rw [(debit_ok hdecoded).2]
    exact (loadManifest_nodes hload).symm ▸ visitNode_ok hvisit

end Changes

section Manifests

variable {w limits} {hash : Hash} {s t : Session}

theorem decodeManifest_ok {decoded : ValidatedManifest}
    (h : decodeManifest w hash s = .ok decoded t) : w.manifest hash = some decoded ∧ t = s := by
  rw [decodeManifest] at h
  cases hmanifest : w.manifest hash with
  | some found =>
    rw [hmanifest] at h
    obtain ⟨rfl, rfl⟩ := EStateM.Result.ok.inj h
    exact ⟨rfl, rfl⟩
  | none =>
    rw [hmanifest] at h
    exact nomatch h

theorem loadManifest_ok {decoded : ValidatedManifest}
    (h : loadManifest w limits hash s = .ok decoded t) : w.manifest hash = some decoded := by
  rw [loadManifest, get_bind] at h
  rcases hloaded : w.loaded s hash with _ | (error | _)
  · rw [hloaded] at h
    obtain ⟨_, _, -, h⟩ := bind_ok.mp h
    obtain ⟨_, _, -, h⟩ := bind_ok.mp h
    exact (decodeManifest_ok h).1
  · rw [hloaded] at h
    exact nomatch h
  · rw [hloaded] at h
    exact (decodeManifest_ok h).1

theorem manifestOf_ok {manifest : Manifest} (h : manifestOf w limits hash s = .ok manifest t) :
    ∃ decoded, w.manifest hash = some decoded ∧ decoded.manifest = manifest := by
  rw [manifestOf, get_bind] at h
  split_ifs at h
  · obtain ⟨decoded, u, hdecoded, h⟩ := bind_ok.mp h
    exact ⟨decoded, (decodeManifest_ok hdecoded).1, (EStateM.Result.ok.inj h).1⟩
  · obtain ⟨_, _, -, h⟩ := bind_ok.mp h
    obtain ⟨decoded, u, hdecoded, h⟩ := bind_ok.mp h
    obtain ⟨_, _, -, h⟩ := bind_ok.mp h
    obtain ⟨_, _, -, h⟩ := bind_ok.mp h
    exact ⟨decoded, loadManifest_ok hdecoded, (EStateM.Result.ok.inj h).1⟩

theorem manifestOf_mem {manifest : Manifest} (h : manifestOf w limits hash s = .ok manifest t) :
    hash ∈ t.manifests := by
  rw [manifestOf, get_bind] at h
  split_ifs at h with hmem
  · obtain ⟨decoded, u, hdecoded, h⟩ := bind_ok.mp h
    obtain ⟨-, rfl⟩ := EStateM.Result.ok.inj h
    exact (decodeManifest_ok hdecoded).2 ▸ hmem
  · obtain ⟨_, _, -, h⟩ := bind_ok.mp h
    obtain ⟨_, _, -, h⟩ := bind_ok.mp h
    obtain ⟨_, _, -, h⟩ := bind_ok.mp h
    obtain ⟨_, v, hpush, h⟩ := bind_ok.mp h
    obtain ⟨-, rfl⟩ := EStateM.Result.ok.inj h
    obtain ⟨-, rfl⟩ := EStateM.Result.ok.inj hpush
    exact List.mem_cons_self ..

end Manifests

section Endings

variable {w limits}

theorem debit_avoids (allowed : Session → Bool) (message : String) (update : Session → Session) :
    Avoids .spinning (debit w limits allowed message update) := by
  intro s t h
  rw [debit] at h
  split_ifs at h
  · exact nomatch h
  · exact nomatch h

theorem refuse_avoids (c : Bool) {error : ReadError} (h : error ≠ .spinning) :
    Avoids .spinning (refuse c error) :=
  .ite (.throw h) (.pure _)

theorem succeeds_avoids (p : Program Unit) : Avoids .spinning (succeeds p) := by
  intro s t h
  rw [succeeds] at h
  cases hp : p s with
  | ok a u => simp [hp] at h
  | error e u => simp [hp] at h

theorem receive_avoids (fetchLimits : FetchLimits) (pieces : List (Option Bytes)) (received : Bytes) :
    Avoids .spinning (receive w limits fetchLimits pieces received) := by
  induction pieces generalizing received with
  | nil => exact .pure _
  | cons piece rest ih =>
    rcases piece with - | piece
    · exact .pure _
    · exact .bind (succeeds_avoids _) fun ok => .ite (.ite (.pure _) (ih _)) (.pure _)

theorem attemptSource_avoids (hash : Hash) (fetchLimits : FetchLimits) (source : Source) :
    Avoids .spinning (attemptSource w limits hash fetchLimits source) := by
  refine .ite (.pure _) (.bind (receive_avoids _ _ _) fun received => .ite ?_ (.pure _))
  exact .bind (fun s t h => nomatch h) fun _ => .pure _

theorem populate_avoids (hash : Hash) (fetchLimits : FetchLimits) (sources : List Source)
    (attempts : ℕ) (failures : List String) :
    Avoids .spinning (populate w limits hash fetchLimits sources attempts failures) := by
  induction sources generalizing attempts failures with
  | nil => exact .throw nofun
  | cons source rest ih =>
    refine .ite (.throw nofun) (.ite (ih _ _) (.bind (debit_avoids _ _ _) fun _ => ?_))
    exact .bind (attemptSource_avoids _ _ _) fun ok => .ite (.pure _) (ih _ _)

theorem settle_avoids (hash : Hash) (fetchLimits : FetchLimits) :
    Avoids .spinning (settle w limits hash fetchLimits) := by
  intro s t h
  rw [settle, get_bind] at h
  rcases hinflight : w.inflight s hash with _ | (error | _)
  · rw [hinflight] at h
    exact populate_avoids _ _ _ _ _ s t h
  · rw [hinflight] at h
    exact w.inflight_settles s hash (by rw [hinflight, (EStateM.Result.error.inj h).1])
  · rw [hinflight] at h
    exact nomatch h

theorem fetch_avoids (hash : Hash) (declaredSize : Option ℕ) (transferCeiling : ℕ) :
    Avoids .spinning (fetch w limits hash declaredSize transferCeiling) := by
  have hlease : Avoids .spinning (lease w hash) := .bind .get fun s => refuse_avoids _ nofun
  have hstored (fetchLimits : FetchLimits) :
      Avoids .spinning (ensureStored w limits hash fetchLimits) :=
    .bind .get fun s => .ite (.pure _) (.bind (settle_avoids _ _) fun _ => hlease)
  refine .bind (refuse_avoids _ nofun) fun _ => .bind (debit_avoids _ _ _) fun _ => .bind .get fun s =>
    .bind (refuse_avoids _ nofun) fun _ => .bind (hstored _) fun _ => .bind .get fun t => .pure _

theorem decodeManifest_avoids (hash : Hash) : Avoids .spinning (decodeManifest w hash) := by
  rw [decodeManifest]
  split
  · exact .pure _
  · exact .throw nofun

theorem loadManifest_avoids (hash : Hash) : Avoids .spinning (loadManifest w limits hash) := by
  intro s t h
  rw [loadManifest, get_bind] at h
  rcases hloaded : w.loaded s hash with _ | (error | _)
  · rw [hloaded] at h
    refine Avoids.bind (fetch_avoids _ _ _) (fun blob => ?_) s t h
    exact .bind (refuse_avoids _ nofun) fun _ => decodeManifest_avoids _
  · rw [hloaded] at h
    exact w.loaded_settles s hash (by rw [hloaded, (EStateM.Result.error.inj h).1])
  · rw [hloaded] at h
    exact decodeManifest_avoids _ s t h

theorem manifestOf_avoids (hash : Hash) : Avoids .spinning (manifestOf w limits hash) := by
  refine .bind .get fun s => .ite (.bind (decodeManifest_avoids _) fun decoded => .pure _) ?_
  refine .bind (debit_avoids _ _ _) fun _ => .bind (loadManifest_avoids _) fun decoded => ?_
  exact .bind (debit_avoids _ _ _) fun _ => .bind (fun s t h => nomatch h) fun _ => .pure _

end Endings

end NixstrCache.Hashtree.Reader
