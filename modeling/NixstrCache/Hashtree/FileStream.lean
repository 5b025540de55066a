import Mathlib.Data.Prod.Lex
import NixstrCache.Lib.Runs
import NixstrCache.Hashtree.FilePlan

/-!
The resolver and the bodies that it serves.

The body of a file opens its blobs one after the other.  Each of them is read through a stream of its
own, which reads ahead into a queue, counts what it has read and debits the output.  The two streams
take their steps in any order.
-/

namespace NixstrCache.Hashtree.Reader

open Protocol Persistence Programs Runs

inductive StreamState where
  | readable
  | closed
  | errored
  | cancelled
deriving DecidableEq, Repr

structure BlobStream where
  hash : Hash
  /-- What the file still gives. -/
  pieces : List Bytes
  broken : Bool
  expected : ℕ
  emitted : ℕ
  queue : List Bytes
  state : StreamState
deriving DecidableEq, Repr

/-- The body of a response: the blob that is open, and the chunks that follow. -/
structure FileStream where
  chunks : List Chunk
  reader : Option BlobStream
  enqueued : Bytes
  state : StreamState
deriving DecidableEq, Repr

inductive Method where
  | get
  | head
deriving DecidableEq, Repr

structure ResolvedPath where
  hash : Hash
  size : ℕ
  type : LinkType
  body : Option FileStream
deriving DecidableEq, Repr

variable (w : World) (limits : TraversalLimits)

section Model

def cleanupStream {hash : Hash} (blob : VerifiedBlob (w.content hash)) (expected : ℕ) : BlobStream :=
  ⟨hash, blob.pieces, blob.broken, expected, 0, [], .readable⟩

def rawStream (hash : Hash) (size : ℕ) : Program BlobStream := do
  let blob ← fetch w limits hash (some size) limits.maxBlobTransferBytes
  pure (cleanupStream w blob size)

def BlobStream.fail (b : BlobStream) : BlobStream :=
  { b with pieces := [], queue := [], state := .errored }

/-- `pull` of a blob's stream. -/
def BlobStream.pull (b : BlobStream) (s : Session) : BlobStream × Session :=
  match b.state, b.pieces with
  | .readable, [] =>
    if b.broken ∨ b.emitted ≠ b.expected then (b.fail, s) else ({ b with state := .closed }, s)
  | .readable, piece :: rest =>
    if b.expected < b.emitted + piece.length then (b.fail, s)
    else
      match debitOutput w limits piece.length s with
      | .ok _ t =>
        ({ b with pieces := rest, emitted := b.emitted + piece.length, queue := b.queue ++ [piece] }, t)
      | .error _ t => (b.fail, t)
  | _, _ => (b, s)

/-- One turn of the loop in `pull` of a file's stream. -/
def FileStream.pull (f : FileStream) (s : Session) : FileStream × Session :=
  if f.state ≠ .readable then (f, s)
  else match f.reader with
    | none =>
      match f.chunks with
      | [] => ({ f with state := .closed }, s)
      | chunk :: rest =>
        match rawStream w limits chunk.hash chunk.size s with
        | .ok b t => ({ f with chunks := rest, reader := some b }, t)
        | .error _ t => ({ f with chunks := rest, state := .errored }, t)
    | some b =>
      match b.queue with
      | piece :: rest =>
        ({ f with reader := some { b with queue := rest }, enqueued := f.enqueued ++ piece }, s)
      | [] =>
        if b.state = .closed then ({ f with reader := none }, s)
        else if b.state = .readable then (f, s)
        else ({ f with reader := none, state := .errored }, s)

inductive StreamEvent where
  /-- The blob that is open is read ahead. -/
  | read
  | pull
  | cancel
deriving DecidableEq, Repr

def streamStep (x : FileStream × Session) : StreamEvent → FileStream × Session
  | .read =>
    match x.1.reader with
    | some b => ({ x.1 with reader := some (b.pull w limits x.2).1 }, (b.pull w limits x.2).2)
    | none => x
  | .pull => x.1.pull w limits x.2
  | .cancel =>
    if x.1.state = .readable then ({ x.1 with reader := none, state := .cancelled }, x.2) else x

def rawBody (b : BlobStream) : FileStream :=
  ⟨[], some b, [], .readable⟩

def fileStream (chunks : List Chunk) : FileStream :=
  ⟨chunks, none, [], .readable⟩

def typeDiffers (expected : LinkType) (type : ManifestType) : Bool :=
  (expected = .directory ∧ type ≠ .directory) ∨ (expected = .fanout ∧ type ≠ .fanout)

/-- The link for the next segment, with the segments that are left below it. -/
def nextLink (manifest : Manifest) : List String → Option (ManifestLink × List String)
  | [] => none
  | segment :: rest =>
    if manifest.type = .fanout then
      (childFor unitsWithin manifest.links segment).map fun link => (link, segment :: rest)
    else
      ((entryNamed manifest.links segment).filter fun link => rest = [] ∨ isTree link.type).map
        fun link => (link, rest)

/-- The loop of `resolve` down to the link of the last segment. -/
def descend (path : String) : ℕ → ℕ → Hash → LinkType → List String → Program ManifestLink
  | 0, _, _, _, _ => throw .spinning
  | fuel + 1, depth, hash, expected, segments => do
    checkDepth w limits depth
    let manifest ← manifestOf w limits hash
    takeUp hash depth
    refuse (typeDiffers expected manifest.type)
      (.failed "linked manifest type does not match authenticated link")
    debitLinks w limits manifest.links.length
    match nextLink manifest segments with
    | none => throw (.verifiedAbsent path)
    | some (link, []) => pure link
    | some (link, segment :: rest) => descend path fuel (depth + 1) link.hash link.type (segment :: rest)

theorem nextLink_mem {manifest : Manifest} {segments rest : List String} {link : ManifestLink}
    (h : nextLink manifest segments = some (link, rest)) : link ∈ manifest.links := by
  rcases segments with - | ⟨segment, left⟩
  · exact nomatch h
  · rw [nextLink] at h
    split_ifs at h
    · obtain ⟨found, hfound, heq⟩ := Option.map_eq_some_iff.mp h
      obtain ⟨rfl, -⟩ := Prod.mk.inj heq
      exact (childFor_eq_some hfound).1
    · obtain ⟨found, hfound, heq⟩ := Option.map_eq_some_iff.mp h
      obtain ⟨rfl, -⟩ := Prod.mk.inj heq
      exact (entryNamed_eq_some (Option.filter_eq_some_iff.mp hfound).1).1

/-- What the last link is served as. -/
def serveLink (method : Method) (link : ManifestLink) : Program ResolvedPath :=
  match link.type with
  | .blob =>
    match method with
    | .head => pure ⟨link.hash, link.size, link.type, none⟩
    | .get => do
      let body ← rawStream w limits link.hash link.size
      pure ⟨link.hash, link.size, link.type, some (rawBody body)⟩
  | .file => do
    let plan ← filePlan w limits link.hash link.size
    match method with
    | .head => pure ⟨link.hash, plan.size, link.type, none⟩
    | .get => pure ⟨link.hash, plan.size, link.type, some (fileStream plan.chunks)⟩
  | _ => throw (.failed "GET of a directory is unsupported")

/-- `NarResolutionFailed` instead of an error of a blob with the sources that failed. -/
def namingPath {α : Type} (path : String) (p : Program α) : Program α := fun s =>
  match p s with
  | .error (.unavailable origins) t =>
    if origins = [] then .error (.unavailable []) t else .error (.narResolutionFailed path origins) t
  | result => result

def resolve (root : Hash) (path : String) (method : Method) : Program ResolvedPath := do
  refuse (segmentsOf path = []) (.verifiedAbsent path)
  let link ← descend w limits path (limits.maxDepth + 1) 1 root .directory (segmentsOf path)
  namingPath path (serveLink w limits method link)

end Model

section Bodies

variable {w limits} {chunks : List Chunk} {f : FileStream} {b : BlobStream} {chunk : Chunk}
  {delivered : Bytes} {s : Session}

def bytesOf (w : World) (chunks : List Chunk) : Bytes :=
  chunks.flatMap fun chunk => w.content chunk.hash

def Exact (w : World) (chunks : List Chunk) : Prop :=
  ∀ chunk ∈ chunks, (w.content chunk.hash).length = chunk.size

theorem Exact.length (h : Exact w chunks) : (bytesOf w chunks).length = totalSize chunks := by
  induction chunks with
  | nil => rfl
  | cons chunk chunks ih =>
    have hfirst := h chunk (List.mem_cons_self ..)
    have hrest := ih fun other hother => h other (List.mem_cons_of_mem _ hother)
    rw [bytesOf, List.flatMap_cons, List.length_append, hfirst]
    simpa [totalSize, bytesOf] using hrest

/-- A stream of a blob that has given these bytes so far. -/
structure Reads (w : World) (chunk : Chunk) (delivered : Bytes) (b : BlobStream) : Prop where
  expected : b.expected = chunk.size
  short : (delivered ++ b.queue.flatten).length ≤ chunk.size
  reads : (delivered ++ b.queue.flatten) ++ b.pieces.flatten <+: w.content chunk.hash
  whole : b.state = .readable → b.broken = false →
    (delivered ++ b.queue.flatten) ++ b.pieces.flatten = w.content chunk.hash
  counted : b.state = .readable → b.emitted = (delivered ++ b.queue.flatten).length
  closed : b.state = .closed → delivered ++ b.queue.flatten = w.content chunk.hash ∧
    (w.content chunk.hash).length = chunk.size

theorem cleanupStream_reads (chunk : Chunk) (blob : VerifiedBlob (w.content chunk.hash)) :
    Reads w chunk [] (cleanupStream w blob chunk.size) where
  expected := rfl
  short := by simp [cleanupStream]
  reads := by simpa [cleanupStream] using blob.reads
  whole := by
    intro _ hbroken
    simpa [cleanupStream] using blob.whole hbroken
  counted := fun _ => rfl
  closed := fun h => nomatch h

theorem Reads.fail (h : Reads w chunk delivered b) : Reads w chunk delivered b.fail where
  expected := h.expected
  short := by
    refine le_trans ?_ h.short
    simp [BlobStream.fail]
  reads := by
    refine List.IsPrefix.trans ?_ h.reads
    simp [BlobStream.fail, List.append_assoc]
  whole := fun hstate => nomatch hstate
  counted := fun hstate => nomatch hstate
  closed := fun hstate => nomatch hstate

inductive Pulled (w : World) (limits : TraversalLimits) (b : BlobStream) (s : Session) :
    BlobStream × Session → Prop
  | settled (hstate : b.state ≠ .readable) : Pulled w limits b s (b, s)
  | failed (t : Session) (hstate : b.state = .readable)
      (hsame : t = s ∨ t = { s with readings := s.readings + 1 }) : Pulled w limits b s (b.fail, t)
  | ended (hstate : b.state = .readable) (hpieces : b.pieces = []) (hbroken : b.broken = false)
      (hemitted : b.emitted = b.expected) : Pulled w limits b s ({ b with state := .closed }, s)
  | given (piece : Bytes) (rest : List Bytes) (t : Session) (hstate : b.state = .readable)
      (hpieces : b.pieces = piece :: rest) (hshort : b.emitted + piece.length ≤ b.expected)
      (hdebit : debitOutput w limits piece.length s = .ok () t) :
      Pulled w limits b s
        ({ b with pieces := rest, emitted := b.emitted + piece.length, queue := b.queue ++ [piece] }, t)

theorem BlobStream.pull_cases (w : World) (limits : TraversalLimits) (b : BlobStream) (s : Session) :
    Pulled w limits b s (b.pull w limits s) := by
  rcases b with ⟨hash, pieces, broken, expected, emitted, queue, state⟩
  cases state with
  | closed => exact .settled nofun
  | errored => exact .settled nofun
  | cancelled => exact .settled nofun
  | readable =>
    rcases pieces with - | ⟨piece, rest⟩
    · by_cases hbad : broken ∨ emitted ≠ expected
      · rw [BlobStream.pull, if_pos hbad]
        exact .failed s rfl (Or.inl rfl)
      · rw [BlobStream.pull, if_neg hbad]
        rw [not_or, Bool.not_eq_true, not_not] at hbad
        exact .ended rfl rfl hbad.1 hbad.2
    · by_cases hlong : expected < emitted + piece.length
      · simp only [BlobStream.pull, hlong, if_true]
        exact .failed s rfl (Or.inl rfl)
      · simp only [BlobStream.pull, hlong, if_false]
        cases hdebit : debitOutput w limits piece.length s with
        | ok a t => exact .given piece rest t rfl rfl (not_lt.mp hlong) hdebit
        | error e t => exact .failed t rfl (Or.inr (debit_error hdebit))

theorem Reads.pull (h : Reads w chunk delivered b) :
    Reads w chunk delivered (b.pull w limits s).1 := by
  have hcases := b.pull_cases w limits s
  generalize b.pull w limits s = result at hcases
  cases hcases with
  | settled => exact h
  | failed => exact h.fail
  | ended hstate hpieces hbroken hemitted =>
    have hwhole := h.whole hstate hbroken
    rw [hpieces, List.flatten_nil, List.append_nil] at hwhole
    have hsize : (w.content chunk.hash).length = chunk.size := by
      rw [← hwhole, ← h.counted hstate, hemitted, h.expected]
    exact ⟨h.expected, h.short, h.reads, nofun, nofun, fun _ => ⟨hwhole, hsize⟩⟩
  | given piece rest t hstate hpieces hshort =>
    have hflat : delivered ++ (b.queue ++ [piece]).flatten = (delivered ++ b.queue.flatten) ++ piece := by
      simp
    have hsame : ((delivered ++ b.queue.flatten) ++ piece) ++ rest.flatten =
        (delivered ++ b.queue.flatten) ++ b.pieces.flatten := by
      simp [hpieces]
    refine ⟨h.expected, ?_, ?_, ?_, ?_, fun hclosed => ?_⟩
    · rw [hflat, List.length_append, ← h.counted hstate, ← h.expected]
      exact hshort
    · rw [hflat, hsame]
      exact h.reads
    · intro _ hbroken
      rw [hflat, hsame]
      exact h.whole hstate hbroken
    · intro _
      rw [hflat, List.length_append, ← h.counted hstate]
    · exact absurd (hstate.symm.trans hclosed) nofun

theorem Reads.take {piece : Bytes} {rest : List Bytes} (h : Reads w chunk delivered b)
    (hqueue : b.queue = piece :: rest) : Reads w chunk (delivered ++ piece) { b with queue := rest } := by
  have hflat : (delivered ++ piece) ++ rest.flatten = delivered ++ b.queue.flatten := by
    rw [hqueue, List.flatten_cons, List.append_assoc]
  refine ⟨h.expected, ?_, ?_, ?_, ?_, ?_⟩
  · rw [hflat]
    exact h.short
  · rw [hflat]
    exact h.reads
  · rw [hflat]
    exact h.whole
  · rw [hflat]
    exact h.counted
  · rw [hflat]
    exact h.closed

/-- What a body has served of its chunks. -/
inductive Serves (w : World) (chunks : List Chunk) : FileStream → Prop
  | idle (done left : List Chunk) (state : StreamState) (hchunks : chunks = done ++ left)
      (hexact : Exact w done) (hclosed : state = .closed → left = []) :
      Serves w chunks ⟨left, none, bytesOf w done, state⟩
  | busy (done left : List Chunk) (chunk : Chunk) (b : BlobStream) (delivered : Bytes)
      (hchunks : chunks = done ++ chunk :: left) (hexact : Exact w done)
      (hreads : Reads w chunk delivered b) :
      Serves w chunks ⟨left, some b, bytesOf w done ++ delivered, .readable⟩
  | ended (left : List Chunk) (enqueued : Bytes) (state : StreamState)
      (hstate : state = .errored ∨ state = .cancelled) (hinitial : enqueued <+: bytesOf w chunks)
      (hshort : enqueued.length ≤ totalSize chunks) :
      Serves w chunks ⟨left, none, enqueued, state⟩

theorem totalSize_snoc (done left : List Chunk) (chunk : Chunk) :
    totalSize (done ++ chunk :: left) = totalSize done + chunk.size + totalSize left := by
  simp [totalSize, Nat.add_assoc]

theorem bytesOf_append (done left : List Chunk) :
    bytesOf w (done ++ left) = bytesOf w done ++ bytesOf w left := by
  simp [bytesOf]

theorem Reads.taken (h : Reads w chunk delivered b) :
    delivered <+: w.content chunk.hash ∧ delivered.length ≤ chunk.size := by
  constructor
  · exact (List.prefix_append _ _).trans ((List.prefix_append _ _).trans h.reads)
  · refine le_trans ?_ h.short
    simp

theorem Serves.bounded (h : Serves w chunks f) :
    f.enqueued <+: bytesOf w chunks ∧ f.enqueued.length ≤ totalSize chunks ∧
      (f.state = .closed → f.enqueued = bytesOf w chunks ∧ f.enqueued.length = totalSize chunks) := by
  cases h with
  | idle done left state hchunks hexact hclosed =>
    refine ⟨?_, ?_, fun hstate => ?_⟩
    · rw [hchunks, bytesOf_append]
      exact List.prefix_append _ _
    · rw [hexact.length, hchunks, totalSize_append]
      exact Nat.le_add_right _ _
    · obtain rfl := hclosed hstate
      rw [List.append_nil] at hchunks
      rw [hchunks]
      exact ⟨rfl, hexact.length⟩
  | busy done left chunk b delivered hchunks hexact hreads =>
    obtain ⟨hinitial, hshort⟩ := hreads.taken
    refine ⟨?_, ?_, nofun⟩
    · rw [hchunks, bytesOf_append, List.prefix_append_right_inj, bytesOf, List.flatMap_cons]
      exact hinitial.trans (List.prefix_append _ _)
    · rw [List.length_append, hexact.length, hchunks, totalSize_snoc]
      omega
  | ended left enqueued state hstate hinitial hshort =>
    refine ⟨hinitial, hshort, fun hclosed => ?_⟩
    rcases hstate with hstate | hstate
    · exact absurd (hstate.symm.trans hclosed) nofun
    · exact absurd (hstate.symm.trans hclosed) nofun

theorem Serves.stop (h : Serves w chunks f) {state : StreamState} (left : List Chunk)
    (hstate : state = .errored ∨ state = .cancelled) :
    Serves w chunks { f with chunks := left, reader := none, state := state } :=
  .ended left f.enqueued state hstate h.bounded.1 h.bounded.2.1

theorem Exact.snoc {done : List Chunk} (h : Exact w done)
    (hsize : (w.content chunk.hash).length = chunk.size) : Exact w (done ++ [chunk]) := by
  intro other hother
  rcases List.mem_append.mp hother with hother | hother
  · exact h other hother
  · rw [List.mem_singleton.mp hother, hsize]

theorem rawStream_ok {hash : Hash} {size : ℕ} {t : Session}
    (h : rawStream w limits hash size s = .ok b t) : Reads w ⟨hash, size⟩ [] b := by
  obtain ⟨blob, u, -, h⟩ := bind_ok.mp h
  obtain ⟨rfl, rfl⟩ := EStateM.Result.ok.inj h
  exact cleanupStream_reads ⟨hash, size⟩ blob

theorem Serves.pull (h : Serves w chunks f) : Serves w chunks (f.pull w limits s).1 := by
  cases h with
  | ended left enqueued state hstate hinitial hshort =>
    rcases hstate with rfl | rfl
    · exact .ended left enqueued _ (Or.inl rfl) hinitial hshort
    · exact .ended left enqueued _ (Or.inr rfl) hinitial hshort
  | idle done left state hchunks hexact hclosed =>
    by_cases hstate : state = .readable
    · subst hstate
      have hserves : Serves w chunks ⟨left, none, bytesOf w done, .readable⟩ :=
        .idle done left _ hchunks hexact hclosed
      rcases left with - | ⟨chunk, left⟩
      · exact .idle done [] _ hchunks hexact fun _ => rfl
      · simp only [FileStream.pull, ne_eq, not_true, if_false]
        cases hraw : rawStream w limits chunk.hash chunk.size s with
        | ok b t =>
          have hbusy := Serves.busy done left chunk b [] hchunks hexact (rawStream_ok hraw)
          rwa [List.append_nil] at hbusy
        | error e t => exact hserves.stop left (Or.inl rfl)
    · simp only [FileStream.pull, ne_eq, hstate, not_false_eq_true, if_true]
      exact .idle done left state hchunks hexact hclosed
  | busy done left chunk b delivered hchunks hexact hreads =>
    have hserves := Serves.busy done left chunk b delivered hchunks hexact hreads
    simp only [FileStream.pull, ne_eq, not_true, if_false]
    cases hqueue : b.queue with
    | cons piece rest =>
      dsimp only
      rw [List.append_assoc]
      exact .busy done left chunk _ _ hchunks hexact (hreads.take hqueue)
    | nil =>
      dsimp only
      split_ifs with hclosed hreadable
      · obtain ⟨hwhole, hsize⟩ := hreads.closed hclosed
        rw [hqueue, List.flatten_nil, List.append_nil] at hwhole
        have hdone : bytesOf w done ++ delivered = bytesOf w (done ++ [chunk]) := by
          rw [bytesOf_append, hwhole]
          simp [bytesOf]
        rw [hdone]
        exact .idle (done ++ [chunk]) left _ (by simp [hchunks]) (hexact.snoc hsize) nofun
      · exact hserves
      · exact hserves.stop left (Or.inl rfl)

theorem streamStep_serves {x : FileStream × Session} (h : Serves w chunks x.1) (event : StreamEvent) :
    Serves w chunks (streamStep w limits x event).1 := by
  obtain ⟨f, s⟩ := x
  cases event with
  | pull => exact Serves.pull h
  | cancel =>
    rw [streamStep]
    split_ifs
    · exact Serves.stop h _ (Or.inr rfl)
    · exact h
  | read =>
    cases h with
    | idle done left state hchunks hexact hclosed => exact .idle done left state hchunks hexact hclosed
    | ended left enqueued state hstate hinitial hshort =>
      exact .ended left enqueued state hstate hinitial hshort
    | busy done left chunk b delivered hchunks hexact hreads =>
      exact .busy done left chunk _ delivered hchunks hexact hreads.pull

theorem stream_serves (limits : TraversalLimits) {x : FileStream × Session} (h : Serves w chunks x.1)
    (events : List StreamEvent) : Serves w chunks (run (streamStep w limits) x events).1 := by
  induction events generalizing x with
  | nil => exact h
  | cons event events ih => exact ih (streamStep_serves h event)

end Bodies

section Progress

variable {w limits} {b : BlobStream} {s : Session} {x : FileStream × Session}

def BlobStream.work (b : BlobStream) : ℕ :=
  2 * b.pieces.length + b.queue.length + 1 + if b.state = .readable then 1 else 0

def FileStream.rank (f : FileStream) : ℕ ×ₗ ℕ :=
  toLex (f.chunks.length, (f.reader.map BlobStream.work).getD 0)

theorem pull_work (h : b.state = .readable) : (b.pull w limits s).1.work < b.work := by
  have hcases := b.pull_cases w limits s
  generalize b.pull w limits s = result at hcases
  cases hcases with
  | settled hstate => exact absurd h hstate
  | failed => simp [BlobStream.work, BlobStream.fail, h]
  | ended => simp [BlobStream.work, h]
  | given piece rest t hstate hpieces =>
    simp only [BlobStream.work, h, hpieces, List.length_cons, List.length_append, List.length_nil,
      if_true]
    omega

/-- One turn of a reader that wants more: the blob is read ahead, and the body pulls. -/
def turn (w : World) (limits : TraversalLimits) (x : FileStream × Session) : FileStream × Session :=
  run (streamStep w limits) x [.read, .pull]

theorem pull_rank (w : World) (limits : TraversalLimits) {f : FileStream} (s : Session)
    (h : f.state = .readable) :
    (f.pull w limits s).1.state ≠ .readable ∨ (f.pull w limits s).1.rank < f.rank ∨
      ((f.pull w limits s).1 = f ∧ ∃ b, f.reader = some b ∧ b.state = .readable) := by
  rcases f with ⟨chunks, reader, enqueued, state⟩
  obtain rfl : state = .readable := h
  rcases reader with - | b
  · rcases chunks with - | ⟨chunk, chunks⟩
    · exact Or.inl nofun
    · simp only [FileStream.pull, ne_eq, not_true, if_false]
      cases rawStream w limits chunk.hash chunk.size s with
      | ok b t =>
        refine Or.inr (Or.inl (Prod.Lex.toLex_lt_toLex.mpr (Or.inl ?_)))
        simp
      | error e t => exact Or.inl nofun
  · simp only [FileStream.pull, ne_eq, not_true, if_false]
    cases hqueue : b.queue with
    | cons piece rest =>
      refine Or.inr (Or.inl (Prod.Lex.toLex_lt_toLex.mpr (Or.inr ⟨rfl, ?_⟩)))
      simp [BlobStream.work, hqueue]
    | nil =>
      dsimp only
      split_ifs with hclosed hreadable
      · refine Or.inr (Or.inl (Prod.Lex.toLex_lt_toLex.mpr (Or.inr ⟨rfl, ?_⟩)))
        simp [BlobStream.work]
      · exact Or.inr (Or.inr ⟨rfl, b, rfl, hreadable⟩)
      · exact Or.inl nofun

theorem turn_rank (w : World) (limits : TraversalLimits) (h : x.1.state = .readable) :
    (turn w limits x).1.state ≠ .readable ∨ (turn w limits x).1.rank < x.1.rank := by
  obtain ⟨f, s⟩ := x
  have hread : (streamStep w limits (f, s) .read).1.state = .readable ∧
      ((streamStep w limits (f, s) .read).1.rank < f.rank ∨
        (streamStep w limits (f, s) .read = (f, s) ∧
          ∀ b, f.reader = some b → b.state ≠ .readable)) := by
    rcases f with ⟨chunks, - | b, enqueued, state⟩
    · exact ⟨h, Or.inr ⟨rfl, nofun⟩⟩
    · refine ⟨h, ?_⟩
      by_cases hb : b.state = .readable
      · refine Or.inl (Prod.Lex.toLex_lt_toLex.mpr (Or.inr ⟨rfl, ?_⟩))
        exact pull_work hb
      · refine Or.inr ⟨?_, fun other hother => (Option.some.inj hother) ▸ hb⟩
        have hcases := b.pull_cases w limits s
        rw [streamStep]
        dsimp only
        generalize b.pull w limits s = result at hcases
        cases hcases with
        | settled => rfl
        | failed t hstate => exact absurd hstate hb
        | ended hstate => exact absurd hstate hb
        | given piece rest t hstate => exact absurd hstate hb
  have hpull := pull_rank w limits (streamStep w limits (f, s) .read).2 hread.1
  change (FileStream.pull w limits _ _).1.state ≠ _ ∨ (FileStream.pull w limits _ _).1.rank < _
  rcases hread.2 with hless | ⟨hsame, hsettled⟩
  · rcases hpull with hpull | hpull | ⟨hpull, -⟩
    · exact Or.inl hpull
    · exact Or.inr (lt_trans hpull hless)
    · exact Or.inr (hpull.symm ▸ hless)
  · rw [hsame] at hpull ⊢
    rcases hpull with hpull | hpull | ⟨-, b, hb, hreadable⟩
    · exact Or.inl hpull
    · exact Or.inr hpull
    · exact absurd hreadable (hsettled b hb)

theorem stream_ends (x : FileStream × Session) :
    ∃ turns, ((turn w limits)^[turns] x).1.state ≠ .readable := by
  induction hrank : x.1.rank using WellFoundedLT.induction generalizing x with
  | _ rank ih =>
    by_cases h : x.1.state = .readable
    · rcases turn_rank w limits h with hended | hless
      · exact ⟨1, hended⟩
      · obtain ⟨turns, hturns⟩ := ih _ (hrank ▸ hless) _ rfl
        exact ⟨turns + 1, hturns⟩
    · exact ⟨0, h⟩

end Progress

section Resolution

variable {w limits} {s t : Session} {path : String} {found : ResolvedPath}

theorem namingPath_ok {α : Type} {p : Program α} {a : α} :
    namingPath path p s = .ok a t ↔ p s = .ok a t := by
  rw [namingPath]
  rcases p s with ⟨b, u⟩ | ⟨e, u⟩
  · rfl
  · cases e with
    | unavailable origins =>
      dsimp only
      split_ifs
      · simp
      · simp
    | _ => simp

/-- What a path is served as. -/
structure Served (w : World) (limits : TraversalLimits) (found : ResolvedPath) (chunks : List Chunk)
    (body : FileStream) : Prop where
  response : found.body = some body
  size : found.size = totalSize chunks
  serves : Serves w chunks body
  blob : found.type = .blob → chunks = [⟨found.hash, found.size⟩]
  file : found.type = .file → ∀ height, limits.maxDepth < height →
    Planned w height found.hash ⟨found.size, chunks⟩

theorem serveLink_ok {link : ManifestLink} (h : serveLink w limits .get link s = .ok found t) :
    (∃ chunks body, Served w limits found chunks body) ∧
      ∃ u, serveLink w limits .head link s = .ok { found with body := none } u := by
  unfold serveLink at h ⊢
  cases htype : link.type with
  | blob =>
    rw [htype] at h
    obtain ⟨b, u, hraw, h⟩ := bind_ok.mp h
    obtain ⟨rfl, rfl⟩ := EStateM.Result.ok.inj h
    have hbusy := Serves.busy [] [] ⟨link.hash, link.size⟩ b [] rfl
      (fun _ h => absurd h List.not_mem_nil) (rawStream_ok hraw)
    exact ⟨⟨_, _, rfl, by simp [totalSize], hbusy, fun _ => rfl, (by simp)⟩, s, rfl⟩
  | file =>
    rw [htype] at h
    obtain ⟨plan, u, hplan, h⟩ := bind_ok.mp h
    obtain ⟨rfl, rfl⟩ := EStateM.Result.ok.inj h
    have hsize : plan.size = totalSize plan.chunks := (filePlan_ok hplan (Nat.lt_succ_self _)).1.size
    refine ⟨⟨plan.chunks, fileStream plan.chunks, rfl, hsize, ?_, (by simp), ?_⟩, u, ?_⟩
    · exact .idle [] plan.chunks _ rfl (fun _ h => absurd h List.not_mem_nil) (by simp)
    · exact fun _ height hheight => (filePlan_ok hplan hheight).1
    · exact bind_ok.mpr ⟨plan, u, hplan, rfl⟩
  | directory =>
    rw [htype] at h
    cases h
  | fanout =>
    rw [htype] at h
    cases h

theorem resolve_get {root : Hash} (h : resolve w limits root path .get s = .ok found t) :
    (∃ chunks body, Served w limits found chunks body) ∧
      ∃ u, resolve w limits root path .head s = .ok { found with body := none } u := by
  obtain ⟨_, u, hsegments, h⟩ := bind_ok.mp h
  obtain ⟨link, u', hlink, h⟩ := bind_ok.mp h
  obtain ⟨hserved, v, hhead⟩ := serveLink_ok (namingPath_ok.mp h)
  refine ⟨hserved, v, bind_ok.mpr ⟨_, u, hsegments, bind_ok.mpr ⟨link, u', hlink, ?_⟩⟩⟩
  exact namingPath_ok.mpr hhead

/-- A body gives exactly the size that has been announced, or no more than that and an error. -/
theorem body_exact {root : Hash} (h : resolve w limits root path .get s = .ok found t) :
    (∃ chunks body, Served w limits found chunks body ∧ ∀ session events,
      let x := run (streamStep w limits) (body, session) events
      x.1.enqueued <+: bytesOf w chunks ∧ x.1.enqueued.length ≤ found.size ∧
        (x.1.state = .closed → x.1.enqueued = bytesOf w chunks ∧ x.1.enqueued.length = found.size) ∧
          ∃ turns, ((turn w limits)^[turns] x).1.state ≠ .readable) ∧
      ∃ u, resolve w limits root path .head s = .ok { found with body := none } u := by
  obtain ⟨⟨chunks, body, hserved⟩, hhead⟩ := resolve_get h
  refine ⟨⟨chunks, body, hserved, fun session events => ?_⟩, hhead⟩
  have hinitial : Serves w chunks (body, session).1 := hserved.serves
  have hbounded := (stream_serves limits hinitial events).bounded
  rw [← hserved.size] at hbounded
  exact ⟨hbounded.1, hbounded.2.1, hbounded.2.2, stream_ends _⟩

def sampleBlob (content : Bytes) : VerifiedBlob content where
  pieces := [content]
  broken := false
  reads := by simp
  whole := by simp

def sampleLink (name : Option String) (hash : Hash) (size : ℕ) (type : LinkType) : ManifestLink :=
  ⟨hash, none, none, name, size, type⟩

/-- A directory with one file of two blobs. -/
def sampleDecode (bytes : Bytes) : Option ValidatedManifest :=
  if bytes = [0] then some ⟨⟨.directory, [sampleLink (some "a") [1] 3 .file]⟩, 1⟩
  else if bytes = [1] then
    some ⟨⟨.file, [sampleLink none [2] 1 .blob, sampleLink none [3, 3] 2 .blob]⟩, 1⟩
  else none

/-- Every blob has its hash as its content, and one source that gives what the store lacks. -/
def sampleWorld (stored : List Hash) : World where
  clock := fun _ => 0
  aborted := fun _ => false
  content := id
  decode := sampleDecode
  maxWireBytes := 100
  loaded := fun _ _ => none
  stored := fun s hash => hash ∈ stored ∨ hash ∈ s.admitted
  inflight := fun _ _ => none
  sources := fun _ hash => [⟨⟨"", "", .publisher, .publisher⟩, false,
    ⟨0, false, 200, .absent, [some hash]⟩, true⟩]
  leased := fun _ _ => true
  blob := fun _ hash => sampleBlob hash
  loaded_settles := nofun
  inflight_settles := nofun

def sampleLimits : TraversalLimits := ⟨4, 10, 10, 10, 10, 100, 100, 100, 1⟩

def samplePath : ResolvedPath :=
  ⟨[1], 3, .file, some (fileStream [⟨[2], 1⟩, ⟨[3, 3], 2⟩])⟩

theorem body_exact_sample : ∃ t,
    resolve (sampleWorld []) sampleLimits [0] "a" .get .initial = .ok samplePath t ∧
      ∃ u, resolve (sampleWorld []) sampleLimits [0] "a" .head .initial =
        .ok { samplePath with body := none } u := by
  have hget : returned (resolve (sampleWorld []) sampleLimits [0] "a" .get) .initial =
      some samplePath := by decide +kernel
  obtain ⟨t, hget⟩ := returned_eq_some.mp hget
  exact ⟨t, hget, (body_exact hget).2⟩

end Resolution

end NixstrCache.Hashtree.Reader
