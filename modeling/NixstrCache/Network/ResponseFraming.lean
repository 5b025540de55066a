import NixstrCache.Lib.Programs
import NixstrCache.Network.ResponseHead

/-!
The framing of a response.

The transport reads the head and the body of a response through a buffer, and compares the length of
what it has buffered with its ceilings.  What a peer sends is a list of bytes, which arrives in segments.
The grammar of responses speaks of the bytes alone, with the ceilings as a parameter.
-/

namespace NixstrCache.Network.Transport

open Persistence Programs

/-- The socket, what has been read from it and not been used, and where the body is. -/
structure Wire where
  conn : Segments UInt8
  remainder : Bytes
  emitted : ℕ
  chunkRemaining : ℕ

abbrev Program := EStateM FrameError Wire

def Wire.initial (conn : Segments UInt8) : Wire :=
  ⟨conn, [], 0, 0⟩

def Wire.pending (w : Wire) : Bytes :=
  w.remainder ++ w.conn.all

section Model

def headEnd : Bytes :=
  crlf ++ crlf

/-- `readHeaders`, with what has been read so far.  Only the places that end in the last read are
searched. -/
def readHeaders : ℕ → Bytes → Program Bytes
  | 0, _ => throw .spinning
  | fuel + 1, aggregate => do
    if 64 * 1024 < aggregate.length then throw (.policy "response headers exceed 64 KiB")
    else
      let w ← get
      match w.conn.read 4096 with
      | none => throw (.policy "connection closed before response headers")
      | some (piece, conn) =>
        let start := aggregate.length - 3
        match (indexOf headEnd ((aggregate ++ piece).drop start)).map (· + start) with
        | some index => do
          set { w with conn := conn, remainder := (aggregate ++ piece).drop (index + 4) }
          pure ((aggregate ++ piece).take index)
        | none => do
          set { w with conn := conn }
          readHeaders fuel (aggregate ++ piece)

def readMore : Program Unit := do
  let w ← get
  match w.conn.read (64 * 1024) with
  | none => throw (.policy "premature EOF in response body")
  | some (piece, conn) => set { w with conn := conn, remainder := w.remainder ++ piece }

/-- The loop of `takeLine`. -/
def takeLine (ceiling : ℕ) : ℕ → Program (List Char)
  | 0 => throw .spinning
  | fuel + 1 => do
    let w ← get
    match indexOf crlf w.remainder with
    | some i =>
      if ceiling < i then throw (.policy "chunk framing line too long")
      else do
        set { w with remainder := w.remainder.drop (i + 2) }
        pure (decodeText (w.remainder.take i))
    | none =>
      if ceiling < w.remainder.length then throw (.policy "chunk framing line too long")
      else do
        readMore
        takeLine ceiling fuel

/-- `if (remainder.length === 0) await readMore()`. -/
def refill : Program Unit := do
  let w ← get
  if w.remainder = [] then readMore else pure ()

/-- `while (remainder.length < 2) await readMore()`. -/
def readTwo : ℕ → Program Unit
  | 0 => throw .spinning
  | fuel + 1 => do
    let w ← get
    if w.remainder.length < 2 then do
      readMore
      readTwo fuel
    else pure ()

def takeDelimiter : Program Unit := do
  readTwo 3
  let w ← get
  if w.remainder.take 2 = crlf then set { w with remainder := w.remainder.drop 2 }
  else throw (.policy "invalid chunk delimiter")

def closeChunk (chunkRemaining : ℕ) : Program Unit :=
  if chunkRemaining = 0 then takeDelimiter else pure ()

/-- The end of `pull` for a chunk that has bytes left. -/
def takeData : Program Bytes := do
  refill
  let w ← get
  let allowed := min w.remainder.length w.chunkRemaining
  set { w with remainder := w.remainder.drop allowed, chunkRemaining := w.chunkRemaining - allowed }
  closeChunk (w.chunkRemaining - allowed)
  pure (w.remainder.take allowed)

def takeTrailers : ℕ → ℕ → Program Unit
  | 0, _ => throw .spinning
  | fuel + 1, trailerBytes => do
    let trailer ← takeLine 8192 (8192 + 2)
    match trailerStep trailerBytes trailer with
    | .error e => throw e
    | .ok none => pure ()
    | .ok (some total) => takeTrailers fuel total

/-- `pull`: the bytes that it enqueues, or nothing when it closes the body. -/
def pullLength (length : ℕ) : Program (Option Bytes) := do
  let w ← get
  if length ≤ w.emitted then pure none
  else do
    refill
    let w ← get
    let allowed := min w.remainder.length (length - w.emitted)
    set { w with remainder := w.remainder.drop allowed, emitted := w.emitted + allowed }
    pure (some (w.remainder.take allowed))

def pullChunked : Program (Option Bytes) := do
  let w ← get
  if w.chunkRemaining = 0 then do
    let sizeLine ← takeLine 4096 (4096 + 2)
    match chunkSize sizeLine with
    | none => throw (.policy "invalid chunk size")
    | some 0 => do
      takeTrailers (16 * 1024 + 2) 0
      pure none
    | some size => do
      modify fun w => { w with chunkRemaining := size }
      let chunk ← takeData
      pure (some chunk)
  else do
    let chunk ← takeData
    pure (some chunk)

def pull : BodyFraming → Program (Option Bytes)
  | .length length => pullLength length
  | .chunked => pullChunked

def drain (framing : BodyFraming) : ℕ → Program Bytes
  | 0 => throw .spinning
  | fuel + 1 => do
    let chunk ← pull framing
    match chunk with
    | none => pure []
    | some chunk => do
      let rest ← drain framing fuel
      pure (chunk ++ rest)

structure Received where
  status : ℕ
  headers : Headers
  body : Bytes
deriving DecidableEq, Repr

/-- `PinnedTransport.fetch` from the first read on, with the body read to its end. -/
def fetch (method : FetchMethod) : Program Received := do
  let head ← readHeaders (64 * 1024 + 2) []
  match parseHead head with
  | .error e => throw e
  | .ok parsed =>
    if method = .head then pure ⟨parsed.status, parsed.headers, []⟩
    else do
      let w ← get
      let body ← drain parsed.framing (w.pending.length + 2)
      pure ⟨parsed.status, parsed.headers, body⟩

/-- What comes of a response that arrives in these segments, if it does not fail. -/
def outcome (method : FetchMethod) (conn : Segments UInt8) : Option Received :=
  returned (fetch method) (.initial conn)

end Model

section Grammar

/-- How long a head with its end, the line of a chunk's size and the line of a trailer may be. -/
structure Ceilings where
  head : ℕ
  sizeLine : ℕ
  trailer : ℕ

/-- The ceilings of the source, where a head may end within the last read. -/
def Ceilings.wide : Ceilings :=
  ⟨68 * 1024, 4096, 8192⟩

/-- The ceilings that hold wherever the reads end. -/
def Ceilings.narrow : Ceilings :=
  ⟨64 * 1024 + 1, 4095, 8191⟩

def Line (ceiling : ℕ) (input line rest : Bytes) : Prop :=
  indexOf crlf input = some line.length ∧ line.length ≤ ceiling ∧ input = line ++ (crlf ++ rest)

inductive Trailers (ceiling : ℕ) : ℕ → Bytes → Bytes → Prop
  | done {total : ℕ} {input line rest : Bytes} (hline : Line ceiling input line rest)
      (hstep : trailerStep total (decodeText line) = .ok none) : Trailers ceiling total input rest
  | more {total next : ℕ} {input line after rest : Bytes} (hline : Line ceiling input line after)
      (hstep : trailerStep total (decodeText line) = .ok (some next))
      (hrest : Trailers ceiling next after rest) : Trailers ceiling total input rest

/-- A chunked body: its chunks, and what follows it. -/
inductive Chunked (c : Ceilings) : Bytes → List Bytes → Bytes → Prop
  | last {input line after rest : Bytes} (hline : Line c.sizeLine input line after)
      (hsize : chunkSize (decodeText line) = some 0) (hrest : Trailers c.trailer 0 after rest) :
      Chunked c input [] rest
  | chunk {input line data after rest : Bytes} {chunks : List Bytes}
      (hline : Line c.sizeLine input line (data ++ (crlf ++ after)))
      (hsize : chunkSize (decodeText line) = some data.length) (hdata : data ≠ [])
      (hrest : Chunked c after chunks rest) : Chunked c input (data :: chunks) rest

inductive Body (c : Ceilings) : BodyFraming → Bytes → Bytes → Bytes → Prop
  | length (body rest : Bytes) : Body c (.length body.length) (body ++ rest) body rest
  | chunked {input rest : Bytes} {chunks : List Bytes} (h : Chunked c input chunks rest) :
      Body c .chunked input chunks.flatten rest

/-- A response to a request of this method, and what follows it. -/
inductive Response (c : Ceilings) (method : FetchMethod) : Bytes → Received → Bytes → Prop
  | bodiless {head rest : Bytes} {parsed : ResponseHead} (hmethod : method = .head)
      (hhead : indexOf headEnd (head ++ (headEnd ++ rest)) = some head.length)
      (hshort : head.length + 4 ≤ c.head) (hparsed : parseHead head = .ok parsed) :
      Response c method (head ++ (headEnd ++ rest)) ⟨parsed.status, parsed.headers, []⟩ rest
  | framed {head after body rest : Bytes} {parsed : ResponseHead} (hmethod : method ≠ .head)
      (hhead : indexOf headEnd (head ++ (headEnd ++ after)) = some head.length)
      (hshort : head.length + 4 ≤ c.head) (hparsed : parseHead head = .ok parsed)
      (hbody : Body c parsed.framing after body rest) :
      Response c method (head ++ (headEnd ++ after)) ⟨parsed.status, parsed.headers, body⟩ rest

end Grammar

section Reads

variable {w w' : Wire} {ceiling fuel : ℕ} {text : List Char} {line rest : Bytes}

theorem headEnd_ne : headEnd ≠ [] :=
  nofun

theorem crlf_ne : crlf ≠ [] :=
  nofun

def Wire.Stepwise (w : Wire) : Prop :=
  w.conn.Single ∧ w.remainder = []

structure ReadOn (w w' : Wire) (piece : Bytes) : Prop where
  taken : piece ≠ []
  remainder : w'.remainder = w.remainder ++ piece
  pending : w'.pending = w.pending
  chunk : w'.chunkRemaining = w.chunkRemaining
  emitted : w'.emitted = w.emitted
  single : w.conn.Single → piece.length = 1 ∧ w'.conn.Single

theorem readMore_ok {a : Unit} (h : readMore w = .ok a w') : ∃ piece, ReadOn w w' piece := by
  rw [readMore, get_bind] at h
  cases hread : w.conn.read (64 * 1024) with
  | none =>
    rw [hread] at h
    exact nomatch h
  | some found =>
    obtain ⟨piece, conn⟩ := found
    rw [hread] at h
    obtain ⟨-, rfl⟩ := EStateM.Result.ok.inj h
    obtain ⟨hall, hpiece, -⟩ := Segments.read_eq_some (by decide) hread
    refine ⟨piece, hpiece, rfl, ?_, rfl, rfl, fun hsingle => hsingle.read (by decide) hread⟩
    rw [Wire.pending, Wire.pending, hall, List.append_assoc]

theorem readMore_eq {piece : Bytes} {conn : Segments UInt8}
    (h : w.conn.read (64 * 1024) = some (piece, conn)) :
    readMore w = .ok () { w with conn := conn, remainder := w.remainder ++ piece } := by
  rw [readMore, get_bind, h]
  rfl

theorem ended_ne (line : Bytes) : line ++ crlf ≠ [] :=
  List.append_ne_nil_of_right_ne_nil _ crlf_ne

theorem readMore_some (h : w.conn.all ≠ []) : ∃ w', readMore w = .ok () w' := by
  rw [readMore, get_bind]
  cases hread : w.conn.read (64 * 1024) with
  | none => exact absurd (Segments.read_eq_none.mp hread) h
  | some found => exact ⟨_, rfl⟩

theorem Line.unique {ceiling' : ℕ} {input line' rest' : Bytes} (h : Line ceiling input line rest)
    (h' : Line ceiling' input line' rest') : line = line' ∧ rest = rest' := by
  obtain ⟨hplace, -, hinput⟩ := h
  obtain ⟨hplace', -, hinput'⟩ := h'
  have hlength : line.length = line'.length := Option.some.inj (hplace.symm.trans hplace')
  obtain ⟨hline, hrest⟩ := List.append_inj (hinput.symm.trans hinput') hlength
  exact ⟨hline, List.append_cancel_left hrest⟩

theorem takeLine_found {i : ℕ} (h : indexOf crlf w.remainder = some i) : takeLine ceiling (fuel + 1) w =
    if ceiling < i then .error (.policy "chunk framing line too long") w
    else .ok (decodeText (w.remainder.take i)) { w with remainder := w.remainder.drop (i + 2) } := by
  rw [takeLine, get_bind, h]
  dsimp only
  split_ifs
  · rfl
  · rfl

theorem takeLine_none (h : indexOf crlf w.remainder = none) : takeLine ceiling (fuel + 1) w =
    if ceiling < w.remainder.length then .error (.policy "chunk framing line too long") w
    else (readMore >>= fun _ => takeLine ceiling fuel) w := by
  rw [takeLine, get_bind, h]
  dsimp only
  split_ifs
  · rfl
  · rfl

theorem takeLine_ok (h : takeLine ceiling fuel w = .ok text w') :
    ∃ line, Line ceiling w.pending line w'.pending ∧ text = decodeText line ∧
      w'.chunkRemaining = w.chunkRemaining := by
  induction fuel generalizing w with
  | zero => exact nomatch h
  | succ fuel ih =>
    cases hplace : indexOf crlf w.remainder with
    | some i =>
      rw [takeLine_found hplace] at h
      split_ifs at h with hlong
      obtain ⟨rfl, rfl⟩ := EStateM.Result.ok.inj h
      obtain ⟨hsplit, hle⟩ := indexOf_split crlf_ne hplace
      have hlength : (w.remainder.take i).length = i := by
        rw [List.length_take]
        omega
      refine ⟨w.remainder.take i, ⟨?_, ?_, ?_⟩, rfl, rfl⟩
      · rw [hlength]
        exact indexOf_append crlf_ne hplace _
      · rw [hlength]
        exact not_lt.mp hlong
      · change w.remainder ++ w.conn.all = _ ++ (crlf ++ (w.remainder.drop (i + 2) ++ w.conn.all))
        conv_lhs => rw [hsplit]
        simp only [List.append_assoc]
        rfl
    | none =>
      rw [takeLine_none hplace] at h
      split_ifs at h with hlong
      obtain ⟨_, u, hread, h⟩ := bind_ok.mp h
      obtain ⟨piece, hon⟩ := readMore_ok hread
      obtain ⟨line, hline, htext, hchunk⟩ := ih h
      exact ⟨line, hon.pending ▸ hline, htext, hchunk.trans hon.chunk⟩

theorem takeLine_stepwise {i : ℕ} (hsingle : w.conn.Single) (hnone : indexOf crlf w.remainder = none)
    (hplace : indexOf crlf w.pending = some i) (h : takeLine ceiling fuel w = .ok text w') :
    i < ceiling ∧ w'.Stepwise := by
  induction fuel generalizing w with
  | zero => exact nomatch h
  | succ fuel ih =>
    rw [takeLine_none hnone] at h
    split_ifs at h with hlong
    obtain ⟨_, u, hread, h⟩ := bind_ok.mp h
    obtain ⟨piece, hon⟩ := readMore_ok hread
    obtain ⟨hpiece, husingle⟩ := hon.single hsingle
    have hbefore := indexOf_of_append crlf_ne hplace
    rw [hnone] at hbefore
    have hupending : indexOf crlf u.pending = some i := hon.pending ▸ hplace
    have hafter := indexOf_of_append crlf_ne hupending
    have hlength : u.remainder.length = w.remainder.length + 1 := by
      rw [hon.remainder, List.length_append, hpiece]
    have htwo : crlf.length = 2 := rfl
    split_ifs at hbefore with hshort
    split_ifs at hafter with hfound
    · rcases fuel with - | fuel
      · exact nomatch h
      · rw [takeLine_found hafter] at h
        split_ifs at h
        obtain ⟨-, rfl⟩ := EStateM.Result.ok.inj h
        refine ⟨by omega, husingle, List.drop_eq_nil_of_le ?_⟩
        omega
    · exact ih husingle hafter hupending h

theorem takeLine_some {i : ℕ} (hplace : indexOf crlf w.pending = some i) (hi : i < ceiling)
    (hfuel : ceiling + 1 < w.remainder.length + fuel) (hpos : 0 < fuel) :
    ∃ text w', takeLine ceiling fuel w = .ok text w' := by
  induction fuel generalizing w with
  | zero => exact absurd hpos (lt_irrefl 0)
  | succ fuel ih =>
    have harrived := indexOf_of_append crlf_ne hplace
    have htwo : crlf.length = 2 := rfl
    split_ifs at harrived with hle
    · rw [takeLine_found harrived, if_neg (by omega)]
      exact ⟨_, _, rfl⟩
    · rw [takeLine_none harrived, if_neg (by omega)]
      have hmore : w.conn.all ≠ [] := by
        intro hnil
        rw [Wire.pending, hnil, List.append_nil, harrived] at hplace
        cases hplace
      obtain ⟨u, hread⟩ := readMore_some hmore
      obtain ⟨piece, hon⟩ := readMore_ok hread
      have hpiece := List.length_pos_iff.mpr hon.taken
      have hlength : u.remainder.length = w.remainder.length + piece.length := by
        rw [hon.remainder, List.length_append]
      obtain ⟨text, w', hline⟩ := ih (hon.pending ▸ hplace) (by omega) (by omega)
      exact ⟨text, w', bind_ok.mpr ⟨(), u, hread, hline⟩⟩

theorem takeLine_alone {s : Segments UInt8} {e n : ℕ} (hplace : indexOf crlf (line ++ crlf) = some line.length)
    (hlong : line.length ≤ ceiling) (hshort : (line ++ crlf).length ≤ 64 * 1024) :
    takeLine ceiling (fuel + 2) ⟨.cons (line ++ crlf) (ended_ne line) s, [], e, n⟩ =
      .ok (decodeText line) ⟨s, [], e, n⟩ := by
  have hread : readMore ⟨.cons (line ++ crlf) (ended_ne line) s, [], e, n⟩ =
      .ok () ⟨s, line ++ crlf, e, n⟩ :=
    readMore_eq (Segments.read_cons (ended_ne line) hshort)
  have hfound : takeLine ceiling (fuel + 1) ⟨s, line ++ crlf, e, n⟩ =
      .ok (decodeText line) ⟨s, [], e, n⟩ := by
    rw [takeLine_found hplace, if_neg (not_lt.mpr hlong), List.take_left]
    simp [crlf]
  rw [takeLine_none rfl, if_neg (by simp), bind_eq hread, hfound]

/-- The bytes of a chunk that is being read, and its end when they are its last ones. -/
def endOf (left : ℕ) (chunk : Bytes) : Bytes :=
  if chunk.length = left then crlf else []

theorem refill_ok {a : Unit} (h : refill w = .ok a w') : w'.remainder ≠ [] ∧ w'.pending = w.pending ∧
    w'.chunkRemaining = w.chunkRemaining ∧ w'.emitted = w.emitted ∧
      (w.Stepwise → w'.remainder.length = 1 ∧ w'.conn.Single) := by
  rw [refill, get_bind] at h
  split_ifs at h with hnil
  · obtain ⟨piece, hon⟩ := readMore_ok h
    refine ⟨?_, hon.pending, hon.chunk, hon.emitted, fun hstep => ?_⟩
    · rw [hon.remainder, hnil, List.nil_append]
      exact hon.taken
    · obtain ⟨hpiece, hsingle⟩ := hon.single hstep.1
      rw [hon.remainder, hnil, List.nil_append]
      exact ⟨hpiece, hsingle⟩
  · obtain ⟨-, rfl⟩ := EStateM.Result.ok.inj h
    exact ⟨hnil, rfl, rfl, rfl, fun hstep => absurd hstep.2 hnil⟩

theorem refill_some (h : w.pending ≠ []) : ∃ w', refill w = .ok () w' := by
  rw [refill, get_bind]
  split_ifs with hnil
  · refine readMore_some fun hall => h ?_
    rw [Wire.pending, hnil, hall]
    rfl
  · exact ⟨w, rfl⟩

theorem readTwo_ok {a : Unit} (h : readTwo fuel w = .ok a w') : 2 ≤ w'.remainder.length ∧
    w'.pending = w.pending ∧ w'.chunkRemaining = w.chunkRemaining ∧ w'.emitted = w.emitted ∧
      (w.conn.Single → w.remainder.length ≤ 2 → w'.remainder.length = 2 ∧ w'.conn.Single) := by
  induction fuel generalizing w with
  | zero => exact nomatch h
  | succ fuel ih =>
    rw [readTwo, get_bind] at h
    split_ifs at h with hshort
    · obtain ⟨_, u, hread, h⟩ := bind_ok.mp h
      obtain ⟨piece, hon⟩ := readMore_ok hread
      obtain ⟨htwo, hpending, hchunk, hemitted, hsingle⟩ := ih h
      refine ⟨htwo, hpending.trans hon.pending, hchunk.trans hon.chunk, hemitted.trans hon.emitted, ?_⟩
      intro hw _
      obtain ⟨hpiece, hu⟩ := hon.single hw
      refine hsingle hu ?_
      rw [hon.remainder, List.length_append]
      omega
    · obtain ⟨-, rfl⟩ := EStateM.Result.ok.inj h
      exact ⟨not_lt.mp hshort, rfl, rfl, rfl, fun hw hle => ⟨le_antisymm hle (not_lt.mp hshort), hw⟩⟩

theorem readTwo_some (h : 2 ≤ w.pending.length) (hfuel : 2 < w.remainder.length + fuel) (hpos : 0 < fuel) :
    ∃ w', readTwo fuel w = .ok () w' := by
  induction fuel generalizing w with
  | zero => exact absurd hpos (lt_irrefl 0)
  | succ fuel ih =>
    rw [readTwo, get_bind]
    split_ifs with hshort
    · have hmore : w.conn.all ≠ [] := by
        intro hnil
        rw [Wire.pending, hnil, List.append_nil] at h
        omega
      obtain ⟨u, hread⟩ := readMore_some hmore
      obtain ⟨piece, hon⟩ := readMore_ok hread
      have hpiece := List.length_pos_iff.mpr hon.taken
      have hlength : u.remainder.length = w.remainder.length + piece.length := by
        rw [hon.remainder, List.length_append]
      obtain ⟨w', htwo⟩ := ih (hon.pending ▸ h) (by omega) (by omega)
      exact ⟨w', bind_ok.mpr ⟨(), u, hread, htwo⟩⟩
    · exact ⟨w, rfl⟩

theorem take_pending (w : Wire) (k : ℕ) :
    w.pending = w.remainder.take k ++ (w.remainder.drop k ++ w.conn.all) := by
  rw [← List.append_assoc, List.take_append_drop, Wire.pending]

theorem takeDelimiter_ok {a : Unit} (h : takeDelimiter w = .ok a w') :
    w.pending = crlf ++ w'.pending ∧ w'.chunkRemaining = w.chunkRemaining ∧ w'.emitted = w.emitted ∧
      (w.Stepwise → w'.Stepwise) := by
  obtain ⟨_, u, htwo, h⟩ := bind_ok.mp h
  obtain ⟨hlength, hpending, hchunk, hemitted, hsingle⟩ := readTwo_ok htwo
  rw [get_bind] at h
  by_cases hends : u.remainder.take 2 = crlf
  · rw [if_pos hends] at h
    obtain ⟨-, rfl⟩ := EStateM.Result.ok.inj h
    refine ⟨?_, hchunk, hemitted, fun hstep => ?_⟩
    · rw [← hpending, take_pending u 2, hends]
      rfl
    · obtain ⟨hu, hconn⟩ := hsingle hstep.1 (by simp [hstep.2])
      exact ⟨hconn, List.drop_eq_nil_of_le hu.le⟩
  · rw [if_neg hends] at h
    exact nomatch h

theorem takeDelimiter_some (h : crlf <+: w.pending) : ∃ w', takeDelimiter w = .ok () w' := by
  obtain ⟨u, htwo⟩ : ∃ u, readTwo 3 w = .ok () u := readTwo_some h.length_le (by omega) (by omega)
  obtain ⟨hlength, hpending, -⟩ := readTwo_ok htwo
  have hends : u.remainder.take 2 = crlf := by
    obtain ⟨rest, hrest⟩ := h
    rw [← hpending, take_pending u 2] at hrest
    refine (List.append_inj hrest ?_).1.symm
    rw [List.length_take, min_eq_left hlength]
    rfl
  rw [takeDelimiter, bind_eq htwo, get_bind, if_pos hends]
  exact ⟨_, rfl⟩

/-- What `takeData` gives is the beginning of the chunk, with the delimiter taken after its end. -/
theorem takeData_ok {chunk : Bytes} (hleft : 0 < w.chunkRemaining) (h : takeData w = .ok chunk w') :
    chunk ≠ [] ∧ chunk.length ≤ w.chunkRemaining ∧
      w'.chunkRemaining = w.chunkRemaining - chunk.length ∧
      w.pending = chunk ++ (endOf w.chunkRemaining chunk ++ w'.pending) ∧
      (w.Stepwise → w'.Stepwise) := by
  obtain ⟨_, u, hrefill, h⟩ := bind_ok.mp h
  obtain ⟨hne, hpending, hchunk, -, hsingle⟩ := refill_ok hrefill
  rw [get_bind] at h
  obtain ⟨_, v, hset, h⟩ := bind_ok.mp h
  obtain ⟨-, rfl⟩ := EStateM.Result.ok.inj hset
  obtain ⟨_, v', hclose, h⟩ := bind_ok.mp h
  obtain ⟨rfl, rfl⟩ := EStateM.Result.ok.inj h
  rw [hchunk] at hclose ⊢
  have hpos := List.length_pos_iff.mpr hne
  have hlength : (u.remainder.take (min u.remainder.length w.chunkRemaining)).length =
      min u.remainder.length w.chunkRemaining := by
    rw [List.length_take, min_eq_left (min_le_left _ _)]
  have hstart := take_pending u (min u.remainder.length w.chunkRemaining)
  have hstep : w.Stepwise → u.remainder.drop (min u.remainder.length w.chunkRemaining) = [] ∧
      u.conn.Single := by
    intro hw
    obtain ⟨hone, hconn⟩ := hsingle hw
    exact ⟨List.drop_eq_nil_of_le (by omega), hconn⟩
  refine ⟨?_, ?_, ?_, ?_, fun hw => ?_⟩
  · rw [← List.length_pos_iff, hlength]
    omega
  · rw [hlength]
    exact min_le_right _ _
  all_goals rw [closeChunk] at hclose
  · rw [hlength]
    split_ifs at hclose with hzero
    · exact (takeDelimiter_ok hclose).2.1
    · obtain ⟨-, rfl⟩ := EStateM.Result.ok.inj hclose
      rfl
  · rw [endOf, hlength, ← hpending, hstart]
    congr 1
    split_ifs at hclose with hzero
    · rw [if_pos (by omega)]
      exact (takeDelimiter_ok hclose).1
    · obtain ⟨-, rfl⟩ := EStateM.Result.ok.inj hclose
      rw [if_neg (by omega)]
      rfl
  · obtain ⟨hdrop, hconn⟩ := hstep hw
    split_ifs at hclose with hzero
    · exact (takeDelimiter_ok hclose).2.2.2 ⟨hconn, hdrop⟩
    · obtain ⟨-, rfl⟩ := EStateM.Result.ok.inj hclose
      exact ⟨hconn, hdrop⟩

theorem takeData_some {data after : Bytes} (hdata : data.length = w.chunkRemaining) (hne : data ≠ [])
    (hpending : w.pending = data ++ (crlf ++ after)) : ∃ chunk w', takeData w = .ok chunk w' := by
  obtain ⟨u, hrefill⟩ := refill_some (w := w) (by simp [hpending, hne])
  obtain ⟨-, hupending, hchunk, -⟩ := refill_ok hrefill
  rw [takeData, bind_eq hrefill, get_bind]
  have hclose : ∃ v, closeChunk (u.chunkRemaining - min u.remainder.length u.chunkRemaining)
      { u with
        remainder := u.remainder.drop (min u.remainder.length u.chunkRemaining)
        chunkRemaining := u.chunkRemaining - min u.remainder.length u.chunkRemaining } = .ok () v := by
    rw [closeChunk]
    split_ifs with hzero
    · refine takeDelimiter_some ?_
      have hstart := take_pending u (min u.remainder.length u.chunkRemaining)
      rw [hupending, hpending] at hstart
      have hlength : data.length =
          (u.remainder.take (min u.remainder.length u.chunkRemaining)).length := by
        rw [List.length_take, hdata, ← hchunk]
        omega
      obtain ⟨-, hrest⟩ := List.append_inj hstart hlength
      exact ⟨after, hrest⟩
    · exact ⟨_, rfl⟩
  obtain ⟨v, hclose⟩ := hclose
  exact ⟨_, v, bind_ok.mpr ⟨(), _, rfl, bind_ok.mpr ⟨(), v, hclose, rfl⟩⟩⟩

end Reads

section Soundness

variable {w w' : Wire} {fuel : ℕ} {c : Ceilings} {text : List Char} {body input rest : Bytes} {left : ℕ}

def Admits (c : Ceilings) (w : Wire) : Prop :=
  c = .wide ∨ (c = .narrow ∧ w.Stepwise)

theorem Admits.next (h : Admits c w) (hstep : w.Stepwise → w'.Stepwise) : Admits c w' :=
  h.imp_right (And.imp_right hstep)

theorem Admits.line (h : Admits c w) {ceiling : ℕ} (field : Ceilings → ℕ) (hwide : field .wide = ceiling)
    (hnarrow : field .narrow + 1 = ceiling) (hline : takeLine ceiling fuel w = .ok text w') :
    ∃ line, Line (field c) w.pending line w'.pending ∧ text = decodeText line ∧
      w'.chunkRemaining = w.chunkRemaining ∧ Admits c w' := by
  obtain ⟨line, htaken, htext, hchunk⟩ := takeLine_ok hline
  refine ⟨line, ?_, htext, hchunk, ?_⟩
  · refine ⟨htaken.1, ?_, htaken.2.2⟩
    rcases h with rfl | ⟨rfl, hsingle, hempty⟩
    · rw [hwide]
      exact htaken.2.1
    · have hbound := takeLine_stepwise hsingle (by rw [hempty]; rfl) htaken.1 hline
      omega
  · rcases h with rfl | ⟨rfl, hsingle, hempty⟩
    · exact Or.inl rfl
    · exact Or.inr ⟨rfl, (takeLine_stepwise hsingle (by rw [hempty]; rfl) htaken.1 hline).2⟩

theorem takeTrailers_ok {total : ℕ} {a : Unit} (hadmits : Admits c w)
    (h : takeTrailers fuel total w = .ok a w') : Trailers c.trailer total w.pending w'.pending := by
  induction fuel generalizing w total with
  | zero => exact nomatch h
  | succ fuel ih =>
    obtain ⟨trailer, u, htrailer, h⟩ := bind_ok.mp h
    obtain ⟨line, hline, rfl, -, hu⟩ := hadmits.line Ceilings.trailer rfl rfl htrailer
    cases hstep : trailerStep total (decodeText line) with
    | error e =>
      rw [hstep] at h
      exact nomatch h
    | ok next =>
      rw [hstep] at h
      cases next with
      | none =>
        obtain ⟨-, rfl⟩ := EStateM.Result.ok.inj h
        exact .done hline hstep
      | some next => exact .more hline hstep (ih hu h)

/-- What is left of a chunked body when a chunk still has so many bytes. -/
def Remains (c : Ceilings) (left : ℕ) (input body rest : Bytes) : Prop :=
  if left = 0 then ∃ chunks, Chunked c input chunks rest ∧ body = chunks.flatten
  else ∃ data after chunks, data.length = left ∧ input = data ++ (crlf ++ after) ∧
    Chunked c after chunks rest ∧ body = data ++ chunks.flatten

theorem Remains.chunk {piece : Bytes} (hpiece : piece ≠ []) (hle : piece.length ≤ left)
    (h : Remains c (left - piece.length) input body rest) :
    Remains c left (piece ++ (endOf left piece ++ input)) (piece ++ body) rest := by
  have hpos := List.length_pos_iff.mpr hpiece
  rw [Remains, if_neg (by omega)]
  rw [Remains] at h
  rw [endOf]
  by_cases hall : piece.length = left
  · rw [if_pos (by omega)] at h
    obtain ⟨chunks, hchunks, rfl⟩ := h
    rw [if_pos hall]
    exact ⟨piece, input, chunks, hall, rfl, hchunks, rfl⟩
  · rw [if_neg (by omega)] at h
    obtain ⟨data, after, chunks, hdata, rfl, hchunks, rfl⟩ := h
    rw [if_neg hall]
    refine ⟨piece ++ data, after, chunks, ?_, ?_, hchunks, ?_⟩
    · rw [List.length_append]
      omega
    · simp
    · simp

theorem Remains.unchunk {piece : Bytes} (hpiece : piece ≠ []) (hle : piece.length ≤ left)
    (h : Remains c left (piece ++ (endOf left piece ++ input)) body rest) :
    ∃ body', Remains c (left - piece.length) input body' rest ∧ body = piece ++ body' := by
  have hpos := List.length_pos_iff.mpr hpiece
  rw [Remains, if_neg (by omega)] at h
  obtain ⟨data, after, chunks, hdata, hinput, hchunks, rfl⟩ := h
  rw [endOf] at hinput
  by_cases hall : piece.length = left
  · rw [if_pos hall] at hinput
    obtain ⟨rfl, hrest⟩ := List.append_inj hinput (hall.trans hdata.symm)
    obtain rfl := List.append_cancel_left hrest
    refine ⟨chunks.flatten, ?_, rfl⟩
    rw [Remains, if_pos (by omega)]
    exact ⟨chunks, hchunks, rfl⟩
  · rw [if_neg hall, List.nil_append] at hinput
    have htake : data.take piece.length = piece := by
      have htaken := congrArg (List.take piece.length) hinput
      rwa [List.take_left, List.take_append_of_le_length (by omega), eq_comm] at htaken
    have hdrop : input = data.drop piece.length ++ (crlf ++ after) := by
      have hdropped := congrArg (List.drop piece.length) hinput
      rwa [List.drop_left, List.drop_append_of_le_length (by omega)] at hdropped
    refine ⟨data.drop piece.length ++ chunks.flatten, ?_, ?_⟩
    · rw [Remains, if_neg (by omega)]
      exact ⟨_, after, chunks, by rw [List.length_drop, hdata], hdrop, hchunks, rfl⟩
    · rw [← List.append_assoc]
      congr 1
      rw [← htake, List.length_take]
      conv_lhs => rw [← List.take_append_drop piece.length data]
      rw [min_eq_left (by omega)]

theorem pullChunked_data (h : w.chunkRemaining ≠ 0) :
    pullChunked w = (takeData >>= fun chunk => pure (some chunk)) w := by
  rw [pullChunked, get_bind, if_neg h]

theorem pullChunked_line (h : w.chunkRemaining = 0) (hline : takeLine 4096 (4096 + 2) w = .ok text w') :
    pullChunked w = (match chunkSize text with
      | none => throw (.policy "invalid chunk size")
      | some 0 => takeTrailers (16 * 1024 + 2) 0 >>= fun _ => pure none
      | some size => do
        modify fun w => { w with chunkRemaining := size }
        let chunk ← takeData
        pure (some chunk) : Program (Option Bytes)) w' := by
  rw [pullChunked, get_bind, if_pos h, bind_eq hline]

theorem drain_chunked_ok (hadmits : Admits c w) (h : drain .chunked fuel w = .ok body w') :
    Remains c w.chunkRemaining w.pending body w'.pending := by
  induction fuel generalizing w body with
  | zero => exact nomatch h
  | succ fuel ih =>
    obtain ⟨enqueued, u, hpull, h⟩ := bind_ok.mp h
    change pullChunked w = _ at hpull
    -- the data of a chunk, from a state in which a chunk has bytes left
    have hdata : ∀ v : Wire, Admits c v → v.chunkRemaining ≠ 0 →
        (takeData >>= fun chunk => pure (some chunk)) v = .ok enqueued u →
          Remains c v.chunkRemaining v.pending body w'.pending := by
      intro v hv hleft hpulled
      obtain ⟨chunk, v', htake, hpure⟩ := bind_ok.mp hpulled
      obtain ⟨rfl, rfl⟩ := EStateM.Result.ok.inj hpure
      obtain ⟨hne, hle, hremaining, hpending, hstep⟩ := takeData_ok (Nat.pos_of_ne_zero hleft) htake
      obtain ⟨others, u', hrest, h⟩ := bind_ok.mp h
      obtain ⟨rfl, rfl⟩ := EStateM.Result.ok.inj h
      rw [hpending]
      exact .chunk hne hle (hremaining ▸ ih (hv.next hstep) hrest)
    by_cases hleft : w.chunkRemaining = 0
    · cases hline : takeLine 4096 (4096 + 2) w with
      | error e v =>
        rw [pullChunked, get_bind, if_pos hleft] at hpull
        exact nomatch hpull.symm.trans (bind_error.mpr (Or.inl hline))
      | ok text v =>
        rw [pullChunked_line hleft hline] at hpull
        obtain ⟨line, hfirst, rfl, -, hv⟩ := hadmits.line Ceilings.sizeLine rfl rfl hline
        rw [hleft, Remains, if_pos rfl]
        rcases hsize : chunkSize (decodeText line) with - | - | size
        · rw [hsize] at hpull
          exact nomatch hpull
        · rw [hsize] at hpull
          obtain ⟨_, v', htrailers, hpure⟩ := bind_ok.mp hpull
          obtain ⟨rfl, rfl⟩ := EStateM.Result.ok.inj hpure
          obtain ⟨rfl, rfl⟩ := EStateM.Result.ok.inj h
          exact ⟨[], .last hfirst hsize (takeTrailers_ok hv htrailers), rfl⟩
        · rw [hsize] at hpull
          have hrest := hdata { v with chunkRemaining := size + 1 } hv (Nat.succ_ne_zero size) hpull
          rw [Remains, if_neg (Nat.succ_ne_zero size)] at hrest
          obtain ⟨data, after, chunks, hlength, hinput, hchunks, rfl⟩ := hrest
          change v.pending = _ at hinput
          rw [hinput] at hfirst
          refine ⟨data :: chunks, .chunk hfirst (by rw [hsize, hlength]) ?_ hchunks, rfl⟩
          rintro rfl
          exact nomatch hlength
    · rw [pullChunked_data hleft] at hpull
      exact hdata w hadmits hleft hpull

theorem drain_length_ok {length : ℕ} (h : drain (.length length) fuel w = .ok body w') :
    w.pending = body ++ w'.pending ∧ body.length = length - w.emitted := by
  induction fuel generalizing w body with
  | zero => exact nomatch h
  | succ fuel ih =>
    obtain ⟨enqueued, u, hpull, h⟩ := bind_ok.mp h
    change pullLength length w = _ at hpull
    rw [pullLength, get_bind] at hpull
    by_cases hdone : length ≤ w.emitted
    · rw [if_pos hdone] at hpull
      obtain ⟨rfl, rfl⟩ := EStateM.Result.ok.inj hpull
      obtain ⟨rfl, rfl⟩ := EStateM.Result.ok.inj h
      refine ⟨rfl, ?_⟩
      rw [List.length_nil]
      omega
    · rw [if_neg hdone] at hpull
      obtain ⟨_, v, hrefill, hpull⟩ := bind_ok.mp hpull
      obtain ⟨hne, hpending, -, hemitted, -⟩ := refill_ok hrefill
      rw [get_bind] at hpull
      obtain ⟨_, v', hset, hpull⟩ := bind_ok.mp hpull
      obtain ⟨-, rfl⟩ := EStateM.Result.ok.inj hset
      obtain ⟨rfl, rfl⟩ := EStateM.Result.ok.inj hpull
      obtain ⟨others, u', hrest, h⟩ := bind_ok.mp h
      obtain ⟨rfl, rfl⟩ := EStateM.Result.ok.inj h
      obtain ⟨hinput, hlength⟩ := ih hrest
      have hstart := take_pending v (min v.remainder.length (length - v.emitted))
      constructor
      · rw [← hpending, hstart, List.append_assoc, ← hinput]
        rfl
      · rw [List.length_append, hlength, List.length_take, min_eq_left (min_le_left _ _)]
        dsimp only
        omega

end Soundness

section Completeness

variable {w w' : Wire} {fuel short : ℕ} {line body rest : Bytes}

theorem Line.taken (ceiling : ℕ) (h : Line short w.pending line rest) (hshort : short < ceiling) :
    ∃ w', takeLine ceiling (ceiling + 2) w = .ok (decodeText line) w' ∧ w'.pending = rest ∧
      w'.chunkRemaining = w.chunkRemaining := by
  have hlong := h.2.1
  obtain ⟨text, w', htake⟩ : ∃ text w', takeLine ceiling (ceiling + 2) w = .ok text w' :=
    takeLine_some h.1 (by omega) (by omega) (by omega)
  obtain ⟨other, hother, rfl, hchunk⟩ := takeLine_ok htake
  obtain ⟨rfl, hrest⟩ := h.unique hother
  exact ⟨w', htake, hrest.symm, hchunk⟩

theorem trailerStep_none {total : ℕ} {text : List Char} (h : trailerStep total text = .ok none) :
    total + 2 ≤ 32 * 1024 := by
  rw [trailerStep] at h
  split_ifs at h
  · omega
  · cases Except.ok.inj h

theorem trailerStep_some {total next : ℕ} {text : List Char}
    (h : trailerStep total text = .ok (some next)) : total + 2 ≤ next ∧ next ≤ 32 * 1024 := by
  rw [trailerStep] at h
  split_ifs at h
  · cases Except.ok.inj h
  · obtain rfl := Option.some.inj (Except.ok.inj h)
    omega

theorem takeTrailers_some {total : ℕ} {input : Bytes}
    (h : Trailers Ceilings.narrow.trailer total input rest) (hinput : w.pending = input)
    (hfuel : 32 * 1024 < total + 2 * fuel) : ∃ w', takeTrailers fuel total w = .ok () w' := by
  induction h generalizing w fuel with
  | done hline hstep =>
    have htotal := trailerStep_none hstep
    obtain ⟨fuel, rfl⟩ : ∃ below, fuel = below + 1 := ⟨fuel - 1, by omega⟩
    obtain ⟨w', htake, -⟩ := Line.taken 8192 (hinput ▸ hline) (by decide)
    refine ⟨w', bind_ok.mpr ⟨_, w', htake, ?_⟩⟩
    rw [hstep]
    rfl
  | more hline hstep hrest ih =>
    obtain ⟨htotal, hnext⟩ := trailerStep_some hstep
    obtain ⟨fuel, rfl⟩ : ∃ below, fuel = below + 1 := ⟨fuel - 1, by omega⟩
    obtain ⟨u, htake, hu, -⟩ := Line.taken 8192 (hinput ▸ hline) (by decide)
    obtain ⟨w', hw'⟩ : ∃ w', takeTrailers fuel _ u = .ok () w' := ih hu (by omega)
    refine ⟨w', bind_ok.mpr ⟨_, u, htake, ?_⟩⟩
    rw [hstep]
    exact hw'

theorem drain_chunked_some (h : Remains .narrow w.chunkRemaining w.pending body rest)
    (hfuel : w.pending.length < fuel) : ∃ w', drain .chunked fuel w = .ok body w' := by
  induction fuel generalizing w body with
  | zero => exact absurd hfuel (Nat.not_lt_zero _)
  | succ fuel ih =>
    have hdata : ∀ v : Wire, v.chunkRemaining ≠ 0 → v.pending.length ≤ fuel →
        Remains .narrow v.chunkRemaining v.pending body rest →
        pullChunked w = (takeData >>= fun chunk => pure (some chunk)) v →
          ∃ w', drain .chunked (fuel + 1) w = .ok body w' := by
      intro v hleft hv hremains hpull
      have hpending := hremains
      rw [Remains, if_neg hleft] at hpending
      obtain ⟨data, after, chunks, hlength, hinput, -, -⟩ := hpending
      obtain ⟨chunk, v', htake⟩ := takeData_some hlength
        (by rintro rfl; exact hleft hlength.symm) hinput
      obtain ⟨hne, hle, hremaining, hall, -⟩ := takeData_ok (Nat.pos_of_ne_zero hleft) htake
      have hpos := List.length_pos_iff.mpr hne
      have hshorter := congrArg List.length hall
      rw [List.length_append, List.length_append] at hshorter
      obtain ⟨others, hrest, rfl⟩ := Remains.unchunk hne hle (hall ▸ hremains)
      obtain ⟨w', hw'⟩ := ih (w := v') (hremaining ▸ hrest) (by omega)
      refine ⟨w', bind_ok.mpr ⟨some chunk, v', ?_, bind_ok.mpr ⟨others, w', hw', rfl⟩⟩⟩
      exact hpull.trans (bind_ok.mpr ⟨chunk, v', htake, rfl⟩)
    by_cases hleft : w.chunkRemaining = 0
    · rw [hleft, Remains, if_pos rfl] at h
      obtain ⟨chunks, hchunks, rfl⟩ := h
      cases hchunks with
      | last hline hsize htrailers =>
        obtain ⟨u, htake, hu, -⟩ := Line.taken 4096 hline (by decide)
        obtain ⟨w', hw'⟩ : ∃ w', takeTrailers (16 * 1024 + 2) 0 u = .ok () w' :=
          takeTrailers_some htrailers hu (by omega)
        refine ⟨w', bind_ok.mpr ⟨none, w', ?_, rfl⟩⟩
        refine (pullChunked_line hleft htake).trans ?_
        rw [hsize]
        exact bind_ok.mpr ⟨(), w', hw', rfl⟩
      | @chunk _ line data after _ chunks hline hsize hne hrest =>
        obtain ⟨u, htake, hu, -⟩ := Line.taken 4096 hline (by decide)
        have hpos := List.length_pos_iff.mpr hne
        have hlength := congrArg List.length hline.2.2
        have htwo : crlf.length = 2 := rfl
        rw [List.length_append, List.length_append] at hlength
        refine hdata { u with chunkRemaining := data.length } (by dsimp only; omega) ?_ ?_ ?_
        · change u.pending.length ≤ fuel
          rw [hu]
          omega
        · change Remains _ data.length u.pending _ _
          rw [Remains, if_neg (by omega)]
          exact ⟨data, after, chunks, rfl, hu, hrest, rfl⟩
        · rw [pullChunked_line hleft htake, hsize]
          obtain ⟨size, hsucc⟩ : ∃ size, data.length = size + 1 := ⟨data.length - 1, by omega⟩
          rw [hsucc]
          rfl
    · exact hdata w hleft (by omega) h (pullChunked_data hleft)

theorem drain_length_some {length : ℕ} (h : length - w.emitted ≤ w.pending.length)
    (hfuel : w.pending.length < fuel) : ∃ body w', drain (.length length) fuel w = .ok body w' := by
  induction fuel generalizing w with
  | zero => exact absurd hfuel (Nat.not_lt_zero _)
  | succ fuel ih =>
    by_cases hdone : length ≤ w.emitted
    · have hpull : pull (.length length) w = .ok none w := by
        change pullLength length w = _
        rw [pullLength, get_bind, if_pos hdone]
        rfl
      exact ⟨[], w, bind_ok.mpr ⟨none, w, hpull, rfl⟩⟩
    · have hne : w.pending ≠ [] := by
        intro hnil
        rw [hnil, List.length_nil] at h
        omega
      obtain ⟨v, hrefill⟩ := refill_some hne
      obtain ⟨hremainder, hpending, -, hemitted, -⟩ := refill_ok hrefill
      have hpos := List.length_pos_iff.mpr hremainder
      have hall := congrArg List.length (take_pending v (min v.remainder.length (length - v.emitted)))
      rw [hpending, List.length_append, List.length_take] at hall
      have hpull : pull (.length length) w = .ok
          (some (v.remainder.take (min v.remainder.length (length - v.emitted))))
          { v with
            remainder := v.remainder.drop (min v.remainder.length (length - v.emitted))
            emitted := v.emitted + min v.remainder.length (length - v.emitted) } := by
        change pullLength length w = _
        rw [pullLength, get_bind, if_neg hdone, bind_eq hrefill]
        rfl
      obtain ⟨others, w', hrest⟩ := ih (w := { v with
        remainder := v.remainder.drop (min v.remainder.length (length - v.emitted))
        emitted := v.emitted + min v.remainder.length (length - v.emitted) })
        (by rw [Wire.pending]; dsimp only; omega) (by rw [Wire.pending]; dsimp only; omega)
      exact ⟨_, w', bind_ok.mpr ⟨_, _, hpull, bind_ok.mpr ⟨others, w', hrest, rfl⟩⟩⟩

end Completeness

section Heads

variable {w w' : Wire} {fuel i : ℕ} {aggregate head : Bytes}

theorem headEnd_search (piece : Bytes) (h : indexOf headEnd aggregate = none) :
    (indexOf headEnd ((aggregate ++ piece).drop (aggregate.length - 3))).map
      (· + (aggregate.length - 3)) = indexOf headEnd (aggregate ++ piece) := by
  refine indexOf_drop headEnd_ne fun j hj hplace => ?_
  refine (indexOf_eq_none headEnd_ne).mp h j ((prefix_drop_append ?_).mp hplace)
  change j + 4 ≤ aggregate.length
  omega

theorem readHeaders_read {piece : Bytes} {conn : Segments UInt8} (hshort : aggregate.length ≤ 64 * 1024)
    (hnone : indexOf headEnd aggregate = none) (hread : w.conn.read 4096 = some (piece, conn)) :
    readHeaders (fuel + 1) aggregate w = match indexOf headEnd (aggregate ++ piece) with
      | some index => .ok ((aggregate ++ piece).take index)
          { w with conn := conn, remainder := (aggregate ++ piece).drop (index + 4) }
      | none => readHeaders fuel (aggregate ++ piece) { w with conn := conn } := by
  rw [readHeaders, if_neg (not_lt.mpr hshort), get_bind, hread]
  dsimp only
  rw [headEnd_search piece hnone]
  cases indexOf headEnd (aggregate ++ piece) with
  | some index => rfl
  | none => rfl

theorem readHeaders_ok (hnone : indexOf headEnd aggregate = none)
    (h : readHeaders fuel aggregate w = .ok head w') :
    indexOf headEnd (aggregate ++ w.conn.all) = some head.length ∧ head.length + 4 ≤ 68 * 1024 ∧
      aggregate ++ w.conn.all = head ++ (headEnd ++ w'.pending) ∧
      w'.chunkRemaining = w.chunkRemaining ∧ w'.emitted = w.emitted ∧
      (w.conn.Single → head.length + 4 ≤ 64 * 1024 + 1 ∧ w'.Stepwise) := by
  induction fuel generalizing w aggregate with
  | zero => exact nomatch h
  | succ fuel ih =>
    by_cases hlong : 64 * 1024 < aggregate.length
    · rw [readHeaders, if_pos hlong] at h
      exact nomatch h
    · cases hread : w.conn.read 4096 with
      | none =>
        rw [readHeaders, if_neg hlong, get_bind, hread] at h
        exact nomatch h
      | some found =>
        obtain ⟨piece, conn⟩ := found
        rw [readHeaders_read (not_lt.mp hlong) hnone hread] at h
        obtain ⟨hall, hpiece, hsize⟩ := Segments.read_eq_some (by decide) hread
        rw [hall, ← List.append_assoc]
        cases hplace : indexOf headEnd (aggregate ++ piece) with
        | some index =>
          rw [hplace] at h
          obtain ⟨rfl, rfl⟩ := EStateM.Result.ok.inj h
          obtain ⟨hsplit, hle⟩ := indexOf_split headEnd_ne hplace
          have hfour : headEnd.length = 4 := rfl
          have hlength : ((aggregate ++ piece).take index).length = index := by
            rw [List.length_take]
            omega
          have hbefore := indexOf_of_append headEnd_ne hplace
          rw [hnone] at hbefore
          split_ifs at hbefore with hearly
          rw [List.length_append] at hle
          refine ⟨?_, by omega, ?_, rfl, rfl, fun hsingle => ?_⟩
          · rw [hlength]
            exact indexOf_append headEnd_ne hplace _
          · conv_lhs => rw [hsplit]
            simp only [List.append_assoc]
            rfl
          · obtain ⟨hone, hconn⟩ := hsingle.read (by decide) hread
            refine ⟨by omega, hconn, List.drop_eq_nil_of_le ?_⟩
            rw [List.length_append]
            omega
        | none =>
          rw [hplace] at h
          obtain ⟨hfound, hshort, hsplit, hchunk, hemitted, hsingle⟩ := ih hplace h
          exact ⟨hfound, hshort, hsplit, hchunk, hemitted,
            fun hw => hsingle (hw.read (by decide) hread).2⟩

theorem readHeaders_some (hnone : indexOf headEnd aggregate = none)
    (hplace : indexOf headEnd (aggregate ++ w.conn.all) = some i) (hi : i + 4 ≤ 64 * 1024 + 1)
    (hfuel : 64 * 1024 + 1 < aggregate.length + fuel) :
    ∃ head w', readHeaders fuel aggregate w = .ok head w' := by
  induction fuel generalizing w aggregate with
  | zero =>
    have hbefore := indexOf_of_append headEnd_ne hplace
    rw [hnone, if_pos] at hbefore
    · exact nomatch hbefore
    · change i + 4 ≤ aggregate.length
      omega
  | succ fuel ih =>
    have hbefore := indexOf_of_append headEnd_ne hplace
    rw [hnone] at hbefore
    have hfour : headEnd.length = 4 := rfl
    split_ifs at hbefore with hearly
    cases hread : w.conn.read 4096 with
    | none =>
      rw [Segments.read_eq_none.mp hread, List.append_nil, hnone] at hplace
      exact nomatch hplace
    | some found =>
      obtain ⟨piece, conn⟩ := found
      obtain ⟨hall, hpiece, -⟩ := Segments.read_eq_some (by decide) hread
      have hpos := List.length_pos_iff.mpr hpiece
      rw [readHeaders_read (by omega) hnone hread]
      cases hnext : indexOf headEnd (aggregate ++ piece) with
      | some index => exact ⟨_, _, rfl⟩
      | none =>
        refine ih hnext ?_ ?_
        · rw [List.append_assoc, ← hall]
          exact hplace
        · rw [List.length_append]
          omega

theorem readHeaders_alone {s : Segments UInt8} {piece : Bytes} (hpiece : piece ≠ []) {e n k : ℕ}
    (hplace : indexOf headEnd (head ++ headEnd) = some head.length)
    (hall : aggregate ++ piece = head ++ headEnd) (hlong : head.length + 4 ≤ 68 * 1024)
    (hreads : aggregate.length = 4096 * k) (hfuel : 64 * 1024 + 1 < aggregate.length + fuel) :
    readHeaders fuel aggregate ⟨.cons piece hpiece s, [], e, n⟩ = .ok head ⟨s, [], e, n⟩ := by
  have hpos := List.length_pos_iff.mpr hpiece
  have hfour : headEnd.length = 4 := rfl
  have hlength := congrArg List.length hall
  rw [List.length_append, List.length_append] at hlength
  induction fuel generalizing aggregate piece k with
  | zero => omega
  | succ fuel ih =>
    have hnone : indexOf headEnd aggregate = none := by
      rw [← hall] at hplace
      have hbefore := indexOf_of_append headEnd_ne hplace
      rwa [if_neg (by omega)] at hbefore
    by_cases hlast : piece.length ≤ 4096
    · rw [readHeaders_read (by omega) hnone (Segments.read_cons hpiece hlast), hall, hplace]
      dsimp only
      rw [List.take_left, List.drop_eq_nil_of_le (by rw [List.length_append]; omega)]
    · rw [not_le] at hlast
      have hnext : indexOf headEnd (aggregate ++ piece.take 4096) = none := by
        rw [← hall, ← List.take_append_drop 4096 piece, ← List.append_assoc] at hplace
        have hbefore := indexOf_of_append headEnd_ne hplace
        rwa [if_neg] at hbefore
        rw [List.length_append, List.length_take]
        omega
      rw [readHeaders_read (by omega) hnone (Segments.read_cons_long hpiece hlast), hnext]
      refine ih (k := k + 1) _ ?_ ?_ ?_ ?_ ?_
      · rw [List.append_assoc, List.take_append_drop, hall]
      · rw [List.length_append, List.length_take]
        omega
      · rw [List.length_append, List.length_take]
        omega
      · rw [List.length_drop]
        omega
      · rw [List.length_append, List.length_take, List.length_drop]
        omega

end Heads

section Arrivals

variable {w w' : Wire} {fuel e n : ℕ} {line body input rest : Bytes} {s : Segments UInt8}

theorem Line.alone {ceiling : ℕ} (h : Line ceiling input line rest) (hshort : ceiling ≤ 8192) :
    takeLine ceiling (ceiling + 2) ⟨.cons (line ++ crlf) (ended_ne line) s, [], e, n⟩ =
      .ok (decodeText line) ⟨s, [], e, n⟩ := by
  obtain ⟨hplace, hlong, hinput⟩ := h
  have htwo : crlf.length = 2 := rfl
  rw [hinput, ← List.append_assoc] at hplace
  have harrived := indexOf_of_append crlf_ne hplace
  rw [if_pos (by rw [List.length_append])] at harrived
  refine takeLine_alone harrived hlong ?_
  rw [List.length_append]
  omega

theorem Trailers.arrive {total : ℕ} (h : Trailers Ceilings.wide.trailer total input rest) :
    ∃ s : Segments UInt8, s.all = input ∧ ∀ fuel e n, 32 * 1024 < total + 2 * fuel →
      ∃ w', takeTrailers fuel total ⟨s, [], e, n⟩ = .ok () w' := by
  induction h with
  | @done total input line rest hline hstep =>
    refine ⟨.cons (line ++ crlf) (ended_ne line) (.singly rest .empty), ?_, fun fuel e n hfuel => ?_⟩
    · rw [hline.2.2]
      simp
    · have htotal := trailerStep_none hstep
      obtain ⟨fuel, rfl⟩ : ∃ below, fuel = below + 1 := ⟨fuel - 1, by omega⟩
      refine ⟨⟨.singly rest .empty, [], e, n⟩, bind_ok.mpr ⟨_, _, hline.alone le_rfl, ?_⟩⟩
      rw [hstep]
      rfl
  | @more total next input line after rest hline hstep hrest ih =>
    obtain ⟨s, hs, hrun⟩ := ih
    refine ⟨.cons (line ++ crlf) (ended_ne line) s, ?_, fun fuel e n hfuel => ?_⟩
    · rw [hline.2.2, Segments.all_cons, hs, List.append_assoc]
    · obtain ⟨htotal, hnext⟩ := trailerStep_some hstep
      obtain ⟨fuel, rfl⟩ : ∃ below, fuel = below + 1 := ⟨fuel - 1, by omega⟩
      obtain ⟨w', hw'⟩ := hrun fuel e n (by omega)
      refine ⟨w', bind_ok.mpr ⟨_, _, hline.alone le_rfl, ?_⟩⟩
      rw [hstep]
      exact hw'

theorem readMore_singly (x : UInt8) (l : Bytes) (buffered : Bytes) :
    readMore ⟨.singly (x :: l) s, buffered, e, n⟩ = .ok () ⟨.singly l s, buffered ++ [x], e, n⟩ :=
  readMore_eq (Segments.read_singly (by decide))

theorem takeDelimiter_singly : takeDelimiter ⟨.singly crlf s, [], e, n⟩ = .ok () ⟨s, [], e, n⟩ := by
  have htwo : readTwo 3 ⟨.singly crlf s, [], e, n⟩ = .ok () ⟨s, crlf, e, n⟩ := by
    refine bind_ok.mpr ⟨_, _, rfl, ?_⟩
    refine (bind_eq (readMore_singly 13 [10] [])).trans ?_
    refine bind_ok.mpr ⟨_, _, rfl, ?_⟩
    exact (bind_eq (readMore_singly 10 [] [13])).trans rfl
  rw [takeDelimiter, bind_eq htwo]
  rfl

theorem refill_singly (x : UInt8) (l : Bytes) :
    refill ⟨.singly (x :: l) s, [], e, n⟩ = .ok () ⟨.singly l s, [x], e, n⟩ := by
  rw [refill, get_bind, if_pos rfl]
  exact readMore_singly x l []

theorem takeData_last (x : UInt8) :
    takeData ⟨.singly (x :: crlf) s, [], e, 1⟩ = .ok [x] ⟨s, [], e, 0⟩ := by
  rw [takeData, bind_eq (refill_singly x crlf)]
  refine bind_ok.mpr ⟨_, _, rfl, bind_ok.mpr ⟨_, _, rfl, ?_⟩⟩
  exact bind_ok.mpr ⟨(), _, takeDelimiter_singly, rfl⟩

theorem takeData_more (x : UInt8) (l : Bytes) :
    takeData ⟨.singly (x :: l) s, [], e, n + 2⟩ = .ok [x] ⟨.singly l s, [], e, n + 1⟩ := by
  have hone : min [x].length (n + 2) = 1 := Nat.min_eq_left (by simp)
  rw [takeData, bind_eq (refill_singly x l)]
  refine bind_ok.mpr ⟨_, _, rfl, bind_ok.mpr ⟨_, _, rfl, ?_⟩⟩
  dsimp only
  rw [hone]
  rfl

theorem drain_singly {data : Bytes} (hdata : data ≠ [])
    (h : drain .chunked fuel ⟨s, [], e, 0⟩ = .ok body w') :
    drain .chunked (fuel + data.length) ⟨.singly (data ++ crlf) s, [], e, data.length⟩ =
      .ok (data ++ body) w' := by
  induction data with
  | nil => exact absurd rfl hdata
  | cons x l ih =>
    have hpull : ∀ v, takeData ⟨.singly (x :: l ++ crlf) s, [], e, l.length + 1⟩ = .ok [x] v →
        pull .chunked ⟨.singly (x :: l ++ crlf) s, [], e, l.length + 1⟩ = .ok (some [x]) v := by
      intro v hv
      exact (pullChunked_data (Nat.succ_ne_zero _)).trans (bind_ok.mpr ⟨[x], v, hv, rfl⟩)
    rcases l with - | ⟨y, l⟩
    · exact bind_ok.mpr ⟨_, _, hpull _ (takeData_last x), bind_ok.mpr ⟨body, w', h, rfl⟩⟩
    · refine bind_ok.mpr ⟨_, _, hpull _ (takeData_more x _), ?_⟩
      exact bind_ok.mpr ⟨y :: l ++ body, w', ih (List.cons_ne_nil y l), rfl⟩

theorem Chunked.arrive {chunks : List Bytes} (h : Chunked .wide input chunks rest) :
    ∃ s : Segments UInt8, s.all = input ∧ ∀ fuel, input.length < fuel → ∀ e,
      ∃ w', drain .chunked fuel ⟨s, [], e, 0⟩ = .ok chunks.flatten w' := by
  induction h with
  | @last input line after rest hline hsize htrailers =>
    obtain ⟨s, hs, hrun⟩ := htrailers.arrive
    refine ⟨.cons (line ++ crlf) (ended_ne line) s, ?_, fun fuel hfuel e => ?_⟩
    · rw [hline.2.2, Segments.all_cons, hs, List.append_assoc]
    · obtain ⟨fuel, rfl⟩ : ∃ below, fuel = below + 1 := ⟨fuel - 1, by omega⟩
      obtain ⟨w', hw'⟩ := hrun (16 * 1024 + 2) e 0 (by omega)
      refine ⟨w', bind_ok.mpr ⟨none, w', ?_, rfl⟩⟩
      refine (pullChunked_line rfl (hline.alone (by decide))).trans ?_
      rw [hsize]
      exact bind_ok.mpr ⟨(), w', hw', rfl⟩
  | @chunk input line data after rest chunks hline hsize hne hrest ih =>
    obtain ⟨s, hs, hrun⟩ := ih
    refine ⟨.cons (line ++ crlf) (ended_ne line) (.singly (data ++ crlf) s), ?_, fun fuel hfuel e => ?_⟩
    · rw [hline.2.2, Segments.all_cons, Segments.all_singly, hs]
      simp
    · have hlength := congrArg List.length hline.2.2
      rw [List.length_append, List.length_append, List.length_append, List.length_append] at hlength
      have hpos := List.length_pos_iff.mpr hne
      obtain ⟨below, rfl⟩ : ∃ below, fuel = below + data.length := ⟨fuel - data.length, by omega⟩
      obtain ⟨w', hw'⟩ := hrun below (by omega) e
      have hdrain := drain_singly hne hw'
      refine ⟨w', ?_⟩
      obtain ⟨size, hsucc⟩ : ∃ size, data.length = size + 1 := ⟨data.length - 1, by omega⟩
      rw [hsucc] at hdrain ⊢
      refine (bind_from ?_).trans hdrain
      refine (pullChunked_line rfl (hline.alone (by decide))).trans ?_
      rw [hsize, hsucc]
      exact (pullChunked_data (Nat.succ_ne_zero size)).symm

end Arrivals

section Requests

variable {w w' : Wire} {method : FetchMethod} {c : Ceilings} {received : Received} {bytes rest : Bytes}
  {conn : Segments UInt8}

theorem fetch_parsed {head : Bytes} {parsed : ResponseHead} {u : Wire}
    (hhead : readHeaders (64 * 1024 + 2) [] w = .ok head u) (hparsed : parseHead head = .ok parsed) :
    fetch method w =
      if method = .head then .ok ⟨parsed.status, parsed.headers, []⟩ u
      else (drain parsed.framing (u.pending.length + 2) >>= fun body =>
        pure ⟨parsed.status, parsed.headers, body⟩) u := by
  rw [fetch, bind_eq hhead, hparsed]
  dsimp only
  split_ifs
  · rfl
  · rfl

theorem fetch_ok (hadmits : Admits c (.initial conn)) (h : fetch method (.initial conn) = .ok received w') :
    Response c method conn.all received w'.pending := by
  cases hhead : readHeaders (64 * 1024 + 2) [] (.initial conn) with
  | error e u => exact nomatch h.symm.trans (bind_error.mpr (Or.inl hhead))
  | ok head u =>
    obtain ⟨hplace, hwide, hall, hchunk, hemitted, hsingle⟩ := readHeaders_ok (by rfl) hhead
    change indexOf headEnd conn.all = some head.length at hplace
    change conn.all = head ++ (headEnd ++ u.pending) at hall
    have hshort : head.length + 4 ≤ c.head ∧ Admits c u := by
      rcases hadmits with rfl | ⟨rfl, hstep⟩
      · exact ⟨hwide, Or.inl rfl⟩
      · exact ⟨(hsingle hstep.1).1, Or.inr ⟨rfl, (hsingle hstep.1).2⟩⟩
    cases hparsed : parseHead head with
    | error e =>
      rw [fetch, bind_eq hhead, hparsed] at h
      exact nomatch h
    | ok parsed =>
      rw [fetch_parsed hhead hparsed] at h
      rw [hall] at hplace ⊢
      by_cases hmethod : method = .head
      · rw [if_pos hmethod] at h
        obtain ⟨rfl, rfl⟩ := EStateM.Result.ok.inj h
        exact .bodiless hmethod hplace hshort.1 hparsed
      · rw [if_neg hmethod] at h
        obtain ⟨body, v, hdrain, h⟩ := bind_ok.mp h
        obtain ⟨rfl, rfl⟩ := EStateM.Result.ok.inj h
        refine .framed hmethod hplace hshort.1 hparsed ?_
        cases hframing : parsed.framing with
        | length length =>
          rw [hframing] at hdrain
          obtain ⟨hpending, hlength⟩ := drain_length_ok hdrain
          rw [hemitted] at hlength
          obtain rfl : body.length = length := hlength
          rw [hpending]
          exact .length body v.pending
        | chunked =>
          rw [hframing] at hdrain
          have hremains := drain_chunked_ok hshort.2 hdrain
          rw [hchunk] at hremains
          obtain ⟨chunks, hchunks, rfl⟩ := hremains
          exact .chunked hchunks

theorem response_head {head after : Bytes} (h : indexOf headEnd (head ++ (headEnd ++ after)) = some head.length)
    (hall : conn.all = head ++ (headEnd ++ after)) (hshort : head.length + 4 ≤ 64 * 1024 + 1) :
    ∃ u, readHeaders (64 * 1024 + 2) [] (.initial conn) = .ok head u ∧ u.pending = after ∧
      u.chunkRemaining = 0 ∧ u.emitted = 0 := by
  obtain ⟨other, u, hread⟩ : ∃ head u, readHeaders (64 * 1024 + 2) [] (.initial conn) = .ok head u :=
    readHeaders_some rfl (hall.symm ▸ h) hshort (by rw [List.length_nil]; omega)
  obtain ⟨hplace, -, hsplit, hchunk, hemitted, -⟩ := readHeaders_ok (by rfl) hread
  change indexOf headEnd conn.all = some other.length at hplace
  change conn.all = other ++ (headEnd ++ u.pending) at hsplit
  rw [hall, h] at hplace
  obtain ⟨rfl, hrest⟩ := List.append_inj (hall.symm.trans hsplit) (Option.some.inj hplace)
  exact ⟨u, hread, (List.append_cancel_left hrest).symm, hchunk, hemitted⟩

theorem fetch_some (h : Response .narrow method conn.all received rest) :
    ∃ w', fetch method (.initial conn) = .ok received w' := by
  generalize hbytes : conn.all = bytes at h
  cases h with
  | bodiless hmethod hhead hshort hparsed =>
    obtain ⟨u, hread, -⟩ := response_head hhead hbytes hshort
    exact ⟨u, by rw [fetch_parsed hread hparsed, if_pos hmethod]⟩
  | @framed head after body rest parsed hmethod hhead hshort hparsed hbody =>
    obtain ⟨u, hread, hpending, hchunk, hemitted⟩ := response_head hhead hbytes hshort
    have hdrain : ∃ w', drain parsed.framing (u.pending.length + 2) u = .ok body w' := by
      generalize parsed.framing = framing at hbody
      cases hbody with
      | length body rest =>
        obtain ⟨other, w', hdrain⟩ : ∃ other w',
            drain (.length body.length) (u.pending.length + 2) u = .ok other w' :=
          drain_length_some (by rw [hpending, List.length_append]; omega) (by omega)
        obtain ⟨hall, hlength⟩ := drain_length_ok hdrain
        rw [hemitted] at hlength
        obtain ⟨rfl, -⟩ := List.append_inj (hpending.symm.trans hall) hlength.symm
        exact ⟨w', hdrain⟩
      | chunked hchunks =>
        refine drain_chunked_some (show Remains .narrow u.chunkRemaining u.pending _ rest from ?_) (by omega)
        rw [hchunk, hpending]
        exact ⟨_, hchunks, rfl⟩
    obtain ⟨w', hdrain⟩ := hdrain
    refine ⟨w', ?_⟩
    rw [fetch_parsed hread hparsed, if_neg hmethod]
    exact bind_ok.mpr ⟨body, w', hdrain, rfl⟩

def arriving (head : Bytes) (s : Segments UInt8) : Segments UInt8 :=
  .cons (head ++ headEnd) (List.append_ne_nil_of_right_ne_nil _ headEnd_ne) s

theorem readHeaders_arriving {s : Segments UInt8} {head after : Bytes} (hs : s.all = after)
    (hplace : indexOf headEnd (head ++ (headEnd ++ after)) = some head.length)
    (hshort : head.length + 4 ≤ 68 * 1024) : (arriving head s).all = head ++ (headEnd ++ after) ∧
      readHeaders (64 * 1024 + 2) [] (.initial (arriving head s)) = .ok head ⟨s, [], 0, 0⟩ := by
  constructor
  · rw [arriving, Segments.all_cons, hs, List.append_assoc]
  · rw [← List.append_assoc] at hplace
    have harrived := indexOf_of_append headEnd_ne hplace
    rw [if_pos (by rw [List.length_append])] at harrived
    exact readHeaders_alone (k := 0) _ harrived rfl hshort rfl (by rw [List.length_nil]; omega)

theorem fetch_arrives (h : Response .wide method bytes received rest) :
    ∃ conn w', conn.all = bytes ∧ fetch method (.initial conn) = .ok received w' := by
  cases h with
  | @bodiless head _ parsed hmethod hhead hshort hparsed =>
    have hall : (Segments.singly rest .empty).all = rest := by simp
    obtain ⟨hbytes, hread⟩ := readHeaders_arriving hall hhead hshort
    exact ⟨_, _, hbytes, by rw [fetch_parsed hread hparsed, if_pos hmethod]⟩
  | @framed head after body _ parsed hmethod hhead hshort hparsed hbody =>
    have hdrain : ∃ s : Segments UInt8, s.all = after ∧
        ∃ w', drain parsed.framing (after.length + 2) ⟨s, [], 0, 0⟩ = .ok body w' := by
      generalize parsed.framing = framing at hbody
      cases hbody with
      | length body rest =>
        have hall : (Segments.singly (body ++ rest) .empty).all = body ++ rest := by simp
        refine ⟨.singly (body ++ rest) .empty, hall, ?_⟩
        obtain ⟨other, w', hdrain⟩ : ∃ other w', drain (.length body.length) ((body ++ rest).length + 2)
            ⟨.singly (body ++ rest) .empty, [], 0, 0⟩ = .ok other w' :=
          drain_length_some (by rw [Wire.pending, hall]; simp) (by rw [Wire.pending, hall]; simp)
        obtain ⟨hpending, hlength⟩ := drain_length_ok hdrain
        change (Segments.singly (body ++ rest) .empty).all = _ at hpending
        rw [hall] at hpending
        obtain ⟨rfl, -⟩ := List.append_inj hpending hlength.symm
        exact ⟨w', hdrain⟩
      | chunked hchunks =>
        obtain ⟨s, hs, hrun⟩ := hchunks.arrive
        exact ⟨s, hs, hrun _ (by omega) 0⟩
    obtain ⟨s, hs, w', hdrain⟩ := hdrain
    obtain ⟨hbytes, hread⟩ := readHeaders_arriving hs hhead hshort
    refine ⟨_, w', hbytes, ?_⟩
    rw [fetch_parsed hread hparsed, if_neg hmethod]
    refine bind_ok.mpr ⟨body, w', ?_, rfl⟩
    rw [← hs] at hdrain
    exact hdrain

end Requests

section Endings

variable {w w' : Wire} {fuel ceiling : ℕ}

theorem readMore_avoids : Avoids .spinning readMore := by
  intro w w' h
  rw [readMore, get_bind] at h
  cases hread : w.conn.read (64 * 1024) with
  | none =>
    rw [hread] at h
    exact nomatch h
  | some found =>
    rw [hread] at h
    exact nomatch h

theorem takeLine_ends (hfuel : ceiling + 1 < w.remainder.length + fuel) (hpos : 0 < fuel) :
    takeLine ceiling fuel w ≠ .error .spinning w' := by
  induction fuel generalizing w with
  | zero => exact absurd hpos (lt_irrefl 0)
  | succ fuel ih =>
    intro h
    cases hplace : indexOf crlf w.remainder with
    | some i =>
      rw [takeLine_found hplace] at h
      split_ifs at h
      exact nomatch (EStateM.Result.error.inj h).1
    | none =>
      rw [takeLine_none hplace] at h
      split_ifs at h with hlong
      · exact nomatch (EStateM.Result.error.inj h).1
      · rcases bind_error.mp h with h | ⟨a, u, hread, h⟩
        · exact readMore_avoids w w' h
        · obtain ⟨piece, hon⟩ := readMore_ok hread
          have hpiece := List.length_pos_iff.mpr hon.taken
          have hlength : u.remainder.length = w.remainder.length + piece.length := by
            rw [hon.remainder, List.length_append]
          exact ih (by omega) (by omega) h

theorem readTwo_ends (hfuel : 2 < w.remainder.length + fuel) (hpos : 0 < fuel) :
    readTwo fuel w ≠ .error .spinning w' := by
  induction fuel generalizing w with
  | zero => exact absurd hpos (lt_irrefl 0)
  | succ fuel ih =>
    intro h
    rw [readTwo, get_bind] at h
    split_ifs at h with hshort
    · rcases bind_error.mp h with h | ⟨a, u, hread, h⟩
      · exact readMore_avoids w w' h
      · obtain ⟨piece, hon⟩ := readMore_ok hread
        have hpiece := List.length_pos_iff.mpr hon.taken
        have hlength : u.remainder.length = w.remainder.length + piece.length := by
          rw [hon.remainder, List.length_append]
        exact ih (by omega) (by omega) h
    · exact nomatch h

theorem refill_avoids : Avoids .spinning refill :=
  Avoids.get.bind fun _ => .ite readMore_avoids (.pure _)

theorem takeDelimiter_avoids : Avoids .spinning takeDelimiter := by
  have htwo : Avoids .spinning (readTwo 3) := fun w w' => readTwo_ends (by omega) (by omega)
  exact htwo.bind fun _ => Avoids.get.bind fun _ => .ite (fun _ _ h => nomatch h) (.throw nofun)

theorem takeData_avoids : Avoids .spinning takeData :=
  refill_avoids.bind fun _ => Avoids.get.bind fun _ =>
    .bind (fun _ _ h => nomatch h) fun _ => .bind (.ite takeDelimiter_avoids (.pure _)) fun _ => .pure _

theorem takeTrailers_ends {total : ℕ} (htotal : total ≤ 32 * 1024) (hfuel : 32 * 1024 < total + 2 * fuel) :
    takeTrailers fuel total w ≠ .error .spinning w' := by
  induction fuel generalizing w total with
  | zero => omega
  | succ fuel ih =>
    intro h
    rcases bind_error.mp h with h | ⟨trailer, u, -, h⟩
    · exact takeLine_ends (by omega) (by omega) h
    · cases hstep : trailerStep total trailer with
      | error e =>
        rw [hstep] at h
        exact trailerStep_error hstep (EStateM.Result.error.inj h).1
      | ok next =>
        rw [hstep] at h
        cases next with
        | none => exact nomatch h
        | some next =>
          obtain ⟨hmore, hle⟩ := trailerStep_some hstep
          exact ih hle (by omega) h

theorem pullChunked_avoids : Avoids .spinning pullChunked := by
  have hdata : Avoids .spinning (takeData >>= fun chunk => pure (some chunk)) :=
    takeData_avoids.bind fun _ => .pure _
  refine Avoids.get.bind fun w => .ite ?_ hdata
  have hline : Avoids .spinning (takeLine 4096 (4096 + 2)) :=
    fun w w' => takeLine_ends (by omega) (by omega)
  refine hline.bind fun sizeLine => ?_
  rcases chunkSize sizeLine with - | - | size
  · exact .throw nofun
  · exact .bind (fun w w' => takeTrailers_ends (Nat.zero_le _) (by omega)) fun _ => .pure _
  · exact .bind (fun _ _ h => nomatch h) fun _ => hdata

theorem pullLength_avoids (length : ℕ) : Avoids .spinning (pullLength length) :=
  Avoids.get.bind fun _ => .ite (.pure _) (refill_avoids.bind fun _ => Avoids.get.bind fun _ =>
    .bind (fun _ _ h => nomatch h) fun _ => .pure _)

theorem pull_shortens {framing : BodyFraming} {chunk : Bytes} (h : pull framing w = .ok (some chunk) w') :
    w'.pending.length < w.pending.length := by
  have hdata : ∀ v : Wire, v.chunkRemaining ≠ 0 →
      (takeData >>= fun chunk => pure (some chunk)) v = .ok (some chunk) w' →
        w'.pending.length < v.pending.length := by
    intro v hleft hpulled
    obtain ⟨piece, v', htake, hpure⟩ := bind_ok.mp hpulled
    obtain ⟨-, rfl⟩ := EStateM.Result.ok.inj hpure
    obtain ⟨hne, -, -, hpending, -⟩ := takeData_ok (Nat.pos_of_ne_zero hleft) htake
    have hpos := List.length_pos_iff.mpr hne
    rw [hpending, List.length_append, List.length_append]
    omega
  cases framing with
  | length length =>
    change pullLength length w = _ at h
    rw [pullLength, get_bind] at h
    split_ifs at h with hdone
    · exact nomatch (EStateM.Result.ok.inj h).1
    · obtain ⟨_, v, hrefill, h⟩ := bind_ok.mp h
      obtain ⟨hne, hpending, -, hemitted, -⟩ := refill_ok hrefill
      rw [get_bind] at h
      obtain ⟨_, v', hset, h⟩ := bind_ok.mp h
      obtain ⟨-, rfl⟩ := EStateM.Result.ok.inj hset
      obtain ⟨-, rfl⟩ := EStateM.Result.ok.inj h
      have hpos := List.length_pos_iff.mpr hne
      rw [← hpending, Wire.pending, Wire.pending, List.length_append, List.length_append,
        List.length_drop]
      dsimp only
      omega
  | chunked =>
    change pullChunked w = _ at h
    by_cases hleft : w.chunkRemaining = 0
    · cases hline : takeLine 4096 (4096 + 2) w with
      | error e v =>
        rw [pullChunked, get_bind, if_pos hleft] at h
        exact nomatch h.symm.trans (bind_error.mpr (Or.inl hline))
      | ok text v =>
        rw [pullChunked_line hleft hline] at h
        obtain ⟨line, hfirst, -, -⟩ := takeLine_ok hline
        have hlength := congrArg List.length hfirst.2.2
        rw [List.length_append, List.length_append] at hlength
        rcases hsize : chunkSize text with - | - | size
        · rw [hsize] at h
          exact nomatch h
        · rw [hsize] at h
          obtain ⟨_, v', -, hpure⟩ := bind_ok.mp h
          exact nomatch (EStateM.Result.ok.inj hpure).1
        · rw [hsize] at h
          have hless := hdata { v with chunkRemaining := size + 1 } (Nat.succ_ne_zero size) h
          change _ < v.pending.length at hless
          omega
    · rw [pullChunked_data hleft] at h
      exact hdata w hleft h

theorem drain_ends {framing : BodyFraming} (hfuel : w.pending.length < fuel) :
    drain framing fuel w ≠ .error .spinning w' := by
  induction fuel generalizing w with
  | zero => exact absurd hfuel (Nat.not_lt_zero _)
  | succ fuel ih =>
    intro h
    rcases bind_error.mp h with h | ⟨chunk, u, hpull, h⟩
    · cases framing with
      | length length => exact pullLength_avoids length w w' h
      | chunked => exact pullChunked_avoids w w' h
    · cases chunk with
      | none => exact nomatch h
      | some chunk =>
        rcases bind_error.mp h with h | ⟨rest, v, -, h⟩
        · have hless := pull_shortens hpull
          exact ih (by omega) h
        · exact nomatch h

theorem readHeaders_ends {aggregate : Bytes} (hfuel : 64 * 1024 + 1 < aggregate.length + fuel) (hpos : 0 < fuel) :
    readHeaders fuel aggregate w ≠ .error .spinning w' := by
  induction fuel generalizing w aggregate with
  | zero => exact absurd hpos (lt_irrefl 0)
  | succ fuel ih =>
    intro h
    rw [readHeaders] at h
    split_ifs at h with hlong
    · exact nomatch h
    · rw [get_bind] at h
      cases hread : w.conn.read 4096 with
      | none =>
        rw [hread] at h
        exact nomatch h
      | some found =>
        obtain ⟨piece, conn⟩ := found
        have hpiece := List.length_pos_iff.mpr (Segments.read_eq_some (by decide) hread).2.1
        rw [hread] at h
        dsimp only at h
        cases hplace : (indexOf headEnd ((aggregate ++ piece).drop (aggregate.length - 3))).map
            (· + (aggregate.length - 3)) with
        | some index =>
          rw [hplace] at h
          exact nomatch h
        | none =>
          rw [hplace] at h
          refine ih ?_ (by omega) h
          rw [List.length_append]
          omega

theorem fetch_avoids (method : FetchMethod) : Avoids .spinning (fetch method) := by
  intro w w' h
  rcases bind_error.mp h with h | ⟨head, u, hread, -⟩
  · exact readHeaders_ends (by rw [List.length_nil]; omega) (by omega) h
  · cases hparsed : parseHead head with
    | error e =>
      rw [fetch, bind_eq hread, hparsed] at h
      exact parseHead_error hparsed (EStateM.Result.error.inj h).1
    | ok parsed =>
      rw [fetch_parsed hread hparsed] at h
      split_ifs at h
      rcases bind_error.mp h with h | ⟨body, v, -, h⟩
      · exact drain_ends (by omega) h
      · exact nomatch h

end Endings

section Grammar

variable {c c' : Ceilings} {input line body rest rest' : Bytes} {method : FetchMethod}
  {received received' : Received} {ceiling ceiling' : ℕ}

theorem Line.frame (h : Line ceiling input line rest) (more : Bytes) :
    Line ceiling (input ++ more) line (rest ++ more) := by
  refine ⟨indexOf_append crlf_ne h.1 more, h.2.1, ?_⟩
  conv_lhs => rw [h.2.2]
  simp

theorem Trailers.frame {total : ℕ} (h : Trailers ceiling total input rest) (more : Bytes) :
    Trailers ceiling total (input ++ more) (rest ++ more) := by
  induction h with
  | done hline hstep => exact .done (hline.frame more) hstep
  | more hline hstep hrest ih => exact .more (hline.frame more) hstep ih

theorem Line.suffix (h : Line ceiling input line rest) : rest <:+ input :=
  ⟨line ++ crlf, by rw [h.2.2, List.append_assoc]⟩

theorem Trailers.suffix {total : ℕ} (h : Trailers ceiling total input rest) : rest <:+ input := by
  induction h with
  | done hline hstep => exact hline.suffix
  | more hline hstep hrest ih => exact ih.trans hline.suffix

theorem Trailers.unique {total : ℕ} (h : Trailers ceiling total input rest)
    (h' : Trailers ceiling' total input rest') : rest = rest' := by
  induction h with
  | done hline hstep =>
    cases h' with
    | done hline' hstep' => exact (hline.unique hline').2
    | more hline' hstep' hrest' =>
      obtain ⟨rfl, -⟩ := hline.unique hline'
      exact nomatch Except.ok.inj (hstep.symm.trans hstep')
  | more hline hstep hrest ih =>
    cases h' with
    | done hline' hstep' =>
      obtain ⟨rfl, -⟩ := hline.unique hline'
      exact nomatch Except.ok.inj (hstep.symm.trans hstep')
    | more hline' hstep' hrest' =>
      obtain ⟨rfl, rfl⟩ := hline.unique hline'
      obtain rfl := Option.some.inj (Except.ok.inj (hstep.symm.trans hstep'))
      exact ih hrest'

theorem Chunked.frame {chunks : List Bytes} (h : Chunked c input chunks rest) (more : Bytes) :
    Chunked c (input ++ more) chunks (rest ++ more) := by
  induction h with
  | last hline hsize hrest => exact .last (hline.frame more) hsize (hrest.frame more)
  | chunk hline hsize hdata hrest ih =>
    refine .chunk ?_ hsize hdata ih
    have hframed := hline.frame more
    rwa [List.append_assoc, List.append_assoc] at hframed

theorem Chunked.suffix {chunks : List Bytes} (h : Chunked c input chunks rest) : rest <:+ input := by
  induction h with
  | last hline hsize hrest => exact hrest.suffix.trans hline.suffix
  | chunk hline hsize hdata hrest ih =>
    refine (ih.trans ?_).trans hline.suffix
    exact (List.suffix_append _ _).trans (List.suffix_append _ _)

theorem Chunked.unique {chunks chunks' : List Bytes} (h : Chunked c input chunks rest)
    (h' : Chunked c' input chunks' rest') : rest = rest' := by
  induction h generalizing chunks' with
  | last hline hsize hrest =>
    cases h' with
    | last hline' hsize' hrest' =>
      obtain ⟨-, rfl⟩ := hline.unique hline'
      exact hrest.unique hrest'
    | chunk hline' hsize' hdata' hrest' =>
      obtain ⟨rfl, -⟩ := hline.unique hline'
      have hzero := Option.some.inj (hsize.symm.trans hsize')
      exact absurd (List.length_eq_zero_iff.mp hzero.symm) hdata'
  | chunk hline hsize hdata hrest ih =>
    cases h' with
    | last hline' hsize' hrest' =>
      obtain ⟨rfl, -⟩ := hline.unique hline'
      have hzero := Option.some.inj (hsize.symm.trans hsize')
      exact absurd (List.length_eq_zero_iff.mp hzero) hdata
    | chunk hline' hsize' hdata' hrest' =>
      obtain ⟨rfl, hsame⟩ := hline.unique hline'
      have hlength := Option.some.inj (hsize.symm.trans hsize')
      obtain ⟨rfl, hafter⟩ := List.append_inj hsame hlength
      obtain rfl := List.append_cancel_left hafter
      exact ih hrest'

theorem Body.frame {framing : BodyFraming} (h : Body c framing input body rest) (more : Bytes) :
    Body c framing (input ++ more) body (rest ++ more) := by
  cases h with
  | length body rest =>
    rw [List.append_assoc]
    exact .length body (rest ++ more)
  | chunked hchunks => exact .chunked (hchunks.frame more)

theorem Body.unique {framing : BodyFraming} {body' : Bytes} (h : Body c framing input body rest)
    (h' : Body c' framing input body' rest') : rest = rest' := by
  cases h with
  | length body rest =>
    generalize hframing : BodyFraming.length body.length = framing at h'
    generalize hinput : body ++ rest = input at h'
    cases h' with
    | length body' rest' => exact (List.append_inj hinput (BodyFraming.length.inj hframing)).2
    | chunked => exact nomatch hframing
  | chunked hchunks =>
    cases h' with
    | chunked hchunks' => exact hchunks.unique hchunks'

theorem Response.suffix (h : Response c method input received rest) : rest <:+ input := by
  have hbehind : ∀ head after : Bytes, after <:+ head ++ (headEnd ++ after) := fun head after =>
    (List.suffix_append _ _).trans (List.suffix_append _ _)
  cases h with
  | bodiless => exact hbehind _ _
  | @framed head after body _ parsed hmethod hhead hshort hparsed hbody =>
    refine List.IsSuffix.trans ?_ (hbehind head after)
    generalize parsed.framing = framing at hbody
    cases hbody with
    | length => exact List.suffix_append _ _
    | chunked hchunks => exact hchunks.suffix

theorem Response.frame (h : Response c method input received rest) (more : Bytes) :
    Response c method (input ++ more) received (rest ++ more) := by
  have hall : ∀ head after : Bytes, (head ++ (headEnd ++ after)) ++ more =
      head ++ (headEnd ++ (after ++ more)) := by simp
  cases h with
  | bodiless hmethod hhead hshort hparsed =>
    have hframed := indexOf_append headEnd_ne hhead more
    rw [hall] at hframed ⊢
    exact .bodiless hmethod hframed hshort hparsed
  | framed hmethod hhead hshort hparsed hbody =>
    have hframed := indexOf_append headEnd_ne hhead more
    rw [hall] at hframed ⊢
    exact .framed hmethod hframed hshort hparsed (hbody.frame more)

theorem Response.unique (h : Response c method input received rest)
    (h' : Response c' method input received' rest') : rest = rest' := by
  have hheads : ∀ head after head' after' : Bytes,
      indexOf headEnd (head ++ (headEnd ++ after)) = some head.length →
      indexOf headEnd (head' ++ (headEnd ++ after')) = some head'.length →
      head ++ (headEnd ++ after) = head' ++ (headEnd ++ after') → head = head' ∧ after = after' := by
    intro head after head' after' hhead hhead' hsame
    rw [hsame, hhead'] at hhead
    obtain ⟨rfl, hrest⟩ := List.append_inj hsame (Option.some.inj hhead).symm
    exact ⟨rfl, List.append_cancel_left hrest⟩
  cases h with
  | @bodiless head _ parsed hmethod hhead hshort hparsed =>
    generalize hinput : head ++ (headEnd ++ rest) = input at h'
    cases h' with
    | bodiless hmethod' hhead' => exact (hheads _ _ _ _ hhead hhead' hinput).2
    | framed hmethod' => exact absurd hmethod hmethod'
  | @framed head after body _ parsed hmethod hhead hshort hparsed hbody =>
    generalize hinput : head ++ (headEnd ++ after) = input at h'
    cases h' with
    | bodiless hmethod' => exact absurd hmethod' hmethod
    | framed hmethod' hhead' hshort' hparsed' hbody' =>
      obtain ⟨rfl, rfl⟩ := hheads _ _ _ _ hhead hhead' hinput
      obtain rfl := Except.ok.inj (hparsed.symm.trans hparsed')
      exact hbody.unique hbody'

end Grammar

section Segmentations

variable {method : FetchMethod} {bytes : Bytes}

/-- What is received depends on the bytes alone, it is a response of the grammar, and no response that
has been cut off is received. -/
structure Framed (method : FetchMethod) (bytes : Bytes) : Prop where
  ends : ∀ conn : Segments UInt8, conn.all = bytes → ∀ w, fetch method (.initial conn) ≠ .error .spinning w
  same : ∀ a b : Segments UInt8, a.all = bytes → b.all = bytes → outcome method a = outcome method b
  exact : ∀ conn received, conn.all = bytes → outcome method conn = some received →
    ∃ used rest, bytes = used ++ rest ∧ Response .wide method bytes received rest ∧
      ∀ cut : Segments UInt8, cut.all <+: used → cut.all ≠ used → outcome method cut = none

theorem outcome_eq_some {conn : Segments UInt8} {received : Received} :
    outcome method conn = some received ↔ ∃ w, fetch method (.initial conn) = .ok received w :=
  returned_eq_some

theorem fetch_used {conn : Segments UInt8} {received : Received} {w : Wire}
    (h : fetch method (.initial conn) = .ok received w) :
    ∃ used, conn.all = used ++ w.pending ∧ Response .wide method conn.all received w.pending ∧
      ∀ cut : Segments UInt8, cut.all <+: used → cut.all ≠ used → outcome method cut = none := by
  have hresponse := fetch_ok (Or.inl rfl) h
  obtain ⟨used, hused⟩ := hresponse.suffix
  refine ⟨used, hused.symm, hresponse, fun cut hcut hne => ?_⟩
  obtain ⟨more, rfl⟩ := hcut
  cases hreceived : outcome method cut with
  | none => rfl
  | some other =>
    obtain ⟨v, hv⟩ := outcome_eq_some.mp hreceived
    have hframed := (fetch_ok (Or.inl rfl) hv).frame (more ++ w.pending)
    rw [← List.append_assoc, hused] at hframed
    have hlength := congrArg List.length (hresponse.unique hframed)
    rw [List.length_append, List.length_append] at hlength
    have hnil : more = [] := List.length_eq_zero_iff.mp (by omega)
    exact absurd (by rw [hnil, List.append_nil]) hne

/-- What is received is the same for all segmentations exactly if a response within the greater ceilings
is also within the smaller ones. -/
theorem framing_uniform (method : FetchMethod) (bytes : Bytes) : Framed method bytes ↔
    ∀ received rest, Response .wide method bytes received rest →
      Response .narrow method bytes received rest := by
  constructor
  · intro h received rest hwide
    obtain ⟨conn, w, hconn, hfetch⟩ := fetch_arrives hwide
    have hall : (Segments.singly bytes .empty).all = bytes := by simp
    have hsingly : outcome method (.singly bytes .empty) = some received := by
      rw [← h.same conn _ hconn hall]
      exact outcome_eq_some.mpr ⟨w, hfetch⟩
    obtain ⟨v, hv⟩ := outcome_eq_some.mp hsingly
    have hnarrow : Response .narrow method (Segments.singly bytes .empty).all received v.pending :=
      fetch_ok (Or.inr ⟨rfl, Segments.single_singly bytes, rfl⟩) hv
    rw [hall] at hnarrow
    rwa [hnarrow.unique hwide] at hnarrow
  · intro h
    have hsame : ∀ a b : Segments UInt8, a.all = bytes → b.all = bytes →
        ∀ received, outcome method a = some received → outcome method b = some received := by
      intro a b ha hb received hreceived
      obtain ⟨w, hw⟩ := outcome_eq_some.mp hreceived
      have hwide := fetch_ok (Or.inl rfl) hw
      rw [ha] at hwide
      have hnarrow := h received w.pending hwide
      rw [← hb] at hnarrow
      exact outcome_eq_some.mpr (fetch_some hnarrow)
    refine ⟨fun conn _ w => fetch_avoids method _ w, fun a b ha hb => ?_, fun conn received hconn hreceived => ?_⟩
    · cases hreceived : outcome method a with
      | some received => exact (hsame a b ha hb received hreceived).symm
      | none =>
        cases hother : outcome method b with
        | none => rfl
        | some received => exact nomatch hreceived.symm.trans (hsame b a hb ha received hother)
    · obtain ⟨w, hw⟩ := outcome_eq_some.mp hreceived
      obtain ⟨used, hall, hwide, hcut⟩ := fetch_used hw
      rw [hconn] at hall hwide
      exact ⟨used, w.pending, hall, hwide, hcut⟩

def sampleHead : Bytes :=
  "HTTP/1.1 200 OK\x0d\nTransfer-Encoding: chunked".toList.map fun c => UInt8.ofNat c.toNat

/-- The line of a last chunk with an extension, as long as the ceiling. -/
def sampleLine : Bytes :=
  48 :: 59 :: List.replicate 4094 97

def sampleBytes : Bytes :=
  sampleHead ++ (headEnd ++ (sampleLine ++ (crlf ++ crlf)))

def sampleReceived : Received :=
  ⟨200, [("transfer-encoding".toList, "chunked".toList)], []⟩

theorem sample_head (rest : Bytes) :
    indexOf headEnd (sampleHead ++ (headEnd ++ rest)) = some sampleHead.length := by
  rfl

theorem sample_parsed : parseHead sampleHead =
    .ok ⟨200, [("transfer-encoding".toList, "chunked".toList)], .chunked⟩ := by
  rfl

theorem sample_line (rest : Bytes) :
    indexOf crlf (sampleLine ++ (crlf ++ rest)) = some sampleLine.length := by
  refine indexOf_behind (fun hmem => ?_) rest
  rcases List.mem_cons.mp hmem with heq | hmem
  · exact absurd heq (by decide)
  · rcases List.mem_cons.mp hmem with heq | hmem
    · exact absurd heq (by decide)
    · exact absurd (List.eq_of_mem_replicate hmem) (by decide)

theorem sample_length : sampleLine.length = 4096 := by
  rw [sampleLine, List.length_cons, List.length_cons, List.length_replicate]

theorem sample_size : chunkSize (decodeText sampleLine) = some 0 := by
  rw [sampleLine]
  generalize List.replicate 4094 97 = rest
  rfl

theorem sample_wide : Response .wide .get sampleBytes sampleReceived [] := by
  have hline : Line 4096 (sampleLine ++ (crlf ++ crlf)) sampleLine crlf :=
    ⟨sample_line crlf, sample_length.le, rfl⟩
  have hend : Line 8192 crlf [] [] := ⟨rfl, Nat.zero_le _, rfl⟩
  have hchunked : Chunked .wide (sampleLine ++ (crlf ++ crlf)) [] [] :=
    .last hline sample_size (.done hend rfl)
  have hshort : sampleHead.length + 4 ≤ Ceilings.wide.head := by decide
  exact .framed (by decide) (sample_head _) hshort sample_parsed (.chunked hchunked)

theorem sample_singly : outcome .get (.singly sampleBytes .empty) = none := by
  cases hreceived : outcome .get (.singly sampleBytes .empty) with
  | none => rfl
  | some received =>
    obtain ⟨w, hw⟩ := outcome_eq_some.mp hreceived
    have hnarrow : Response .narrow .get (Segments.singly sampleBytes .empty).all received w.pending :=
      fetch_ok (Or.inr ⟨rfl, Segments.single_singly sampleBytes, rfl⟩) hw
    rw [Segments.all_singly, Segments.all_empty, List.append_nil] at hnarrow
    have hline : ∀ {body rest}, Body .narrow .chunked (sampleLine ++ (crlf ++ crlf)) body rest → False := by
      intro body rest hbody
      have hshort : ∀ {line rest}, Line 4095 (sampleLine ++ (crlf ++ crlf)) line rest → False := by
        intro line rest hline
        have hlength := Option.some.inj ((sample_line crlf).symm.trans hline.1)
        have hle := hline.2.1
        rw [← hlength, sample_length] at hle
        omega
      cases hbody with
      | chunked hchunks =>
        cases hchunks with
        | last hline => exact hshort hline
        | chunk hline => exact hshort hline
    generalize hbytes : sampleBytes = bytes at hnarrow
    cases hnarrow with
    | bodiless hmethod => exact nomatch hmethod
    | framed hmethod hhead hshort hparsed hbody =>
      have hplace := sample_head (sampleLine ++ (crlf ++ crlf))
      rw [show sampleHead ++ (headEnd ++ (sampleLine ++ (crlf ++ crlf))) = _ from hbytes, hhead] at hplace
      obtain ⟨rfl, hafter⟩ := List.append_inj hbytes (Option.some.inj hplace).symm
      obtain rfl := List.append_cancel_left hafter
      obtain rfl := Except.ok.inj (sample_parsed.symm.trans hparsed)
      exact (hline hbody).elim

/-- The same bytes are received or not, as they arrive in one way or another. -/
theorem segmentation_matters : ∃ a b : Segments UInt8, a.all = sampleBytes ∧ b.all = sampleBytes ∧
    outcome .get a = some sampleReceived ∧ outcome .get b = none := by
  obtain ⟨conn, w, hconn, hfetch⟩ := fetch_arrives sample_wide
  exact ⟨conn, .singly sampleBytes .empty, hconn, by simp, outcome_eq_some.mpr ⟨w, hfetch⟩, sample_singly⟩

end Segmentations

end NixstrCache.Network.Transport
