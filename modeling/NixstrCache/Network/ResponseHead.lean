import NixstrCache.Lib.Segments
import NixstrCache.Lib.Utf8
import NixstrCache.Network.SafeFetcher
import NixstrCache.Persistence.Schema
import NixstrCache.Protocol.Publication

/-!
The head of a response.

The bytes before the first empty line are decoded as a text, and everything that the transport learns
from a head is a function of this text: the status, the header fields and how the body is framed.
-/

namespace NixstrCache.Network.Transport

open Persistence Protocol

inductive FrameError where
  | policy (message : String)
  /-- A name or a value that `Headers` does not take. -/
  | headers
  /-- No error of the source: a loop has been given too few turns. -/
  | spinning
deriving DecidableEq, Repr

abbrev Headers := List (List Char × List Char)

inductive BodyFraming where
  | length (length : ℕ)
  | chunked
deriving DecidableEq, Repr

structure ResponseHead where
  status : ℕ
  headers : Headers
  framing : BodyFraming
deriving DecidableEq, Repr

def crlf : Bytes :=
  [13, 10]

/-- `new TextDecoder().decode`. -/
def decodeText (bytes : Bytes) : List Char :=
  Utf8.withoutMark (Utf8.decode bytes)

def trimWith (space : Char → Bool) (chars : List Char) : List Char :=
  ((chars.dropWhile space).reverse.dropWhile space).reverse

def lower (chars : List Char) : List Char :=
  chars.map Char.toLower

section Fields

def isTokenChar (c : Char) : Bool :=
  c.isAlphanum ∨ c ∈ ['!', '#', '$', '%', '&', '\x27', '*', '+', '-', '.', '^', '_', '\x60', '|', '~']

def isToken (name : List Char) : Bool :=
  name ≠ [] ∧ name.all isTokenChar

/-- The white space around a value that `Headers` removes. -/
def isHttpSpace (c : Char) : Bool :=
  c = '\t' ∨ c = '\n' ∨ c = '\x0d' ∨ c = ' '

/-- `headers.append`. -/
def appendHeader (headers : Headers) (name value : List Char) : Except FrameError Headers :=
  let normal := trimWith isHttpSpace value
  if ¬ isToken name ∨ ¬ normal.all (·.toNat ≤ 255) ∨
      normal.any fun c => c = '\x00' ∨ c = '\n' ∨ c = '\x0d' then .error .headers
  else .ok (headers ++ [(lower name, normal)])

/-- `headers.get`: the values of all fields of that name. -/
def getHeader (headers : Headers) (name : List Char) : Option (List Char) :=
  match (headers.filter fun field => field.1 = name).map Prod.snd with
  | [] => none
  | values => some ([',', ' '].intercalate values)

def headerParts (line : List Char) : Except FrameError (List Char × List Char) :=
  let name := line.takeWhile (· ≠ ':')
  if ':' ∉ line ∨ name = [] then .error (.policy "malformed HTTP response header")
  else .ok (name, line.drop (name.length + 1))

def readFields : List (List Char) → Headers → Except FrameError Headers
  | [], headers => .ok headers
  | line :: lines, headers => do
    let (name, value) ← headerParts line
    let appended ← appendHeader headers (trimWith isSpace name) (trimWith isSpace value)
    readFields lines appended

end Fields

section Head

/-- `split("\r\n")`. -/
def splitLines : List Char → List (List Char)
  | [] => [[]]
  | '\x0d' :: '\n' :: rest => [] :: splitLines rest
  | c :: rest => (splitLines rest).modifyHead (c :: ·)

def statusOf (line : List Char) : Option ℕ :=
  match line.drop 7 with
  | minor :: ' ' :: a :: b :: c :: rest =>
    if "HTTP/1.".toList <+: line ∧ (minor = '0' ∨ minor = '1') ∧ [a, b, c].all Char.isDigit ∧
        (rest = [] ∨ rest.head? = some ' ') then
      some (Nat.ofDigitChars 10 [a, b, c] 0)
    else none
  | _ => none

/-- Whether a line begins with `content-length`, white space and a colon. -/
def namesLength (line : List Char) : Bool :=
  let name := line.takeWhile (· ≠ ':')
  ':' ∈ line ∧ lower (name.take 14) = "content-length".toList ∧ (name.drop 14).all isSpace

def rawLengths (lines : List (List Char)) : List (List Char) :=
  (lines.filter namesLength).map fun line =>
    trimWith isSpace (line.drop ((line.takeWhile (· ≠ ':')).length + 1))

def maxSafeInteger : ℕ :=
  9007199254740991

def canonicalLength (text : List Char) : Bool :=
  text = ['0'] ∨ (text ≠ [] ∧ text.all Char.isDigit ∧ text.head? ≠ some '0')

def framingOf (transfer : Option (List Char)) (lengths : List (List Char)) :
    Except FrameError BodyFraming :=
  if transfer.isSome ∧ lengths ≠ [] then
    .error (.policy "Transfer-Encoding with Content-Length is forbidden")
  else if 1 < lengths.length ∨ lengths.any (',' ∈ ·) then
    .error (.policy "duplicate Content-Length is forbidden")
  else match transfer, lengths with
    | some transfer, _ =>
      if (transfer.splitOn ',').map (fun coding => lower (trimWith isSpace coding)) =
          ["chunked".toList] then .ok .chunked
      else .error (.policy "unsupported Transfer-Encoding")
    | none, [value] =>
      if ¬ canonicalLength value then
        .error (.policy "exactly one valid Content-Length is required")
      else if maxSafeInteger < Nat.ofDigitChars 10 value 0 then
        .error (.policy "invalid Content-Length")
      else .ok (.length (Nat.ofDigitChars 10 value 0))
    | none, _ => .error (.policy "exactly one valid Content-Length is required")

/-- What `fetch` reads from the bytes of a head. -/
def parseHead (head : Bytes) : Except FrameError ResponseHead :=
  match splitLines (decodeText head) with
  | [] => .error (.policy "malformed HTTP status line")
  | first :: lines =>
    match statusOf first with
    | none => .error (.policy "malformed HTTP status line")
    | some status => do
      let headers ← readFields lines []
      let framing ← framingOf (getHeader headers "transfer-encoding".toList) (rawLengths lines)
      pure ⟨status, headers, framing⟩

end Head

section ChunkLines

def hexValue (c : Char) : ℕ :=
  if c.isDigit then c.toNat - 48 else c.toLower.toNat - 87

def isHexDigit (c : Char) : Bool :=
  c.isDigit ∨ ('a' ≤ c.toLower ∧ c.toLower ≤ 'f')

/-- The size of a chunk, which stands before its extensions. -/
def chunkSize (line : List Char) : Option ℕ :=
  let token := line.takeWhile (· ≠ ';')
  if token = [] ∨ ¬ token.all isHexDigit then none
  else
    let size := token.foldl (fun size c => size * 16 + hexValue c) 0
    if maxSafeInteger < size then none else some size

def forbiddenTrailers : List (List Char) :=
  ["content-length".toList, "transfer-encoding".toList, "host".toList, "trailer".toList]

def wellFormedTrailer (line : List Char) : Bool :=
  let name := line.takeWhile (· ≠ ':')
  ':' ∈ line ∧ isToken name ∧ (line.drop (name.length + 1)).all fun c =>
    c = '\t' ∨ (0x20 ≤ c.toNat ∧ c.toNat ≤ 0x7e)

/-- What the loop over the trailers does with a line: it goes on with the bytes counted so far, or the
trailers are over. -/
def trailerStep (trailerBytes : ℕ) (trailer : List Char) : Except FrameError (Option ℕ) :=
  let total := trailerBytes + utf16Length (String.ofList trailer) + 2
  if 32 * 1024 < total then .error (.policy "chunk trailers too large")
  else if trailer = [] then .ok none
  else if ¬ wellFormedTrailer trailer then .error (.policy "malformed chunk trailer")
  else if lower (trailer.takeWhile (· ≠ ':')) ∈ forbiddenTrailers then
    .error (.policy "forbidden chunk trailer field")
  else .ok (some total)

end ChunkLines

section Errors

variable {e : FrameError}

theorem headerParts_error {line : List Char} (h : headerParts line = .error e) : e ≠ .spinning := by
  unfold headerParts at h
  dsimp only at h
  split_ifs at h
  obtain rfl := Except.error.inj h
  exact nofun

theorem appendHeader_error {headers : Headers} {name value : List Char}
    (h : appendHeader headers name value = .error e) : e ≠ .spinning := by
  unfold appendHeader at h
  dsimp only at h
  split_ifs at h
  obtain rfl := Except.error.inj h
  exact nofun

theorem readFields_error {lines : List (List Char)} {headers : Headers}
    (h : readFields lines headers = .error e) : e ≠ .spinning := by
  induction lines generalizing headers with
  | nil => exact nomatch h
  | cons line lines ih =>
    rw [readFields] at h
    cases hparts : headerParts line with
    | error other =>
      rw [hparts] at h
      obtain rfl := Except.error.inj h
      exact headerParts_error hparts
    | ok parts =>
      rw [hparts] at h
      change (appendHeader _ _ _ >>= _) = _ at h
      cases happend : appendHeader headers (trimWith isSpace parts.1) (trimWith isSpace parts.2) with
      | error other =>
        rw [happend] at h
        obtain rfl := Except.error.inj h
        exact appendHeader_error happend
      | ok appended =>
        rw [happend] at h
        exact ih h

theorem framingOf_error {transfer : Option (List Char)} {lengths : List (List Char)}
    (h : framingOf transfer lengths = .error e) : e ≠ .spinning := by
  unfold framingOf at h
  split_ifs at h
  · obtain rfl := Except.error.inj h
    exact nofun
  · obtain rfl := Except.error.inj h
    exact nofun
  · rcases transfer with - | transfer
    · rcases lengths with - | ⟨value, - | ⟨other, rest⟩⟩
      · obtain rfl := Except.error.inj h
        exact nofun
      · dsimp only at h
        split_ifs at h
        · obtain rfl := Except.error.inj h
          exact nofun
        · obtain rfl := Except.error.inj h
          exact nofun
      · obtain rfl := Except.error.inj h
        exact nofun
    · dsimp only at h
      split_ifs at h
      obtain rfl := Except.error.inj h
      exact nofun

theorem parseHead_error {head : Bytes} (h : parseHead head = .error e) : e ≠ .spinning := by
  rw [parseHead] at h
  rcases hsplit : splitLines (decodeText head) with - | ⟨first, lines⟩
  · rw [hsplit] at h
    obtain rfl := Except.error.inj h
    exact nofun
  · rw [hsplit] at h
    dsimp only at h
    cases hstatus : statusOf first with
    | none =>
      rw [hstatus] at h
      obtain rfl := Except.error.inj h
      exact nofun
    | some status =>
      rw [hstatus] at h
      cases hfields : readFields lines [] with
      | error other =>
        rw [hfields] at h
        obtain rfl := Except.error.inj h
        exact readFields_error hfields
      | ok headers =>
        rw [hfields] at h
        cases hframing : framingOf (getHeader headers "transfer-encoding".toList) (rawLengths lines) with
        | error other =>
          change (framingOf _ _ >>= _) = _ at h
          rw [hframing] at h
          obtain rfl := Except.error.inj h
          exact framingOf_error hframing
        | ok framing =>
          change (framingOf _ _ >>= _) = _ at h
          rw [hframing] at h
          exact nomatch h

theorem trailerStep_error {total : ℕ} {text : List Char} (h : trailerStep total text = .error e) :
    e ≠ .spinning := by
  rw [trailerStep] at h
  split_ifs at h
  · obtain rfl := Except.error.inj h
    exact nofun
  · obtain rfl := Except.error.inj h
    exact nofun
  · obtain rfl := Except.error.inj h
    exact nofun

end Errors

end NixstrCache.Network.Transport
