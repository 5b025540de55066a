import Mathlib.Data.List.Basic

/-!
The decoding of UTF-8 that never fails.

Each byte is taken once.  Where the bytes are not well formed the decoder gives the replacement
character, and it starts again with the byte that has not fitted.
-/

namespace NixstrCache.Utf8

/-- A sequence that has begun: how many bytes it lacks, between which bounds the next one lies, and the
bits so far. -/
structure Sequence where
  needed : ℕ
  lower : ℕ
  upper : ℕ
  codePoint : ℕ
deriving DecidableEq, Repr

def replacement : Char :=
  '\uFFFD'

/-- What the first byte of a sequence gives, and the sequence that it begins. -/
def startByte (byte : ℕ) : List Char × Option Sequence :=
  if byte < 0x80 then ([Char.ofNat byte], none)
  else if byte < 0xc2 then ([replacement], none)
  else if byte < 0xe0 then ([], some ⟨1, 0x80, 0xbf, byte % 0x20⟩)
  else if byte < 0xf0 then
    ([], some ⟨2, if byte = 0xe0 then 0xa0 else 0x80, if byte = 0xed then 0x9f else 0xbf, byte % 0x10⟩)
  else if byte < 0xf5 then
    ([], some ⟨3, if byte = 0xf0 then 0x90 else 0x80, if byte = 0xf4 then 0x8f else 0xbf, byte % 8⟩)
  else ([replacement], none)

def decodeFrom : Option Sequence → List UInt8 → List Char
  | none, [] => []
  | some _, [] => [replacement]
  | none, byte :: rest => (startByte byte.toNat).1 ++ decodeFrom (startByte byte.toNat).2 rest
  | some sequence, byte :: rest =>
    if byte.toNat < sequence.lower ∨ sequence.upper < byte.toNat then
      replacement :: ((startByte byte.toNat).1 ++ decodeFrom (startByte byte.toNat).2 rest)
    else if sequence.needed = 1 then
      Char.ofNat (sequence.codePoint * 0x40 + byte.toNat % 0x40) :: decodeFrom none rest
    else
      decodeFrom (some ⟨sequence.needed - 1, 0x80, 0xbf, sequence.codePoint * 0x40 + byte.toNat % 0x40⟩)
        rest

def decode (bytes : List UInt8) : List Char :=
  decodeFrom none bytes

def withoutMark : List Char → List Char
  | '\uFEFF' :: rest => rest
  | chars => chars

end NixstrCache.Utf8
