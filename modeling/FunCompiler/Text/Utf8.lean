import FunCompiler.Text.Quoted

/-!
Text from the bytes of a file: strict decoding of UTF-8, and line endings.
Overlong forms, surrogates and code points above the
last one are refused at the first byte that rules the sequence out. An error
names the bytes of the broken sequence that were still acceptable, or the one
byte that can start no sequence.
-/

namespace FunCompiler.Text.Utf8

inductive Reason where
  | startByte
  | continuationByte
  | endOfData
  deriving DecidableEq, Repr

structure DecodeError where
  position : Nat
  /-- The rejected bytes, at least one. -/
  bytes : List UInt8
  reason : Reason
  deriving DecidableEq, Repr

def Reason.text : Reason → String
  | .startByte => "invalid start byte"
  | .continuationByte => "invalid continuation byte"
  | .endOfData => "unexpected end of data"

def DecodeError.message (e : DecodeError) : String :=
  let subject := match e.bytes with
    | [b] => s!"byte 0x{String.ofList (hexDigits 2 b.toNat)} in position {e.position}"
    | bs => s!"bytes in position {e.position}-{e.position + bs.length - 1}"
  s!"'utf-8' codec can't decode {subject}: {e.reason.text}"

/-- The range of an inner byte that no start byte narrows. -/
def anyTail : UInt8 × UInt8 := (0x80, 0xbf)

/-- What a start byte announces: the bits it holds itself, and the range of each
byte that has to follow. -/
def announce (b : UInt8) : Option (Nat × List (UInt8 × UInt8)) :=
  if b ≤ 0x7f then some (b.toNat, [])
  else if b < 0xc2 then none
  else if b ≤ 0xdf then some (b.toNat - 0xc0, [anyTail])
  else if b = 0xe0 then some (0, [(0xa0, 0xbf), anyTail])
  else if b = 0xed then some (0xd, [(0x80, 0x9f), anyTail])
  else if b ≤ 0xef then some (b.toNat - 0xe0, [anyTail, anyTail])
  else if b = 0xf0 then some (0, [(0x90, 0xbf), anyTail, anyTail])
  else if b ≤ 0xf3 then some (b.toNat - 0xf0, [anyTail, anyTail, anyTail])
  else if b = 0xf4 then some (4, [(0x80, 0x8f), anyTail, anyTail])
  else none

/-- A sequence part way through: its bits so far, the ranges of the bytes still
owed, and the bytes read. -/
structure Pending where
  bits : Nat
  next : UInt8 × UInt8
  later : List (UInt8 × UInt8)
  seen : List UInt8
  deriving DecidableEq, Repr

/-- Decodes the bytes from `position` on, where a pending sequence starts at
`position` too. -/
def decodeFrom (position : Nat) : Option Pending → List UInt8 → Except DecodeError (List Char)
  | none, [] => .ok []
  | some p, [] => .error ⟨position, p.seen, .endOfData⟩
  | none, b :: bs =>
    match announce b with
    | none => .error ⟨position, [b], .startByte⟩
    | some (bits, []) => (Char.ofNat bits :: ·) <$> decodeFrom (position + 1) none bs
    | some (bits, next :: later) => decodeFrom position (some ⟨bits, next, later, [b]⟩) bs
  | some p, b :: bs =>
    if p.next.1 ≤ b ∧ b ≤ p.next.2 then
      let bits := 64 * p.bits + (b.toNat - 0x80)
      match p.later with
      | [] => (Char.ofNat bits :: ·) <$> decodeFrom (position + p.seen.length + 1) none bs
      | next :: later => decodeFrom position (some ⟨bits, next, later, p.seen ++ [b]⟩) bs
    else .error ⟨position, p.seen, .continuationByte⟩

def decode (bytes : List UInt8) : Except DecodeError (List Char) := decodeFrom 0 none bytes

end FunCompiler.Text.Utf8

namespace FunCompiler.Text

/-- Ends every line with a line feed; a carriage return, alone or before a line feed, is read
as one. -/
def unifyNewlines : List Char → List Char
  | [] => []
  | '\r' :: '\n' :: cs => '\n' :: unifyNewlines cs
  | '\r' :: cs => '\n' :: unifyNewlines cs
  | c :: cs => c :: unifyNewlines cs

end FunCompiler.Text
