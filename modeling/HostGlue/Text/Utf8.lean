import HostGlue.Text.Hex

/-!
# UTF-8

Strict decoding of a list of bytes. The decoder holds at most one unfinished character, namely the
position of its first byte, the bits read so far and the ranges in which its remaining bytes must
lie. The ranges of the second byte exclude overlong forms, surrogates and numbers above U+10FFFF,
so a refused sequence is always cut at the first byte that cannot continue it.
-/

namespace HostGlue.Text.Utf8

/-- A closed range of byte values. -/
structure ByteRange where
  first : UInt8
  last : UInt8
  deriving Repr, DecidableEq

def ByteRange.contains (r : ByteRange) (b : UInt8) : Bool := r.first ≤ b && b ≤ r.last

/-- The bytes that may follow a first byte without further restriction. -/
def ByteRange.tail : ByteRange := ⟨0x80, 0xBF⟩

/-- What must follow a first byte: nothing after an ASCII byte, `none` if no character starts so. -/
def followers (b : UInt8) : Option (List ByteRange) :=
  if b < 0x80 then some []
  else if b < 0xC2 then none
  else if b < 0xE0 then some [.tail]
  else if b = 0xE0 then some [⟨0xA0, 0xBF⟩, .tail]
  else if b = 0xED then some [⟨0x80, 0x9F⟩, .tail]
  else if b < 0xF0 then some [.tail, .tail]
  else if b = 0xF0 then some [⟨0x90, 0xBF⟩, .tail, .tail]
  else if b < 0xF4 then some [.tail, .tail, .tail]
  else if b = 0xF4 then some [⟨0x80, 0x8F⟩, .tail, .tail]
  else none

/-- The bits of the character that its first byte carries. -/
def leadBits (b : UInt8) : Nat :=
  if b < 0x80 then b.toNat
  else if b < 0xE0 then b.toNat % 0x20
  else if b < 0xF0 then b.toNat % 0x10
  else b.toNat % 0x08

inductive Reason where
  | invalidStart
  | invalidContinuation
  | unexpectedEnd
  deriving Repr, DecidableEq

def Reason.text : Reason → String
  | .invalidStart => "invalid start byte"
  | .invalidContinuation => "invalid continuation byte"
  | .unexpectedEnd => "unexpected end of data"

/-- The bytes `position, …, position + count - 1` are no character; `byte` is the first of them. -/
structure Fault where
  byte : UInt8
  position : Nat
  count : Nat
  reason : Reason
  deriving Repr, DecidableEq

def Fault.message (f : Fault) : String :=
  let place :=
    if f.count = 1 then
      "byte 0x" ++ String.ofList (hex 2 f.byte.toNat) ++ " in position " ++ toString f.position
    else "bytes in position " ++ toString f.position ++ "-" ++ toString (f.position + f.count - 1)
  "'utf-8' codec can't decode " ++ place ++ ": " ++ f.reason.text

/-- A character whose last bytes are still to come. -/
structure Unfinished where
  lead : UInt8
  start : Nat
  bits : Nat
  next : ByteRange
  more : List ByteRange
  deriving Repr, DecidableEq

/-- Decodes the bytes from `position` on. -/
def decodeFrom (position : Nat) : Option Unfinished → List UInt8 → Except Fault (List Char)
  | none, [] => .ok []
  | some u, [] => .error ⟨u.lead, u.start, position - u.start, .unexpectedEnd⟩
  | none, b :: rest =>
    match followers b with
    | none => .error ⟨b, position, 1, .invalidStart⟩
    | some [] => (decodeFrom (position + 1) none rest).map (Char.ofNat (leadBits b) :: ·)
    | some (r :: rs) => decodeFrom (position + 1) (some ⟨b, position, leadBits b, r, rs⟩) rest
  | some u, b :: rest =>
    if u.next.contains b then
      let bits := u.bits * 0x40 + b.toNat % 0x40
      match u.more with
      | [] => (decodeFrom (position + 1) none rest).map (Char.ofNat bits :: ·)
      | r :: rs => decodeFrom (position + 1) (some { u with bits, next := r, more := rs }) rest
    else .error ⟨u.lead, u.start, position - u.start, .invalidContinuation⟩

/-- The text that the bytes stand for. -/
def decode (bytes : List UInt8) : Except Fault String :=
  (decodeFrom 0 none bytes).map String.ofList

/-- The bytes of a text. -/
def encode (s : String) : List UInt8 := s.toList.flatMap String.utf8EncodeChar

end HostGlue.Text.Utf8
