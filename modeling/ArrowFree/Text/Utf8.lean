import ArrowFree.Text

/-!
# UTF-8

The first byte of a sequence says how many bytes follow and, with the bounds on the second byte,
keeps out overlong sequences, surrogates and numbers that are too large.
-/

namespace ArrowFree.Utf8

inductive Reason where
  | invalidStart
  | invalidContinuation
  | endOfData
deriving DecidableEq, Repr

/-- Bytes that are no text: where they start, how many they are, and the first of them. -/
structure Problem where
  start : Nat
  length : Nat
  lead : Nat
  reason : Reason
deriving DecidableEq, Repr

def Reason.text : Reason → Text
  | .invalidStart => "invalid start byte"
  | .invalidContinuation => "invalid continuation byte"
  | .endOfData => "unexpected end of data"

def Problem.message (p : Problem) : Text :=
  let place : Text :=
    if p.length = 1 then
      "byte 0x" ++ Text.hex 2 p.lead ++ " in position " ++ Text.ofNat p.start
    else
      "bytes in position " ++ Text.ofNat p.start ++ "-" ++ Text.ofNat (p.start + p.length - 1)
  "'utf-8' codec can't decode " ++ place ++ ": " ++ p.reason.text

/-- A sequence that has begun. -/
structure Pending where
  start : Nat
  lead : Nat
  /-- How many bytes are still to come after the next one. -/
  more : Nat
  /-- The bounds on the next byte. -/
  low : Nat := 0x80
  high : Nat := 0xBF
  /-- The bits so far. -/
  value : Nat
deriving DecidableEq, Repr

/-- The sequence that a byte begins. -/
def begin? (start b : Nat) : Option Pending :=
  if 0xC2 ≤ b && b ≤ 0xDF then some { start := start, lead := b, more := 0, value := b % 32 }
  else if 0xE0 ≤ b && b ≤ 0xEF then
    some
      { start := start, lead := b, more := 1, value := b % 16,
        low := if b = 0xE0 then 0xA0 else 0x80, high := if b = 0xED then 0x9F else 0xBF }
  else if 0xF0 ≤ b && b ≤ 0xF4 then
    some
      { start := start, lead := b, more := 2, value := b % 8,
        low := if b = 0xF0 then 0x90 else 0x80, high := if b = 0xF4 then 0x8F else 0xBF }
  else none

/-- Reads on at a position, inside a sequence or between two. -/
def decodeFrom (position : Nat) : Option Pending → List UInt8 → Except Problem Text
  | none, [] => .ok []
  | some p, [] => .error ⟨p.start, position - p.start, p.lead, .endOfData⟩
  | none, b :: rest =>
    if b.toNat < 0x80 then do
      let t ← decodeFrom (position + 1) none rest
      return CodePoint.ofNat b.toNat :: t
    else
      match begin? position b.toNat with
      | some p => decodeFrom (position + 1) (some p) rest
      | none => .error ⟨position, 1, b.toNat, .invalidStart⟩
  | some p, b :: rest =>
    if p.low ≤ b.toNat && b.toNat ≤ p.high then
      let value := p.value * 64 + b.toNat % 64
      match p.more with
      | 0 => do
        let t ← decodeFrom (position + 1) none rest
        return CodePoint.ofNat value :: t
      | more + 1 =>
        decodeFrom (position + 1) (some { p with more, value, low := 0x80, high := 0xBF }) rest
    else .error ⟨p.start, position - p.start, p.lead, .invalidContinuation⟩

def decode (bytes : List UInt8) : Except Problem Text := decodeFrom 0 none bytes

/-- The bytes of a code point. -/
def encodePoint (c : CodePoint) : List UInt8 :=
  let n := c.val
  if n < 0x80 then [n.toUInt8]
  else if n < 0x800 then [(0xC0 + n / 0x40).toUInt8, (0x80 + n % 0x40).toUInt8]
  else if n < 0x10000 then
    [(0xE0 + n / 0x1000).toUInt8, (0x80 + n / 0x40 % 0x40).toUInt8, (0x80 + n % 0x40).toUInt8]
  else
    [(0xF0 + n / 0x40000).toUInt8, (0x80 + n / 0x1000 % 0x40).toUInt8,
     (0x80 + n / 0x40 % 0x40).toUInt8, (0x80 + n % 0x40).toUInt8]

def encode (t : Text) : List UInt8 := t.flatMap encodePoint

/-- Every line end becomes a line feed. -/
def unifyNewlines : Text → Text
  | [] => []
  | c :: rest =>
    if c = '\r' then
      match rest with
      | d :: rest' =>
        if d = '\n' then CodePoint.newline :: unifyNewlines rest'
        else CodePoint.newline :: unifyNewlines (d :: rest')
      | [] => [CodePoint.newline]
    else c :: unifyNewlines rest

example : (decode (encode "aé€😀")).toOption = some ("aé€😀" : Text) := by
  decide

end ArrowFree.Utf8
