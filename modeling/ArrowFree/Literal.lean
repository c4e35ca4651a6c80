import ArrowFree.Number.Reading
import ArrowFree.Tree

/-!
# Literals

The values that literal tokens denote, and the spelling of a value that has none of its own.
-/

namespace ArrowFree.Literal

/-! ## Reading -/

/-- The value of a number token: an integer, unless the token has a point or an exponent. -/
def readNumber (raw : Text) : Except Fault Scalar :=
  let value? : Option Scalar :=
    if raw.take 2 = "0x" || raw.take 2 = "0X" then
      (Number.readHex? raw).map fun n => .int n
    else if raw.any fun c => c = '.' || c = 'e' || c = 'E' then
      (Number.readBinary64? raw).map .float
    else (Number.readInt? raw).map .int
  match value? with
  | some v => .ok v
  | none => .error .invalidText

/-- The character that a short escape stands for; most stand for themselves. -/
def shortEscape (c : CodePoint) : CodePoint :=
  if c = 'n' then '\n'
  else if c = 't' then '\t'
  else if c = 'r' then '\r'
  else if c = 'b' then '\x08'
  else if c = 'f' then '\x0c'
  else if c = 'v' then '\x0b'
  else if c = '0' then '\x00'
  else c

/-- The code point with these hexadecimal digits. -/
def hexPoint? (digits : List CodePoint) : Option CodePoint :=
  (digits.mapM CodePoint.hexValue?).map fun ds => CodePoint.ofNat (Number.ofDigits 16 ds)

/-- The text with its escapes resolved from left to right: `x` with two hexadecimal digits, `u` with
four, or one character other than a line feed. A backslash that begins no escape stays. -/
def unescape : Text → Text
  | [] => []
  | c :: r =>
    if c = '\\' then
      match r with
      | [] => [c]
      | d :: s =>
        if d = '\n' then c :: d :: unescape s
        else if d = 'x' then
          match s with
          | a :: b :: s' =>
            match hexPoint? [a, b] with
            | some v => v :: unescape s'
            | none => d :: unescape (a :: b :: s')
          | [a] => d :: unescape [a]
          | [] => [d]
        else if d = 'u' then
          match s with
          | a :: b :: e :: f :: s' =>
            match hexPoint? [a, b, e, f] with
            | some v => v :: unescape s'
            | none => d :: unescape (a :: b :: e :: f :: s')
          | [a, b, e] => d :: unescape [a, b, e]
          | [a, b] => d :: unescape [a, b]
          | [a] => d :: unescape [a]
          | [] => [d]
        else shortEscape d :: unescape s
    else c :: unescape r

/-- The value of a string token. -/
def readString (raw : Text) : Text := unescape ((raw.drop 1).dropLast)

/-! ## Writing -/

mutual

/-- The text of a value in a message. -/
def described : Tree → Text
  | .scalar s => s.described
  | .list items => "[" ++ Text.join ", " (describedItems items) ++ "]"
  | .object fields => (Document.object fields).described
  | .node .. => []

def describedItems : List Tree → List Text
  | [] => []
  | t :: ts => described t :: describedItems ts

end

/-- Integral values below this are written as integers. -/
def integralBound : Nat := Nat.pow 10 21

/-- The spelling of a floating point number. -/
def writeFloat (x : Binary64) : Text :=
  match x with
  | .nan => "NaN"
  | .infinity negative => if negative then "-Infinity" else "Infinity"
  | x =>
    match x.toInt? with
    | some i => if i.natAbs < integralBound then Text.ofInt i else x.toText
    | none => x.toText

/-- The spelling of a literal value. -/
def write : Tree → Except Fault Text
  | .scalar .null => .ok "null"
  | .scalar (.bool b) => .ok (if b then "true" else "false" : String)
  | .scalar (.int i) => .ok (Text.ofInt i)
  | .scalar (.float x) => .ok (writeFloat x)
  | .scalar (.text t) => .ok t.asciiQuoted
  | t => .error (.unsupported Code.unprintable.text ("cannot print literal value " ++ described t))

example : readString "'\\x41\\u0042\\q\\u12'" = "ABqu12" := by decide +kernel

end ArrowFree.Literal
