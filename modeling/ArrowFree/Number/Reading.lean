import ArrowFree.Number.Binary64
import ArrowFree.Text.Blank
import ArrowFree.Text.DecimalDigit

/-!
# Reading numbers

Integers and decimals are read from digits of any script. Blanks around a number are skipped and
single underscores between digits are ignored.
-/

namespace ArrowFree.Number

/-- The values of the leading decimal digits, and the text after them. -/
def takeDigits : Text → List Nat × Text
  | [] => ([], [])
  | c :: r =>
    match c.digitValue? with
    | some d => let (ds, rest) := takeDigits r; (d :: ds, rest)
    | none => ([], c :: r)

def ofDigits (base : Nat) (digits : List Nat) : Nat := digits.foldl (fun n d => n * base + d) 0

/-- The value of a digit below 16. -/
def hexDigit? (c : CodePoint) : Option Nat := c.hexValue? <|> c.digitValue?

/-- The text without its underscores, each of which has to stand between two digits. -/
def dropUnderscores (digit : CodePoint → Bool) : (afterDigit : Bool) → Text → Option Text
  | _, [] => some []
  | afterDigit, c :: r =>
    if c = '_' then
      if afterDigit && (r.head?.map digit).getD false then dropUnderscores digit false r else none
    else (dropUnderscores digit (digit c) r).map (c :: ·)

def trim (t : Text) : Text :=
  ((t.dropWhile CodePoint.isBlank).reverse.dropWhile CodePoint.isBlank).reverse

/-- A leading minus sign; a plus sign is dropped. -/
def takeSign : Text → Bool × Text
  | [] => (false, [])
  | c :: r => if c = '-' then (true, r) else if c = '+' then (false, r) else (false, c :: r)

def signed (negative : Bool) (n : Nat) : Int := if negative then -(n : Int) else n

/-- A decimal integer. -/
def readInt? (t : Text) : Option Int := do
  let (negative, r) := takeSign (trim t)
  let r ← dropUnderscores CodePoint.isDecimalDigit false r
  match takeDigits r with
  | ([], _) => none
  | (digits, []) => some (signed negative (ofDigits 10 digits))
  | _ => none

/-- A hexadecimal integer after its `0x`. -/
def readHex? (t : Text) : Option Nat := do
  let r := (trim t).drop 2
  let r ← dropUnderscores (fun c => (hexDigit? c).isSome) true r
  let digits ← r.mapM hexDigit?
  if digits.isEmpty then none else some (ofDigits 16 digits)

/-- The number `digits * 10 ^ exponent`. -/
structure Decimal where
  negative : Bool
  digits : Nat
  exponent : Int
deriving DecidableEq, Repr

/-- The exponent that a decimal ends in; `none` if what is there is no exponent. -/
def readExponent? : Text → Option Int
  | [] => some 0
  | c :: r =>
    if c = 'e' || c = 'E' then
      let (negative, r) := takeSign r
      match takeDigits r with
      | ([], _) => none
      | (digits, []) => some (signed negative (ofDigits 10 digits))
      | _ => none
    else none

def readUnsigned? (negative : Bool) (t : Text) : Option Decimal :=
  let (whole, r) := takeDigits t
  let (fraction, r) :=
    match r with
    | [] => ([], [])
    | c :: r' => if c = '.' then takeDigits r' else ([], r)
  if whole.isEmpty && fraction.isEmpty then none
  else (readExponent? r).map fun e =>
    ⟨negative, ofDigits 10 (whole ++ fraction), e - fraction.length⟩

/-- Decimals far outside the range of 64 bits are settled without writing out their power of ten. -/
def Decimal.toBinary64 (d : Decimal) : Binary64 :=
  let size : Int := d.exponent + (Nat.toDigits 10 d.digits).length
  if d.digits = 0 then .finite d.negative 0 Binary64.leastExponent
  else if 310 < size then .infinity d.negative
  else if size < -330 then .finite d.negative 0 Binary64.leastExponent
  else if 0 ≤ d.exponent then .round d.negative (d.digits * Nat.pow 10 d.exponent.toNat) 1
  else .round d.negative d.digits (Nat.pow 10 (-d.exponent).toNat)

/-- A decimal with optional fraction and exponent, or the name of a value that is not finite. -/
def readBinary64? (t : Text) : Option Binary64 := do
  let (negative, r) := takeSign (trim t)
  let word := r.map CodePoint.lower
  if word = "inf" || word = "infinity" then return .infinity negative
  if word = "nan" then return .nan
  let r ← dropUnderscores CodePoint.isDecimalDigit false r
  let d ← readUnsigned? negative r
  return d.toBinary64

example : readInt? "007" = some 7 ∧ readHex? "0x1F" = some 31 ∧ readHex? "0x" = none := by decide
example : readUnsigned? false "1.5e3" = some ⟨false, 15, 2⟩ := by decide

end ArrowFree.Number
