/-!
# Text

Text is a sequence of Unicode code points. Surrogates are code points here: an escape sequence in
a script may name one on its own, so `String` cannot hold every text that a script denotes.
-/

namespace ArrowFree

/-- A Unicode code point, surrogates included. -/
abbrev CodePoint := Fin 0x110000

/-- Every length, column and offset in this library counts code points. -/
abbrev Text := List CodePoint

namespace CodePoint

theorem toNat_lt (c : Char) : c.toNat < 0x110000 := by
  have h := c.valid
  change c.val.toNat < 0x110000
  rcases h with h | h <;> omega

def ofChar (c : Char) : CodePoint := ⟨c.toNat, toNat_lt c⟩

/-- The code point with this number; numbers past the last one wrap round. -/
def ofNat (n : Nat) : CodePoint := Fin.ofNat _ n

instance : Coe Char CodePoint := ⟨ofChar⟩

def newline : CodePoint := ofChar '\n'

/-- Surrogates are the code points that no character has. -/
def isSurrogate (c : CodePoint) : Bool := 0xD800 ≤ c.val && c.val ≤ 0xDFFF

def toChar (c : CodePoint) : Char := Char.ofNat c.val

/-- `0` to `9`. -/
def isAsciiDigit (c : CodePoint) : Bool := 0x30 ≤ c.val && c.val ≤ 0x39

def isAsciiUpper (c : CodePoint) : Bool := 0x41 ≤ c.val && c.val ≤ 0x5A

def isAsciiLower (c : CodePoint) : Bool := 0x61 ≤ c.val && c.val ≤ 0x7A

def isAsciiLetter (c : CodePoint) : Bool := c.isAsciiUpper || c.isAsciiLower

/-- The value of a hexadecimal digit. -/
def hexValue? (c : CodePoint) : Option Nat :=
  if c.isAsciiDigit then some (c.val - 0x30)
  else if 0x41 ≤ c.val && c.val ≤ 0x46 then some (c.val - 0x41 + 10)
  else if 0x61 ≤ c.val && c.val ≤ 0x66 then some (c.val - 0x61 + 10)
  else none

def isHexDigit (c : CodePoint) : Bool := c.hexValue?.isSome

/-- An ASCII capital becomes small; all else stays. -/
def lower (c : CodePoint) : CodePoint := if c.isAsciiUpper then ofNat (c.val + 0x20) else c

end CodePoint

namespace Text

def ofString (s : String) : Text := s.toList.map CodePoint.ofChar

instance : Coe String Text := ⟨ofString⟩

/-- Surrogates have no place in a `String`; they become NUL. -/
def toString (t : Text) : String := String.ofList (t.map CodePoint.toChar)

def hasSurrogate (t : Text) : Bool := t.any CodePoint.isSurrogate

/-- Decimal digits, no leading zero. -/
def ofNat (n : Nat) : Text := (Nat.toDigits 10 n).map CodePoint.ofChar

theorem isAsciiDigit_ofNat (n : Nat) : ∀ c ∈ ofNat n, c.isAsciiDigit = true := by
  intro c hc
  obtain ⟨d, hd, rfl⟩ := List.mem_map.mp hc
  have hdigit := Nat.isDigit_of_mem_toDigits (by omega) (by omega) hd
  simp only [Char.isDigit, Bool.and_eq_true, decide_eq_true_eq] at hdigit
  have hbounds : 48 ≤ d.toNat ∧ d.toNat ≤ 57 := hdigit
  simp [CodePoint.isAsciiDigit, CodePoint.ofChar, hbounds]

def ofInt : Int → Text
  | .ofNat n => ofNat n
  | .negSucc n => "-" ++ ofNat (n + 1)

/-- The parts in order with `sep` between each two. -/
def join (sep : Text) : List Text → Text
  | [] => []
  | [t] => t
  | t :: ts => t ++ sep ++ join sep ts

/-- The pieces between the occurrences of `sep`; one more piece than there are occurrences. -/
def splitOn (sep : CodePoint) : Text → List Text
  | [] => [[]]
  | c :: r =>
    if c = sep then [] :: splitOn sep r
    else match splitOn sep r with
      | [] => [[c]]
      | p :: ps => (c :: p) :: ps

/-- Lines end at line feeds only. -/
def lines (t : Text) : List Text := splitOn '\n' t

def repeated (t : Text) : Nat → Text
  | 0 => []
  | n + 1 => t ++ repeated t n

/-- Spaces are put before the text until it has `width` code points. -/
def padLeft (width : Nat) (t : Text) : Text := List.replicate (width - t.length) (' ' : CodePoint) ++ t

/-- `width` hexadecimal digits, small letters. -/
def hex (width n : Nat) : Text :=
  let digits : Text := (Nat.toDigits 16 n).map CodePoint.ofChar
  List.replicate (width - digits.length) ('0' : CodePoint) ++ digits

/-- Code point order, a shorter text before its extensions. -/
def le : Text → Text → Bool
  | [], _ => true
  | _ :: _, [] => false
  | a :: s, b :: t => if a = b then le s t else a.val < b.val

theorem splitOn_ne_nil (sep : CodePoint) (t : Text) : splitOn sep t ≠ [] := by
  induction t with
  | nil => simp [splitOn]
  | cons c r _ =>
    simp only [splitOn]
    split
    · simp
    · split <;> simp

end Text

end ArrowFree
