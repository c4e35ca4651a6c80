import ArrowFree.Number.Binary64
import ArrowFree.Text

/-!
# Shortest decimals

A number of 64 bits is written with the fewest digits that read back as the same number, and of
those with the digits nearest to it.
-/

namespace ArrowFree.Binary64

/-- The greatest `k` with `10 ^ k ≤ num / den`, for a positive quotient. -/
def decimalExponent (num den : Nat) : Int :=
  if den ≤ num then ((Nat.toDigits 10 (num / den)).length : Int) - 1
  else
    let above := (num + den - 1) / num
    0 - ((Nat.toDigits 10 (above - 1)).length : Int)

/-- `digits * 10 ^ k` rounded. -/
def ofGrid (digits : Nat) (k : Int) : Binary64 :=
  if 0 ≤ k then round false (digits * Nat.pow 10 k.toNat) 1 else round false digits (Nat.pow 10 (-k).toNat)

/-- Of the two neighbours of `num / den` on the grid of `count` digits, the nearer one that reads
back as `x`, with the power of ten of its last digit. -/
def onGrid? (x : Binary64) (num den : Nat) (e : Int) (count : Nat) : Option (Nat × Int) :=
  let k := e - count + 1
  let (n, d) := if 0 ≤ k then (num, den * Nat.pow 10 k.toNat) else (num * Nat.pow 10 (-k).toNat, den)
  let below := n / d
  let nearer := if d < 2 * (n % d) then below + 1 else below
  let farther := if d < 2 * (n % d) then below else below + 1
  if ofGrid nearer k = x then some (nearer, k)
  else if ofGrid farther k = x then some (farther, k)
  else none

/-- The first grid with a hit, from `count` digits on. -/
def firstGrid (x : Binary64) (num den : Nat) (e : Int) : (fuel count : Nat) → Nat × Int
  | 0, count => (num / den, e - count)
  | fuel + 1, count =>
    match onGrid? x num den e count with
    | some hit => hit
    | none => firstGrid x num den e fuel (count + 1)

/-- The digits of a positive finite number and the exponent of the first of them. -/
def shortest (mantissa : Nat) (exponent : Int) : Text × Int :=
  let (num, den) := magnitude mantissa exponent
  let (digits, k) :=
    firstGrid (.finite false mantissa exponent) num den (decimalExponent num den) 17 1
  let written := Text.ofNat digits
  let trimmed := (written.reverse.dropWhile fun c : CodePoint => c = '0').reverse
  (trimmed, k + written.length - 1)

/-- Positional notation from `10 ^ -4` up to `10 ^ 16`, always with a point; beyond that one digit
before the point and an exponent of at least two digits with its sign. -/
def layOut (digits : Text) (e : Int) : Text :=
  if -4 ≤ e && e < 16 then
    if e < 0 then "0." ++ List.replicate ((-e).toNat - 1) ('0' : CodePoint) ++ digits
    else
      let whole := e.toNat + 1
      if digits.length ≤ whole then
        digits ++ List.replicate (whole - digits.length) ('0' : CodePoint) ++ ".0"
      else digits.take whole ++ "." ++ digits.drop whole
  else
    let point : Text := if digits.length ≤ 1 then [] else "."
    let sign : Text := if e < 0 then "-" else "+"
    let size := Text.ofNat e.natAbs
    let size := if size.length < 2 then "0" ++ size else size
    digits.take 1 ++ point ++ digits.drop 1 ++ "e" ++ sign ++ size

/-- The text of a number. -/
def toText : Binary64 → Text
  | .nan => "nan"
  | .infinity negative => if negative then "-inf" else "inf"
  | .finite negative m e =>
    let size : Text := if m = 0 then "0.0" else let (digits, k) := shortest m e; layOut digits k
    if negative then "-" ++ size else size

example : toText (round false 1 10) = "0.1" := by decide
example : toText (round true 3 2) = "-1.5" := by decide

end ArrowFree.Binary64
