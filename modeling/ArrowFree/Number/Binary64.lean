/-!
# Binary floating point numbers of 64 bits

A finite number is kept as `mantissa * 2 ^ exponent` in its normal form, so that two numbers are
equal exactly when their parts are. Rounding goes through exact quotients of natural numbers.
-/

namespace ArrowFree

/-- A finite value has `mantissa < 2 ^ 53` and `-1074 ≤ exponent ≤ 971`, and a mantissa below
`2 ^ 52` only at the least exponent. -/
inductive Binary64 where
  | nan
  | infinity (negative : Bool)
  | finite (negative : Bool) (mantissa : Nat) (exponent : Int)
deriving DecidableEq, Repr, Inhabited

namespace Binary64

def leastExponent : Int := -1074

def greatestExponent : Int := 971

/-- The exact quotient `num / den / 2 ^ e` as a pair of natural numbers. -/
def scaled (num den : Nat) (e : Int) : Nat × Nat :=
  if 0 ≤ e then (num, den * Nat.pow 2 e.toNat) else (num * Nat.pow 2 (-e).toNat, den)

/-- The nearest integer to `num / den`, a half going to the even neighbour. -/
def roundDiv (num den : Nat) : Nat :=
  let q := num / den
  let r := num % den
  if den < 2 * r || (2 * r == den && q % 2 == 1) then q + 1 else q

/-- The number nearest to `num / den`, a half going to the even mantissa. -/
def round (negative : Bool) (num den : Nat) : Binary64 :=
  if num = 0 then .finite negative 0 leastExponent
  else
    let guess : Int := (Nat.log2 num : Int) - Nat.log2 den - 52
    let (n, d) := scaled num den guess
    let fitted := if n / d < Nat.pow 2 52 then guess - 1 else guess
    let e := max fitted leastExponent
    let (n, d) := scaled num den e
    let m := roundDiv n d
    let (m, e) := if m = Nat.pow 2 53 then (Nat.pow 2 52, e + 1) else (m, e)
    if greatestExponent < e then .infinity negative else .finite negative m e

/-- The size of a finite number as a quotient of natural numbers. -/
def magnitude (mantissa : Nat) (exponent : Int) : Nat × Nat :=
  if 0 ≤ exponent then (mantissa * Nat.pow 2 exponent.toNat, 1) else (mantissa, Nat.pow 2 (-exponent).toNat)

/-- The value of a finite number that is an integer. -/
def toInt? : Binary64 → Option Int
  | .finite negative m e =>
    let (n, d) := magnitude m e
    if n % d = 0 then some (if negative then -((n / d : Nat) : Int) else (n / d : Nat)) else none
  | _ => none

example : round false 1 10 = .finite false 7205759403792794 (-56) := by decide
example : (round false 3 1).toInt? = some 3 := by decide

end Binary64

end ArrowFree
