import ArrowFree.Fault

/-!
# Variable-length quantities

An integer is written as digits of five bits, lowest first. Every digit but the last has a sixth
bit set that says that more follow. The sign is the lowest bit of the first digit.
-/

namespace ArrowFree.Vlq

/-- The sixty-four digits in order. -/
def alphabet : Text := "ABCDEFGHIJKLMNOPQRSTUVWXYZabcdefghijklmnopqrstuvwxyz0123456789+/"

/-- The sign goes below the magnitude. -/
def fold (z : Int) : Nat := if z < 0 then 2 * z.natAbs + 1 else 2 * z.natAbs

/-- An odd number is negative; a negative zero is zero. -/
def unfold (n : Nat) : Int := if n % 2 = 1 then -((n / 2 : Nat) : Int) else ((n / 2 : Nat) : Int)

theorem unfold_fold (z : Int) : unfold (fold z) = z := by
  unfold Vlq.unfold Vlq.fold
  split <;> split <;> omega

/-- The digits of a number; those below 32 end it. -/
def digits (n : Nat) : List Nat := if n < 32 then [n] else (n % 32 + 32) :: digits (n / 32)
termination_by n
decreasing_by omega

theorem digits_lt (n d : Nat) (h : d ∈ digits n) : d < 64 := by
  induction n using Nat.strongRecOn with
  | ind n ih =>
    rw [digits] at h
    split at h
    · simp only [List.mem_singleton] at h
      omega
    · rcases List.mem_cons.mp h with rfl | h
      · omega
      · exact ih (n / 32) (by omega) h

def letter (d : Nat) : CodePoint := alphabet.getD d 'A'

/-- The digit that a letter stands for. -/
def digit? (c : CodePoint) : Option Nat := alphabet.findIdx? (· = c)

def encode (z : Int) : Text := (digits (fold z)).map letter

/-- Reads on from a number whose digits so far make `value`, the next one counting `scale`.
Digits that no other ends are dropped. -/
def decodeFrom (value scale : Nat) : Text → Except Fault (List Int)
  | [] => .ok []
  | c :: rest =>
    match digit? c with
    | none => .error (.missingKey (some [c]))
    | some d =>
      let value := value + d % 32 * scale
      if d < 32 then do
        let zs ← decodeFrom 0 1 rest
        return unfold value :: zs
      else decodeFrom value (scale * 32) rest

/-- All the integers of a text. -/
def decode (t : Text) : Except Fault (List Int) := decodeFrom 0 1 t

theorem digit?_letter (d : Nat) (h : d < 64) : digit? (letter d) = some d := by
  have all : ∀ d < 64, digit? (letter d) = some d := by decide +kernel
  exact all d h

theorem decodeFrom_digits (n value scale : Nat) (rest : Text) :
    decodeFrom value scale ((digits n).map letter ++ rest) =
      (decodeFrom 0 1 rest).map (unfold (value + n * scale) :: ·) := by
  induction n using Nat.strongRecOn generalizing value scale with
  | ind n ih =>
    rw [digits]
    split
    · rename_i small
      simp only [List.map_cons, List.map_nil, List.cons_append, List.nil_append, decodeFrom,
        digit?_letter n (by omega), small, ↓reduceIte, Nat.mod_eq_of_lt small]
      cases decodeFrom 0 1 rest <;> rfl
    · rename_i big
      have more : ¬ n % 32 + 32 < 32 := by omega
      simp only [List.map_cons, List.cons_append, decodeFrom,
        digit?_letter (n % 32 + 32) (by omega), more, ↓reduceIte]
      rw [ih (n / 32) (by omega), show (n % 32 + 32) % 32 = n % 32 by omega, Nat.add_assoc]
      have whole : n % 32 * scale + n / 32 * (scale * 32) = n * scale := by
        rw [Nat.mul_comm scale 32, ← Nat.mul_assoc, ← Nat.add_mul]
        congr 1
        omega
      rw [whole]

theorem decode_encode_append (z : Int) (rest : Text) :
    decode (encode z ++ rest) = (decode rest).map (z :: ·) := by
  rw [decode, encode, decodeFrom_digits, Nat.zero_add, Nat.mul_one, unfold_fold, decode]

end ArrowFree.Vlq
