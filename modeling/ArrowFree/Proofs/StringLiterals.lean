import ArrowFree.Literal
import ArrowFree.Proofs.Spelling

/-!
# Written strings are read back

A string is written code point by code point. Each escape stands for what was escaped, whatever follows, and does
not end the string (`StandsFor`), so that the whole is one string token and is read from left to right. Past the
first plane a code point comes back as two surrogates: the texts are the same as sequences of UTF-16 code units
(`string_read_back`).
-/

namespace ArrowFree

open List

/-- The UTF-16 code units of a code point; past the first plane there are two. -/
def CodePoint.units (c : CodePoint) : List Nat :=
  if c.val < 0x10000 then [c.val]
  else [0xD800 + (c.val - 0x10000) / 0x400, 0xDC00 + (c.val - 0x10000) % 0x400]

/-- The string of a text in the script language is that of its UTF-16 code units. -/
def Text.units (t : Text) : List Nat := t.flatMap CodePoint.units

namespace Literal

open Text Token

variable {n : Nat} {e e' : Text} {c d : CodePoint}

/-! ## Hexadecimal digits -/

def hexDigit (k : Nat) : CodePoint := CodePoint.ofChar k.digitChar

theorem hexDigit_facts : ∀ k < 16, (hexDigit k).hexValue? = some k ∧ hexDigit k ≠ '"' ∧ hexDigit k ≠ '\n' ∧
    hexDigit k ≠ '\\' := by
  decide

theorem hex_one (h : n < 16) : hex 1 n = [hexDigit n] := by
  rw [hex, Nat.toDigits_of_lt_base h]
  rfl

/-- The last digit stands apart. -/
theorem hex_succ (w n : Nat) : hex (w + 2) n = hex (w + 1) (n / 16) ++ [hexDigit (n % 16)] := by
  unfold hex
  by_cases h : n < 16
  · rw [Nat.toDigits_of_lt_base h, Nat.div_eq_of_lt h, Nat.toDigits_of_lt_base (by omega), Nat.mod_eq_of_lt h]
    simp [replicate_succ', hexDigit]
    rfl
  · rw [Nat.toDigits_of_base_le (by omega) (by omega)]
    simp [hexDigit]

theorem hex_four (h : n < 0x10000) :
    hex 4 n = [hexDigit (n / 16 / 16 / 16), hexDigit (n / 16 / 16 % 16), hexDigit (n / 16 % 16),
      hexDigit (n % 16)] := by
  rw [hex_succ, hex_succ, hex_succ, hex_one (by omega)]
  rfl

theorem hexPoint?_hex (h : n < 0x10000) : hexPoint? (hex 4 n) = some (CodePoint.ofNat n) := by
  have hvalue (k : Nat) (hk : k < 16) := (hexDigit_facts k hk).1
  have hdigits : (((n / 16 / 16 / 16) * 16 + n / 16 / 16 % 16) * 16 + n / 16 % 16) * 16 + n % 16 = n := by omega
  rw [hex_four h, hexPoint?]
  simp [hvalue _ (show n / 16 / 16 / 16 < 16 by omega), hvalue _ (Nat.mod_lt _ _), Number.ofDigits, hdigits]

/-! ## Escapes -/

/-- The lexer reads over `e` in a string between double quotes. -/
def GoesOn (e : Text) : Prop := ∀ r, stringRest? '"' (e ++ r) = (stringRest? '"' r).map (e.length + ·)

theorem GoesOn.append (h : GoesOn e) (h' : GoesOn e') : GoesOn (e ++ e') := by
  intro r
  rw [append_assoc, h, h', Option.map_map, length_append]
  exact congrArg (Option.map · _) (funext fun n => (Nat.add_assoc ..).symm)

theorem goesOn_plain (h : c ≠ '"' ∧ c ≠ '\n' ∧ c ≠ '\\') : GoesOn [c] :=
  fun r => by simp [stringRest?_cons, h]

theorem goesOn_backslash (h : d ≠ '\n') : GoesOn ['\\', d] := by
  intro r
  rw [cons_append, stringRest?_cons, if_neg (by decide), if_neg (by decide), if_pos rfl]
  simp [h]

theorem goesOn_hex (h : n < 0x10000) : GoesOn (hex 4 n) := by
  have hdigit (k : Nat) (hk : k < 16) : GoesOn [hexDigit k] := goesOn_plain (hexDigit_facts k hk).2
  rw [hex_four h]
  exact (hdigit _ (by omega)).append ((hdigit _ (by omega)).append ((hdigit _ (by omega)).append (hdigit _ (by omega))))

/-- In a string `e` stands for `cs`, whatever follows, and does not end the string. -/
structure StandsFor (e cs : Text) : Prop where
  read : ∀ r, unescape (e ++ r) = cs ++ unescape r
  goesOn : GoesOn e

namespace StandsFor

theorem append {cs cs' : Text} (h : StandsFor e cs) (h' : StandsFor e' cs') :
    StandsFor (e ++ e') (cs ++ cs') where
  read r := by rw [append_assoc, h.read, h'.read, append_assoc]
  goesOn := h.goesOn.append h'.goesOn

theorem flatMap {f g : CodePoint → Text} (h : ∀ c, StandsFor (f c) (g c)) (t : Text) :
    StandsFor (t.flatMap f) (t.flatMap g) := by
  induction t with
  | nil => exact ⟨fun _ => rfl, fun _ => by simp⟩
  | cons c t ih => exact (h c).append ih

theorem plain (h : c ≠ '"' ∧ c ≠ '\n' ∧ c ≠ '\\') : StandsFor [c] [c] where
  read r := by
    rw [singleton_append, unescape.eq_def]
    exact if_neg h.2.2
  goesOn := goesOn_plain h

theorem short (h : d ≠ '\n' ∧ d ≠ 'x' ∧ d ≠ 'u') : StandsFor ['\\', d] [shortEscape d] where
  read r := by
    change unescape ('\\' :: d :: r) = _
    rw [unescape.eq_def]
    dsimp only
    rw [if_pos rfl, if_neg h.1, if_neg h.2.1, if_neg h.2.2]
    rfl
  goesOn := goesOn_backslash h.1

theorem unicode (h : n < 0x10000) : StandsFor ("\\u" ++ hex 4 n) [CodePoint.ofNat n] where
  read r := by
    have hpoint := hexPoint?_hex h
    rw [hex_four h] at hpoint ⊢
    change unescape ('\\' :: 'u' :: _ :: _ :: _ :: _ :: r) = _
    rw [unescape.eq_def]
    dsimp only
    rw [if_pos rfl, if_neg (by decide), if_neg (by decide), if_pos rfl, hpoint]
    rfl
  goesOn := (goesOn_backslash (d := 'u') (by decide)).append (goesOn_hex h)

end StandsFor

/-! ## Strings -/

/-- What an escaped code point is read back as. -/
def readBack (c : CodePoint) : Text :=
  if c.val < 0x10000 then [c]
  else [CodePoint.ofNat (0xD800 + (c.val - 0x10000) / 0x400), CodePoint.ofNat (0xDC00 + (c.val - 0x10000) % 0x400)]

theorem surrogates_lt (c : CodePoint) :
    0xD800 + (c.val - 0x10000) / 0x400 < 0x10000 ∧ 0xDC00 + (c.val - 0x10000) % 0x400 < 0x10000 := by
  omega

theorem controlLetter?_spec (h : controlLetter? c = some d) :
    (d ≠ '\n' ∧ d ≠ 'x' ∧ d ≠ 'u') ∧ shortEscape d = c ∧ c.val < 0x10000 := by
  unfold controlLetter? at h
  split_ifs at h with h₁ h₂ h₃ h₄ h₅
  · cases h
    exact ⟨by decide, h₁.symm, by rw [h₁]; decide⟩
  · cases h
    exact ⟨by decide, h₂.symm, by rw [h₂]; decide⟩
  · cases h
    exact ⟨by decide, h₃.symm, by rw [h₃]; decide⟩
  · cases h; exact ⟨by decide, Fin.ext h₄.symm, by omega⟩
  · cases h; exact ⟨by decide, Fin.ext h₅.symm, by omega⟩

theorem standsFor_asciiEscape (c : CodePoint) : StandsFor (asciiEscape c) (readBack c) := by
  unfold asciiEscape readBack
  split
  · next hquoted =>
    obtain rfl | rfl : c = '"' ∨ c = '\\' := by simpa using hquoted
    all_goals exact .short (by decide)
  · next hquoted =>
    split
    · next d hd =>
      obtain ⟨hletter, hshort, hlt⟩ := controlLetter?_spec hd
      rw [if_pos hlt]
      exact hshort ▸ .short hletter
    · next hcontrol =>
      split
      · next hprintable =>
        have hrange : 0x20 ≤ c.val ∧ c.val ≤ 0x7E := by simpa using hprintable
        rw [if_pos (by omega)]
        refine .plain ⟨?_, ?_, ?_⟩
        all_goals
          rintro rfl
          revert hquoted hcontrol
          decide
      · split
        · next hlt =>
          have := StandsFor.unicode hlt
          rwa [CodePoint.ofNat, Fin.ofNat_val_eq_self] at this
        · have hpair := (StandsFor.unicode (surrogates_lt c).1).append (.unicode (surrogates_lt c).2)
          rwa [← append_assoc] at hpair

theorem units_readBack (c : CodePoint) : (readBack c).units = c.units := by
  unfold readBack CodePoint.units
  split
  · next h => simp [Text.units, CodePoint.units, h]
  · have hval (n : Nat) (h : n < 0x10000) : (CodePoint.ofNat n).val = n := Nat.mod_eq_of_lt (by omega)
    simp [Text.units, CodePoint.units, hval, surrogates_lt c]

/-- **Written strings are read back.** Any text, with surrogates or not, is written as a literal that is one
string token, whose value is the same string of UTF-16 code units. -/
theorem string_read_back (s : Text) :
    ∃ raw, write (.text s) = .ok raw ∧ stringLength? raw = some raw.length ∧ Spells .string raw ∧
      (readString raw).units = s.units := by
  have hbody := StandsFor.flatMap standsFor_asciiEscape s
  have hlength : stringLength? (asciiQuoted s) = some (asciiQuoted s).length := by
    change (stringRest? '"' (s.flatMap asciiEscape ++ [('"' : CodePoint)])).map (1 + ·) = _
    rw [hbody.goesOn, stringRest?_cons, if_pos rfl, Option.map_some, Option.map_some]
    exact congrArg some (by simp [asciiQuoted, ofString]; omega)
  refine ⟨_, rfl, hlength, ?_, ?_⟩
  · have hnumber : numberLength? (asciiQuoted s) = none :=
      numberLength?_eq_none (c := '"') (by decide) (fun h => absurd h (by decide))
    rw [Spells, match?, hnumber, hlength]
  · have hread := hbody.read []
    rw [List.append_nil] at hread
    have hinner : ((asciiQuoted s).drop 1).dropLast = s.flatMap asciiEscape := List.dropLast_concat
    rw [readString, hinner, hread, Text.units, List.flatMap_append, List.flatMap_assoc]
    exact (List.append_nil _).trans (List.flatMap_congr fun c _ => units_readBack c)

end Literal

end ArrowFree
