import ArrowFree.Proofs.PrintedTrees

/-!
# Brackets in printed code

Every bracket that printed code opens is closed again, part by part (`Formed.balanced`). So words can be told
apart by the brackets around them: `surface` has those that no bracket encloses, `bare` asks for a terminal
among them, and a search for the next such word passes over what has none (`cutAt_append`).
-/

namespace ArrowFree.Printer

open Token List

variable {ws : List Word} {r r' : Reach} {k : Terminal} {w : Word} {ks : List Terminal} {x : Text}

def isOpening (k : Terminal) : Bool := k = .openParen || k = .openBracket || k = .openBrace

def isClosing (k : Terminal) : Bool := k = .closeParen || k = .closeBracket || k = .closeBrace

theorem ne_dot_of_isOpening (h : isOpening k = true) : k ≠ .dot := by
  rintro rfl
  cases h

theorem not_opening_of_isClosing (h : isClosing k = true) : isOpening k = false ∧ k ≠ .dot := by
  simp only [isClosing, Bool.or_eq_true, decide_eq_true_eq] at h
  rcases h with (rfl | rfl) | rfl <;> decide

/-! ## Depth -/

/-- Where a reader of words is. -/
structure Reach where
  /-- How many brackets are open. -/
  depth : Nat := 0
  /-- The next word is the name of a member, whatever else it may be, because a point stands before it. -/
  point : Bool := false
deriving DecidableEq, Repr

/-- One word further on; none if it closes a bracket that was not opened, or is no name where one must be. -/
def Reach.past (r : Reach) (w : Word) : Option Reach :=
  if r.point then if w.1 ∈ propertyWords then some ⟨r.depth, false⟩ else none
  else if w.1 = .dot then some ⟨r.depth, true⟩
  else if isOpening w.1 then some ⟨r.depth + 1, false⟩
  else if isClosing w.1 then
    match r.depth with
    | 0 => none
    | d + 1 => some ⟨d, false⟩
  else some r

def Reach.after : Reach → List Word → Option Reach
  | r, [] => some r
  | r, w :: ws => (r.past w).bind fun r' => r'.after ws

/-- All brackets are closed within the words, and all members named. -/
def Balanced (ws : List Word) : Prop := ∀ d, Reach.after ⟨d, false⟩ ws = some ⟨d, false⟩

theorem Reach.after_append (r : Reach) (ws us : List Word) :
    r.after (ws ++ us) = (r.after ws).bind fun r' => r'.after us := by
  induction ws generalizing r with
  | nil => rfl
  | cons w ws ih =>
    rw [cons_append, after, after]
    cases r.past w with
    | none => rfl
    | some r' => exact ih r'

/-- None of the terminals is a bracket or a point. -/
def plainTerminals (ks : List Terminal) : Bool := ks.all fun k => ! isOpening k && ! isClosing k && k ≠ .dot

namespace Balanced

variable {operands : Bool} {ts : List Tree}

theorem nil : Balanced [] := fun _ => rfl

theorem append {us : List Word} (hws : Balanced ws) (hus : Balanced us) : Balanced (ws ++ us) := by
  intro d
  rw [Reach.after_append, hws d]
  exact hus d

theorem cons (hw : plainTerminals [w.1] = true) (h : Balanced ws) : Balanced (w :: ws) := by
  intro d
  simp only [plainTerminals, all_cons, all_nil, Bool.and_true, Bool.and_eq_true, Bool.not_eq_true',
    decide_eq_true_eq] at hw
  have hpast : Reach.past ⟨d, false⟩ w = some ⟨d, false⟩ := by simp [Reach.past, hw]
  rw [Reach.after, hpast]
  exact h d

theorem enclosed (h : Balanced ws) (parens : Bool) : Balanced (enclosed parens ws) := by
  cases parens with
  | false => exact h
  | true =>
    intro d
    have hclose : Reach.after ⟨d + 1, false⟩ [lexeme ")"] = some ⟨d, false⟩ := rfl
    show Reach.after ⟨d + 1, false⟩ (ws ++ [lexeme ")"]) = some ⟨d, false⟩
    rw [Reach.after_append, h]
    exact hclose

theorem word (h : SpellsOne ks x) (hks : plainTerminals ks = true) : Balanced (slotWord (.text x)) := by
  obtain ⟨k, hk, hx⟩ := h
  have hplain := all_eq_true.mp hks k hk
  intro d
  rw [Tree.text, slotWord, hx.lexeme_eq]
  simp_all [Reach.after, Reach.past]

theorem items {first : Bool} (h : ∀ t ∈ ts, Balanced (words t)) : Balanced (itemWords operands first ts) := by
  induction ts generalizing first with
  | nil => rw [itemWords]; exact nil
  | cons t ts ih =>
    have hseparator : Balanced (separator first) := by cases first <;> exact fun _ => rfl
    exact hseparator.append (((h t mem_cons_self).enclosed _).append
      (ih fun t ht => h t (.tail _ ht)))

theorem list (h : ∀ t ∈ ts, Balanced (words t)) : Balanced (listWords operands (.list ts)) := by
  exact items h

theorem statements (h : ∀ t ∈ ts, Balanced (words t)) : Balanced (statementWords (.list ts)) := by
  rw [statementWords]
  induction ts with
  | nil => rw [statementItemWords]; exact nil
  | cons t ts ih =>
    exact (h t mem_cons_self).append (ih fun t ht => h t (.tail _ ht))

/-- A declaration in the head of a loop only lacks the semicolon. -/
theorem head {t : Tree} (h : Balanced (words t)) : Balanced (headWords t) := by
  unfold headWords
  split
  · next declarations kind =>
    intro d
    have hwords := h d
    rw [words, nodeWords, Reach.after_append] at hwords
    obtain ⟨r, hr, hpast⟩ := Option.bind_eq_some_iff.mp hwords
    rw [hr]
    obtain ⟨depth, point⟩ := r
    cases point with
    | false => exact hpast
    | true => cases hpast
  · exact nil

end Balanced

/-! ## Words outside of brackets -/

/-- The words outside of brackets, without the names of members. -/
def surface : Reach → List Word → List Word
  | _, [] => []
  | r, w :: ws =>
    (if r.depth = 0 && ! r.point && ! isOpening w.1 && ! isClosing w.1 then [w] else []) ++
      surface ((r.past w).getD {}) ws

theorem surface_append (h : r.after ws = some r') (us : List Word) :
    surface r (ws ++ us) = surface r ws ++ surface r' us := by
  induction ws generalizing r with
  | nil =>
    obtain rfl := Option.some.inj h
    rfl
  | cons w ws ih =>
    obtain ⟨s, hpast, h⟩ := Option.bind_eq_some_iff.mp h
    rw [cons_append, surface, surface, hpast, Option.getD_some, ih h, append_assoc]

/-- A bracket more around the words. -/
def Reach.deeper (r : Reach) : Reach := ⟨r.depth + 1, r.point⟩

theorem Reach.past_deeper (h : r.past w = some r') : r.deeper.past w = some r'.deeper := by
  obtain ⟨d, point⟩ := r
  unfold past deeper at *
  cases d <;> split_ifs at h ⊢ <;> cases h <;> rfl

theorem surface_deeper (h : r.after ws = some r') : surface r.deeper ws = [] := by
  induction ws generalizing r with
  | nil => rfl
  | cons w ws ih =>
    obtain ⟨s, hpast, h⟩ := Option.bind_eq_some_iff.mp h
    rw [surface, Reach.past_deeper hpast, Option.getD_some, ih h]
    rfl

theorem Balanced.surface_append (h : Balanced ws) (d : Nat) (us : List Word) :
    surface ⟨d, false⟩ (ws ++ us) = surface ⟨d, false⟩ ws ++ surface ⟨d, false⟩ us :=
  Printer.surface_append (h d) us

theorem Balanced.surface_succ (h : Balanced ws) (d : Nat) : surface ⟨d + 1, false⟩ ws = [] := surface_deeper (h d)

/-- A word with this terminal stands outside of brackets. -/
def bare (k : Terminal) (ws : List Word) : Bool := (surface {} ws).any fun w => w.1 = k

section

variable {k : Terminal} {ws : List Word}

theorem bare_append (h : Balanced ws) (us : List Word) : bare k (ws ++ us) = (bare k ws || bare k us) := by
  rw [bare, h.surface_append, any_append]
  rfl

theorem bare_cons (hw : plainTerminals [w.1] = true) (us : List Word) :
    bare k (w :: us) = (decide (w.1 = k) || bare k us) := by
  simp only [plainTerminals, all_cons, all_nil, Bool.and_true, Bool.and_eq_true, Bool.not_eq_true',
    decide_eq_true_eq] at hw
  obtain ⟨⟨hopening, hclosing⟩, hdot⟩ := hw
  have hpast : Reach.past {} w = some {} := by simp [Reach.past, hopening, hclosing, hdot]
  rw [bare, surface, hpast, hopening, hclosing]
  rfl

theorem bare_group {o c : Word} (ho : isOpening o.1 = true) (hc : isClosing c.1 = true) (h : Balanced ws)
    (us : List Word) : bare k (o :: (ws ++ c :: us)) = bare k us := by
  obtain ⟨hopening, hdot⟩ := not_opening_of_isClosing hc
  have hopen : Reach.past {} o = some ⟨1, false⟩ := by simp [Reach.past, ne_dot_of_isOpening ho, ho]
  have hclose : Reach.past ⟨1, false⟩ c = some {} := by simp [Reach.past, hdot, hopening, hc]
  rw [bare, surface, hopen, ho, Option.getD_some, h.surface_append, h.surface_succ 0, surface, hclose]
  rfl

theorem bare_enclosed (h : Balanced ws) (parens : Bool) : bare k (enclosed parens ws) = (! parens && bare k ws) := by
  cases parens with
  | false => rfl
  | true => exact bare_group rfl rfl h []

theorem bare_member (hk : k ≠ .dot) (w : Word) : bare k [lexeme ".", w] = false := by
  have hdot : (lexeme ".").1 = .dot := by decide
  simp [bare, surface, Reach.past, hdot, isOpening, isClosing, hk.symm]

theorem bare_slotWord (h : SpellsOne ks x) (hks : plainTerminals ks = true) (hk : k ∉ ks) :
    bare k (slotWord (.text x)) = false := by
  obtain ⟨k', hk', hx⟩ := h
  have hplain : plainTerminals [k'] = true := by
    simpa [plainTerminals] using all_eq_true.mp hks k' hk'
  rw [Tree.text, slotWord, hx.lexeme_eq, bare_cons (w := (k', x)) hplain]
  have hne : k' ≠ k := fun heq => hk (heq ▸ hk')
  simp [hne, bare, surface]

end

/-! ## Searching outside of brackets -/

/-- The words before the first one outside of brackets with such a terminal, and those behind it. -/
def cutAt (stop : Terminal → Bool) : Reach → List Word → Option (List Word × List Word)
  | _, [] => none
  | r, w :: ws =>
    if r.depth = 0 && ! r.point && stop w.1 then some ([], ws)
    else (r.past w).bind fun r' => (cutAt stop r' ws).map fun e => (w :: e.1, e.2)

/-- The search passes over words that have no such terminal outside of brackets. -/
theorem cutAt_append {stop : Terminal → Bool} (hstop : ∀ k, isOpening k = true → stop k = false)
    (h : r.after ws = some r') (hfree : ∀ w ∈ surface r ws, stop w.1 = false) (us : List Word) :
    cutAt stop r (ws ++ us) = (cutAt stop r' us).map fun e => (ws ++ e.1, e.2) := by
  induction ws generalizing r with
  | nil =>
    obtain rfl := Option.some.inj h
    simp
  | cons w ws ih =>
    obtain ⟨s, hpast, h⟩ := Option.bind_eq_some_iff.mp h
    rw [surface, hpast, Option.getD_some, forall_mem_append] at hfree
    have hgoes : (r.depth = 0 && ! r.point && stop w.1) = false := by
      cases hopening : isOpening w.1 with
      | true => simp [hstop _ hopening]
      | false =>
        cases hclosing : isClosing w.1 with
        | true =>
          -- outside of brackets none is closed
          obtain ⟨d, point⟩ := r
          cases d with
          | succ d => rfl
          | zero =>
            cases point with
            | true => rfl
            | false =>
              simp [Reach.past, (not_opening_of_isClosing hclosing).2, hopening, hclosing] at hpast
        | false =>
          cases hout : decide (r.depth = 0) && ! r.point with
          | false => rfl
          | true =>
            rw [hout, hopening, hclosing] at hfree
            exact hfree.1 w mem_cons_self
    rw [cons_append, cutAt, hgoes, hpast, Option.bind_some, ih h hfree.2]
    simp [Function.comp_def]

/-- The first word of a kind is found behind words that have none outside of brackets. -/
theorem cutAt_of_bare (hk : isOpening k = false) (hws : Balanced ws) (hfree : bare k ws = false) (hw : w.1 = k)
    (us : List Word) : cutAt (· = k) {} (ws ++ w :: us) = some (ws, us) := by
  have hopening (j : Terminal) (hj : isOpening j = true) : decide (j = k) = false :=
    decide_eq_false fun heq => by simp [← heq, hj] at hk
  have hnot (v : Word) (hv : v ∈ surface {} ws) : decide (v.1 = k) = false := by
    simpa using any_eq_false.mp hfree v hv
  rw [cutAt_append hopening (hws 0) hnot, cutAt]
  simp [hw]

end ArrowFree.Printer

namespace ArrowFree.Formed

open Printer Token List

variable {K : Kind → Prop} {p : Part} {t : Tree}

attribute [local simp] words nodeWords Reach.after Reach.past Reach.after_append

/-- **Printed code closes every bracket that it opens**, part by part. -/
theorem balanced (h : Formed K p t) : Balanced (words t) := by
  induction h with
  | absent => exact .nil
  | present _ ih | wordKey _ ih | identifier _ ih | target _ _ ih | blockStatement _ ih
  | declarationStatement _ ih | initialDeclaration _ ih | initialExpression _ ih | iteratedTarget _ ih => exact ih
  | name _ hx => exact .word (spellsOne_of_ident hx) (by decide)
  | word _ hx => exact .word hx (by decide)
  | literalKey _ hd | literal _ hd =>
    obtain ⟨k, hk, hd, -⟩ := hd
    exact .word ⟨k, hk, hd⟩ (by decide)
  | this _ | emptyStatement _ | breakStatement _ | continueStatement _ => exact fun _ => rfl
  | array _ _ ih | object _ _ ih | sequence _ _ _ ih =>
    intro d
    simp +decide [Balanced.list ih _]
  | property _ _ _ ihk ihv =>
    intro d
    rw [words, nodeWords]
    split <;> simp +decide [ihk _, ihv _, ihv.enclosed _ _]
  | shorthand _ _ hx =>
    have hword := Balanced.word (spellsOne_of_ident hx) (by decide)
    intro d
    rw [words, nodeWords]
    split <;> simp +decide [hword _, hword.enclosed _ _]
  | function _ _ _ _ ihf ihp ihb | functionDeclaration _ _ _ _ ihf ihp ihb =>
    intro d
    simp +decide [ihf _, Balanced.list ihp _, ihb _]
  | arrowBlock _ _ _ ihp ihb | arrow _ _ _ ihp ihb =>
    intro d
    simp +decide [Balanced.list ihp _, ihb.enclosed _ _]
  | unary _ hop _ ih =>
    intro d
    simp [Balanced.word hop (by decide) _, ih.enclosed _ _]
  | @update _ _ _ before _ hop _ ih =>
    have hone : SpellsOne [.updateOp] _ := ⟨_, by decide, hop⟩
    intro d
    cases before <;>
      simp +decide [Balanced.word hone (by decide) _, ih.enclosed _ _]
  | binary _ hop _ _ ihl ihr | logical _ hop _ _ ihl ihr | assignment _ hop _ _ ihl ihr =>
    intro d
    simp [Balanced.word hop (by decide) _, ihl.enclosed _ _, ihr.enclosed _ _]
  | conditional _ _ _ _ ihc iha ihb =>
    intro d
    simp +decide [ihc.enclosed _ _, iha.enclosed _ _, ihb.enclosed _ _]
  | call _ _ _ ihf ih | new _ _ _ ihf ih =>
    intro d
    simp +decide [ihf.enclosed _ _, Balanced.list ih _]
  | member _ _ hp iho ihp =>
    intro d
    cases hp with
    | word _ hx =>
      obtain ⟨k, hk, hx⟩ := hx
      simp +decide [iho.enclosed _ _, slotWord, Tree.text, hx.lexeme_eq, hk]
  | computed _ _ _ iho ihp =>
    intro d
    simp +decide [iho.enclosed _ _, ihp _]
  | declarator _ _ _ ihx ihe =>
    intro d
    rw [words, nodeWords]
    split <;> simp +decide [ihx _, ihe.enclosed _ _]
  | declaration _ hkind _ _ ih =>
    intro d
    simp +decide [Balanced.word hkind (by decide) _, Balanced.list ih _]
  | block _ _ ih | program _ _ ih =>
    intro d
    simp +decide [Balanced.statements ih _]
  | expressionStatement _ _ ih =>
    intro d
    simp +decide [ih.enclosed _ _]
  | returnStatement _ _ ih | throwStatement _ _ ih =>
    intro d
    simp +decide [ih _]
  | ifStatement _ _ _ _ ihc iha ihb =>
    intro d
    rw [words, nodeWords]
    split
    · simp +decide [ihc _, iha _]
    · split <;> simp +decide [ihc _, iha _, ihb _]
  | forStatement _ _ _ _ _ ihi ihc ihu ihb =>
    intro d
    rw [words, nodeWords]
    split <;> simp +decide [ihi.head _, ihi.enclosed _ _, ihc _, ihu _, ihb _]
  | iteratedDeclaration _ _ hkind _ ih =>
    intro d
    simp +decide [listWords, separator, itemWords, enclosed, Balanced.word hkind (by decide) _, ih _]
  | forInStatement _ _ _ _ ihl ihr ihb =>
    intro d
    rw [words, nodeWords]
    split <;> simp +decide [ihl.head _, ihl _, ihr _, ihb _]
  | whileStatement _ _ _ ihc ihb | doWhileStatement _ _ _ ihb ihc | handler _ _ _ ihc ihb =>
    intro d
    simp +decide [ihc _, ihb _]
  | tryStatement _ _ _ _ _ ihb ihh ihf =>
    intro d
    rw [words, nodeWords]
    split <;> simp +decide [ihb _, ihh _, ihf _]

end ArrowFree.Formed
