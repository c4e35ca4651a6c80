import ArrowFree.Proofs.PrintedTrees

/-!
# Emitted code

What is printed of a tree without arrow functions has no arrow among its words: no kind of node but the arrow
function writes one, and no name, literal or operator is one (`Formed.arrowless`).
-/

namespace ArrowFree.Printer

open Token

variable {ws : List Word} {ts : List Tree}

/-- None of the words is an arrow. -/
def Arrowless (ws : List Word) : Prop := ∀ w ∈ ws, w.1 ≠ .arrow

@[simp] theorem arrowless_nil : Arrowless [] := nofun

@[simp] theorem arrowless_cons {w : Word} :
    Arrowless (w :: ws) ↔ w.1 ≠ .arrow ∧ Arrowless ws := List.forall_mem_cons

@[simp] theorem arrowless_append {us : List Word} :
    Arrowless (ws ++ us) ↔ Arrowless ws ∧ Arrowless us := List.forall_mem_append

@[simp] theorem arrowless_enclosed {parens : Bool} : Arrowless (enclosed parens ws) ↔ Arrowless ws := by
  unfold enclosed
  cases parens with
  | false => rfl
  | true =>
    have : (lexeme "(").1 ≠ .arrow ∧ (lexeme ")").1 ≠ .arrow := by decide
    simp [this]

theorem arrowless_slotWord {ks : List Terminal} {x : Text} (h : SpellsOne ks x)
    (hks : .arrow ∉ ks) : Arrowless (slotWord (.text x)) := by
  obtain ⟨k, hk, hx⟩ := h
  rw [Tree.text, slotWord, hx.lexeme_eq]
  simp only [arrowless_cons, arrowless_nil, and_true]
  rintro rfl
  exact hks hk

theorem arrowless_itemWords {operands first : Bool} (h : ∀ t ∈ ts, Arrowless (words t)) :
    Arrowless (itemWords operands first ts) := by
  have hcomma : (lexeme ",").1 ≠ .arrow := by decide
  induction ts generalizing first with
  | nil => rw [itemWords]; exact arrowless_nil
  | cons t ts ih =>
    rw [itemWords]
    have hsep : Arrowless (separator first) := by
      cases first <;> simp [separator, hcomma]
    simp [hsep, h t, ih fun t ht => h t (.tail _ ht)]

theorem arrowless_statementItemWords (h : ∀ t ∈ ts, Arrowless (words t)) :
    Arrowless (statementItemWords ts) := by
  induction ts with
  | nil => rw [statementItemWords]; exact arrowless_nil
  | cons t ts ih =>
    rw [statementItemWords]
    simp [h t, ih fun t ht => h t (.tail _ ht)]

theorem arrowless_headWords {t : Tree} (h : Arrowless (words t)) : Arrowless (headWords t) := by
  unfold headWords
  split
  · rw [words, nodeWords] at h
    exact (arrowless_append.mp h).1
  · exact arrowless_nil

end ArrowFree.Printer

namespace ArrowFree.Formed

open Printer Token

variable {K : Kind → Prop} {p : Part} {t : Tree}

/-- A tree without arrow functions is printed without arrows. -/
theorem arrowless (hK : ¬ K .arrowFunctionExpression) (h : Formed K p t) : Arrowless (words t) := by
  have list {operands : Bool} {ts : List Tree} (h : ∀ t ∈ ts, Arrowless (words t)) :
      Arrowless (listWords operands (.list ts)) := by
    rw [listWords]
    exact arrowless_itemWords h
  have statements {ts : List Tree} (h : ∀ t ∈ ts, Arrowless (words t)) :
      Arrowless (statementWords (.list ts)) := by
    rw [statementWords]
    exact arrowless_statementItemWords h
  have null : Arrowless (words .null) := arrowless_nil
  induction h with
  | absent => exact null
  | present _ ih | wordKey _ ih | identifier _ ih | target _ _ ih | blockStatement _ ih
  | declarationStatement _ ih | initialDeclaration _ ih | initialExpression _ ih | iteratedTarget _ ih => exact ih
  | name _ hx => exact arrowless_slotWord (spellsOne_of_ident hx) (by decide)
  | word _ hx => exact arrowless_slotWord hx (by decide)
  | literalKey _ hd | literal _ hd =>
    obtain ⟨k, hk, hd, -⟩ := hd
    exact arrowless_slotWord ⟨k, hk, hd⟩ (by decide)
  | this _ | emptyStatement _ | breakStatement _ | continueStatement _ => simp +decide [words, nodeWords]
  | array _ _ ih | object _ _ ih | sequence _ _ _ ih => simp +decide [words, nodeWords, list ih]
  | property _ _ _ ihk ihv =>
    rw [words, nodeWords]
    split
    · exact ihv
    · simp +decide [ihk, ihv]
  | shorthand _ _ hx =>
    have hword := arrowless_slotWord (spellsOne_of_ident hx) (by decide)
    rw [words, nodeWords]
    split <;> simp +decide [words, nodeWords, hword]
  | function _ _ _ _ ihf ihp ihb | functionDeclaration _ _ _ _ ihf ihp ihb =>
    simp +decide [words, nodeWords, ihf, list ihp, ihb]
  | arrowBlock hk _ _ _ _ | arrow hk _ _ _ _ => exact absurd hk hK
  | unary _ hop _ ih => simp +decide [words, nodeWords, arrowless_slotWord hop, ih]
  | @update _ _ _ before _ hop _ ih =>
    have hone : SpellsOne [.updateOp] _ := ⟨_, by decide, hop⟩
    have hop := arrowless_slotWord hone (by decide)
    cases before <;> simp +decide [words, nodeWords, hop, ih]
  | binary _ hop _ _ ihl ihr | logical _ hop _ _ ihl ihr | assignment _ hop _ _ ihl ihr =>
    simp +decide [words, nodeWords, arrowless_slotWord hop, ihl, ihr]
  | conditional _ _ _ _ ihc iha ihb => simp +decide [words, nodeWords, ihc, iha, ihb]
  | call _ _ _ ihf ih | new _ _ _ ihf ih => simp +decide [words, nodeWords, ihf, list ih]
  | member _ _ _ iho ihp | computed _ _ _ iho ihp => simp +decide [words, nodeWords, iho, ihp]
  | declarator _ _ _ ihx ihe =>
    rw [words, nodeWords]
    split <;> simp +decide [ihx, ihe]
  | declaration _ hkind _ _ ih => simp +decide [words, nodeWords, arrowless_slotWord hkind, list ih]
  | block _ _ ih | program _ _ ih => simp +decide [words, nodeWords, statements ih]
  | expressionStatement _ _ ih | returnStatement _ _ ih | throwStatement _ _ ih => simp +decide [words, nodeWords, ih]
  | ifStatement _ _ _ _ ihc iha ihb =>
    rw [words, nodeWords]
    split
    · simp +decide [ihc, iha]
    · split <;> simp +decide [ihc, iha, ihb]
  | forStatement _ _ _ _ _ ihi ihc ihu ihb =>
    have hhead := arrowless_headWords ihi
    rw [words, nodeWords]
    split <;> simp +decide [hhead, ihi, ihc, ihu, ihb]
  | iteratedDeclaration _ _ hkind _ ih =>
    simp +decide [words, nodeWords, listWords, separator, itemWords, arrowless_slotWord hkind, ih]
  | forInStatement _ _ _ _ ihl ihr ihb =>
    have hhead := arrowless_headWords ihl
    rw [words, nodeWords]
    split <;> simp +decide [hhead, ihl, ihr, ihb]
  | whileStatement _ _ _ ihc ihb | doWhileStatement _ _ _ ihb ihc => simp +decide [words, nodeWords, ihc, ihb]
  | handler _ _ _ ihx ihb => simp +decide [words, nodeWords, ihx, ihb]
  | tryStatement _ _ _ _ _ ihb ihh ihf =>
    rw [words, nodeWords]
    split <;> simp +decide [ihb, ihh, ihf]

end ArrowFree.Formed
