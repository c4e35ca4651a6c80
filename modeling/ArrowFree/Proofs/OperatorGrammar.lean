import ArrowFree.Proofs.Unambiguous
import ArrowFree.Script.Grammar
import Mathlib.Data.List.Infix

/-!
# The grammar of operators

-/

namespace ArrowFree.Script

open Grammar Nonterminal

/-- The nonterminals of expressions without braces, from the ones that bind tightest to the loosest. -/
def operandChain : List Nonterminal :=
  [arrayLiteral, primary, callMember, suffixed, unary, multiplicative, additive, shift, relational,
   equality, bitwiseAnd, bitwiseXor, bitwiseOr, logicalAnd, logicalOr, conditional, assignment,
   assignments, expression]

def operandHeads : List Nonterminal := [propertyName, newCallee, arguments] ++ operandChain

/-- A brace or an arrow is in every expression that needs more. -/
def absentTerminals : List Terminal := [.openBrace, .arrow]

/-- A comma before the end of an array adds nothing to it. -/
def trailingComma : Terminal × Terminal := (.comma, .closeBracket)

def isOperandRule (p : Rule) : Bool :=
  operandHeads.contains p.head && p.body.all (Symbol.within operandHeads) &&
    ! [Symbol.terminal Terminal.comma, .terminal .closeBracket].isSuffixOf p.body

/-- The productions of expressions without braces and arrows. -/
def operandRules : List Rule := grammar.productions.filter isOperandRule

theorem mem_operandRules {p : Rule} (h : p ∈ operatorRules ∨ p ∈ memberRules ∨ p ∈ primaryRules ∨
    p ∈ propertyNameRules) (hp : isOperandRule p = true) : p ∈ operandRules := by
  refine List.mem_filter.mpr ⟨?_, hp⟩
  simp only [grammar, List.mem_append]
  tauto

def operandGrammar : Grammar Token Terminal Nonterminal Form := grammar.restrict operandRules

/-! ## What stands around an operand -/

/-- The terminals that can come behind a nonterminal and those that bind tighter, loosest first. -/
def behind : List (Nonterminal × List Terminal) :=
  [(assignment, [.comma, .closeParen, .closeBracket, .colon]),
   (logicalOr, [.question, .or]), (logicalAnd, [.and]), (bitwiseOr, [.bitOr]),
   (bitwiseXor, [.bitXor]), (bitwiseAnd, [.bitAnd]), (equality, [.equalityOp]),
   (relational, [.relationalOp, .instanceof, .in]), (shift, [.shiftOp]),
   (additive, [.additiveOp]), (multiplicative, [.multiplicativeOp]),
   (callMember, [.updateOp, .assign, .compoundAssign, .dot, .openBracket, .openParen])]

def operandStarts : List Terminal :=
  [.this, .ident, .number, .string, .true, .false, .null, .openBracket, .openParen]

def operandSurroundings : Surroundings Terminal Nonterminal where
  goals := [propertyName, newCallee, arguments, unary, multiplicative, additive, shift, relational,
    equality, bitwiseAnd, bitwiseXor, bitwiseOr, logicalAnd, assignment, assignments, expression]
  first
    | propertyName => [.ident, .this, .true, .false, .null, .new, .in, .instanceof, .typeof, .void,
        .delete, .var, .let, .const, .function, .return, .if, .else, .for, .while, .do, .break,
        .continue, .throw, .try, .catch, .finally]
    | arguments => [.openParen]
    | arrayLiteral => [.openBracket]
    | primary | newCallee => operandStarts
    | callMember | suffixed => .new :: operandStarts
    | _ => [.additiveOp, .unaryOp, .typeof, .void, .delete, .updateOp, .new] ++ operandStarts
  follow
    | expression | assignments => [.comma, .closeParen, .closeBracket]
    | n => (behind.filter fun e => n.ctorIdx ≤ e.1.ctorIdx).flatMap (·.2)
  stop
    | expression | assignments => [.closeParen, .closeBracket]
    | assignment => [.comma, .closeParen, .closeBracket, .colon]
    | newCallee => [.openParen]
    | propertyName | arguments => behind.flatMap (·.2)
    | n => (behind.filter fun e => n.ctorIdx < e.1.ctorIdx).flatMap (·.2)
  opens n m :=
    n = m || (m = newCallee && (n = primary || n = arrayLiteral)) ||
    (operandChain.contains n && operandChain.contains m && n ≠ assignments &&
      n.ctorIdx < m.ctorIdx)

theorem operandSurroundings_suits : operandSurroundings.Suits operandGrammar := by
  decide +kernel

/-! ## One derivation -/

/-- The nonterminals that an expression can have in it. -/
def expressionHeads : List Nonterminal :=
  [arrowFunction, objectLiteral, functionExpression, block] ++ operandHeads

instance (p : Rule) : Decidable
    (Covered operandRules expressionHeads absentTerminals trailingComma p) := by
  unfold Covered Barred
  infer_instance

theorem covered_of_mem : ∀ p ∈ grammar.productions, p.head ∈ expressionHeads →
    Covered operandRules expressionHeads absentTerminals trailingComma p := by
  decide +kernel

def operandFringe : Fringe Terminal Nonterminal where
  pair := trailingComma
  ends _ := false
  begins _ := false
  empty _ := false

theorem operandFringe_suits : operandFringe.Suits operandGrammar := by
  have h : ∀ p ∈ operandGrammar.productions, ∀ before : Bool,
      operandFringe.parts before p.body = true ∧ p.body.foldl operandFringe.after before = false := by
    decide
  intro p hp before _
  obtain ⟨hparts, hafter⟩ := h p hp before
  exact ⟨hparts, fun hend => by rw [hafter] at hend; cases hend⟩

/-- An expression without braces and arrows has one derivation. -/
theorem unique_operand {d d' : Deriv} {ts : List Token}
    (h : operandGrammar.Derives (.nonterminal expression) d ts)
    (h' : grammar.Derives (.nonterminal expression) d' ts) : d' = d := by
  have havoids : grammar.Avoids absentTerminals trailingComma ts := by
    refine ⟨fun t ht hmem => ?_, operandFringe_suits.apart h⟩
    have hno : ∀ p ∈ operandGrammar.productions, ∀ a ∈ absentTerminals,
        Symbol.terminal a ∉ p.body := by decide
    rcases mem_body_of_derives h t ht with heq | ⟨p, hp, hin⟩
    · cases heq
    · exact hno p hp _ hmem hin
  exact operandSurroundings_suits.unambiguous (by decide)
    (derives_restrict covered_of_mem h' havoids (by decide)) h

end ArrowFree.Script
