import ArrowFree.Proofs.Compiled
import ArrowFree.Proofs.Unambiguous

/-!
# Compiling emitted code again

The grammar has no script in which `new` stands directly before `new` (`newsApart_of_derive`): what can end
with `new` and what can begin with it never stand side by side. The printer leaves the parentheses around the
callee of `new` out, so that emitted code can be refused.
-/

namespace ArrowFree

open Script Token Grammar

variable {source : Text}

/-! ## `new` before `new` -/

/-- What can begin and end with `new`, as an operator or as the name of a property. -/
def newFringe : Fringe Terminal Nonterminal where
  pair := (.new, .new)
  ends n := [Nonterminal.propertyName, .newCallee, .callMember, .suffixed, .unary, .multiplicative,
    .additive, .shift, .relational, .equality, .bitwiseAnd, .bitwiseXor, .bitwiseOr, .logicalAnd,
    .logicalOr, .conditional, .arrowFunction, .arrowBody, .assignment, .assignments, .property,
    .properties, .expression, .variableDeclarator, .declarators, .varDeclaration, .forInit, .forTest,
    .forUpdate, .forInLeft, .tail, .program].contains n
  begins n := [Nonterminal.propertyName, .callMember, .suffixed, .unary, .multiplicative,
    .additive, .shift, .relational, .equality, .bitwiseAnd, .bitwiseXor, .bitwiseOr, .logicalAnd,
    .logicalOr, .conditional, .arrowBody, .assignment, .assignments, .property, .properties,
    .expression, .forInit, .forTest, .forUpdate, .forInLeft, .expressionStatement, .statement,
    .statements, .tail, .program].contains n
  empty n := [Nonterminal.parameterList, .forInit, .forTest, .forUpdate, .program].contains n

theorem newFringe_suits : newFringe.Suits grammar := by
  unfold Fringe.Suits
  decide +kernel

/-- No `new` stands directly before another one. -/
def NewsApart (ts : List Token) : Prop :=
  ts.IsChain fun t u => ¬ (t.terminal = .new ∧ u.terminal = .new)

instance : DecidablePred NewsApart := fun ts =>
  inferInstanceAs (Decidable (ts.IsChain fun t u => ¬ (t.terminal = .new ∧ u.terminal = .new)))

theorem newsApart_of_derive {file : Text} {d : Deriv} (h : derive file source = .ok d) :
    NewsApart (lex source).tokens :=
  newFringe_suits.apart (derives_of_derive h).1

theorem derive_of_emitted {code : Text} {options : CompileOptions} (h : emitted source options = some code) :
    ∃ d, derive options.file source = .ok d := by
  obtain ⟨c, printed, hc, hp, -⟩ := emitted_eq_some.mp h
  cases hd : derive options.file source with
  | ok d => exact ⟨d, rfl⟩
  | error f =>
    have hparse : Script.parse options.file source = .error f := by
      unfold Script.parse
      rw [hd]
      rfl
    unfold compile lowerScript at hc
    simp only [hparse] at hc
    cases f with
    | source e =>
      cases hc
      exact nomatch hp
    | _ => exact nomatch hc

/-- A script in which `new` stands directly before `new` gives no code, whatever the options. -/
theorem new_before_new_refused (options : CompileOptions) (h : ¬ NewsApart (lex source).tokens) :
    emitted source options = none := by
  rw [Option.eq_none_iff_forall_ne_some]
  intro code hcode
  obtain ⟨d, hd⟩ := derive_of_emitted hcode
  exact h (newsApart_of_derive hd)

theorem new_before_new_refused_nested : ¬ NewsApart (lex "new new X()();\n").tokens ∧
    emitted "new new X()();\n" = none := by
  have h : ¬ NewsApart (lex "new new X()();\n").tokens := by decide
  exact ⟨h, new_before_new_refused {} h⟩

/-- The callee of `new` is printed without parentheses, also where it is itself `new`: this script
compiles to code that is refused. -/
theorem emitted_code_refused_nested_new : emitted "new (new X())();" = some "new new X()();\n" ∧
    emitted "new new X()();\n" = none := by
  decide +kernel

end ArrowFree
