import ArrowFree.Proofs.Compiled
import ArrowFree.Proofs.Readings

/-!
# Parentheses agree with the grammar

The printer puts parentheses by the levels of its table, and the grammar has a nonterminal for each
level. The code of an expression of operators is cut into the words of the expression, the words have
a derivation that makes the expression (`Formed.readsBack`), and no other one (`unique_operand`).
-/

namespace ArrowFree

open Printer hiding word
open Script Token

/-- **Printed expressions are read back.** The code of an expression that is made of names, literals,
`this`, arrays, operators, members, calls and sequences is cut into tokens up to its end. The tokens
derive from `expression`, and every such derivation makes the expression again, up to locations. -/
theorem printed_expression_reads_back {e : Tree} (h : Formed OperatorKind .expression e)
    (map : Option SourceMap) : ∃ printed : Printed, e.print map = .ok printed ∧
      (lex printed.code).stray = none ∧
      (∃ d, grammar.Derives (.nonterminal .expression) d (lex printed.code).tokens) ∧
      ∀ d, grammar.Derives (.nonterminal .expression) d (lex printed.code).tokens →
        ∀ file, ∃ b t, build file d = .ok b ∧ b.trees = [t] ∧ t.bare = e.bare := by
  have hindent : ∀ c ∈ defaultIndent, c.isBlank = true := List.all_eq_true.mp (by decide)
  obtain ⟨a, ha⟩ := WritesExpression.lax (h.prints hindent) 0
  obtain ⟨printed, hprint, hstray, hwords⟩ := print_of_writes ha map
  have hreads (file : Text) : Reads operandRules file .expression (lex printed.code).tokens e :=
    (h.readsBack (fun _ => id) (.inr (.inl rfl)) _ hwords (pairwise_lex _)).loosen (fun _ => id)
      (Nat.zero_le _)
  refine ⟨printed, hprint, hstray, ?_, fun d hd file => ?_⟩
  · obtain ⟨t, ⟨d, b, hd, -⟩, -⟩ := hreads []
    exact ⟨d, Grammar.derives_of_restrict (fun _ hp => (List.mem_filter.mp hp).1) hd⟩
  · obtain ⟨t, ⟨d', b, hd', hb, ht⟩, hbare, -⟩ := hreads file
    rw [unique_operand hd' hd]
    exact ⟨b, t, hb, ht, hbare⟩

/-- `(a, 1).x * -(-b ? this : [])`, where parentheses keep a sequence, an integer and a choice apart
from what stands around them. -/
def crowded : Tree :=
  let name (x : Text) : Tree := .node {} (.known .identifier) [.text x]
  let one : Tree := .node {} (.known .literal) [.scalar (.int 1), .text "1"]
  .node {} (.known .binaryExpression) [.text "*",
    .node {} (.known .memberExpression)
      [.node {} (.known .sequenceExpression) [.list [name "a", one]], name "x", .bool false],
    .node {} (.known .unaryExpression) [.text "-",
      .node {} (.known .conditionalExpression)
        [.node {} (.known .unaryExpression) [.text "-", name "b", .bool true],
         .node {} (.known .thisExpression) [],
         .node {} (.known .arrayExpression) [.list []]], .bool true]]

theorem crowded_formed : Formed OperatorKind .expression crowded := by
  have name {x : Text} (hx : Spells .ident x) :
      Formed OperatorKind .expression (.node {} (.known .identifier) [.text x]) :=
    .identifier (.name (by decide) hx)
  have one : Formed OperatorKind .expression
      (.node {} (.known .literal) [.scalar (.int 1), .text "1"]) := .literal (by decide) (by decide)
  refine .binary (by decide) (by decide) (.member (by decide) (.sequence (by decide) (by decide) ?_)
    (.word (by decide) (by decide))) (.unary (by decide) (by decide) (.conditional (by decide)
      (.unary (by decide) (by decide) (name (by decide))) (.this (by decide))
      (.array (by decide) nofun)))
  simp [name (x := "a") (by decide), one]

theorem printed_expression_reads_back_crowded : ∃ printed : Printed,
    crowded.print none = .ok printed ∧ printed.code = "(a, 1).x * -(-b ? this : [])\n" ∧
      (lex printed.code).stray = none ∧
      (∃ d, grammar.Derives (.nonterminal .expression) d (lex printed.code).tokens) ∧
      ∀ d, grammar.Derives (.nonterminal .expression) d (lex printed.code).tokens →
        ∀ file, ∃ b t, build file d = .ok b ∧ b.trees = [t] ∧ t.bare = crowded.bare := by
  obtain ⟨printed, hprint, hrest⟩ := printed_expression_reads_back crowded_formed none
  have hcode : (crowded.print none).toOption.map (·.code) =
      some ("(a, 1).x * -(-b ? this : [])\n" : Text) := by decide
  rw [hprint] at hcode
  exact ⟨printed, hprint, Option.some.inj hcode, hrest⟩

end ArrowFree
