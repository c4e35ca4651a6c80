import ArrowFree.Proofs.Analyzable
import ArrowFree.Proofs.Compiled

/-!
# Words of the parts

Within the words of a tree those of each of its nodes stand together (`Formed.phrase_within`). Only the
semicolon of a declaration does not count: in the head of a loop it is not the declaration's own, or missing.
-/

namespace ArrowFree

open Token
open List hiding lex

namespace Printer

/-- The words of a part, of a declaration without its semicolon. -/
def phrase (t : Tree) : List Word := if t.is .variableDeclaration then headWords t else words t

variable {ws us : List Word} {t : Tree} {ts : List Tree}

theorem infix_left (h : ws <:+: us) (vs : List Word) : ws <:+: us ++ vs :=
  h.trans (prefix_append us vs).isInfix

theorem infix_right (vs : List Word) (h : ws <:+: us) : ws <:+: vs ++ us :=
  h.trans (suffix_append vs us).isInfix

theorem phrase_infix_words (t : Tree) : phrase t <:+: words t := by
  unfold phrase
  split
  · unfold headWords
    split
    · rw [words, nodeWords]
      exact infix_left infix_rfl _
    · exact nil_infix
  · exact infix_rfl

theorem phrase_infix_enclosed (parens : Bool) (t : Tree) : phrase t <:+: enclosed parens (words t) := by
  cases parens with
  | false => exact phrase_infix_words t
  | true => exact infix_cons (infix_left (phrase_infix_words t) _)

theorem phrase_infix_items (operands first : Bool) (h : t ∈ ts) : phrase t <:+: itemWords operands first ts := by
  induction ts generalizing first with
  | nil => cases h
  | cons u ts ih =>
    rw [itemWords]
    rcases mem_cons.mp h with rfl | h
    · exact infix_right _ (infix_left (phrase_infix_enclosed _ _) _)
    · exact infix_right _ (infix_right _ (ih false h))

theorem phrase_infix_list (operands : Bool) (h : t ∈ ts) : phrase t <:+: listWords operands (.list ts) := by
  rw [listWords]
  exact phrase_infix_items _ _ h

theorem phrase_infix_statements (h : t ∈ ts) : phrase t <:+: statementWords (.list ts) := by
  rw [statementWords]
  induction ts with
  | nil => cases h
  | cons u ts ih =>
    rw [statementItemWords]
    rcases mem_cons.mp h with rfl | h
    · exact infix_left (phrase_infix_words _) _
    · exact infix_right _ (ih h)

end Printer

theorem Tree.eq_null_of_isNull {t : Tree} (h : t.isNull = true) : t = .null := by
  unfold isNull at h
  split at h
  · rfl
  · cases h

/-- The slots of a node. -/
def Tree.slots : Tree → List Tree
  | .node _ _ slots => slots
  | _ => []

open Printer

/-- Among the words are those of whatever stands in slots, on its own or in a list. -/
inductive Comprises (ws : List Word) : List Tree → Prop where
  | nil : Comprises ws []
  | scalar {x : Scalar} {slots : List Tree} : Comprises ws slots → Comprises ws (.scalar x :: slots)
  | one {t : Tree} {slots : List Tree} : (∀ ts, t ≠ .list ts) → phrase t <:+: ws → Comprises ws slots →
      Comprises ws (t :: slots)
  | many {ts slots : List Tree} : (∀ t ∈ ts, phrase t <:+: ws) → Comprises ws slots → Comprises ws (.list ts :: slots)

namespace Comprises

variable {ws us : List Word} {slots ts : List Tree} {t : Tree}

theorem mono (h : Comprises ws slots) (hws : ws <:+: us) : Comprises us slots := by
  induction h with
  | nil => exact .nil
  | scalar _ ih => exact .scalar ih
  | one hlist ht _ ih => exact .one hlist (ht.trans hws) ih
  | many hts _ ih => exact .many (fun t ht => (hts t ht).trans hws) ih

theorem word {w : Word} (h : Comprises ws slots) : Comprises (w :: ws) slots := h.mono (infix_cons infix_rfl)

theorem skip (h : Comprises ws slots) : Comprises (us ++ ws) slots := h.mono (suffix_append us ws).isInfix

theorem tree (hlist : ∀ ts, t ≠ .list ts) (ht : phrase t <:+: us) (h : Comprises ws slots) :
    Comprises (us ++ ws) (t :: slots) :=
  .one hlist (infix_left ht ws) h.skip

theorem list (hts : ∀ t ∈ ts, phrase t <:+: us) (h : Comprises ws slots) : Comprises (us ++ ws) (.list ts :: slots) :=
  .many (fun t ht => infix_left (hts t ht) ws) h.skip

theorem part (h : Comprises ws slots) {c : Tree} (hnode : c.isNode)
    (hc : c ∈ slots ∨ ∃ ts, .list ts ∈ slots ∧ c ∈ ts) : phrase c <:+: ws := by
  induction h with
  | nil => simp at hc
  | scalar _ ih =>
    rcases hc with hc | ⟨ts, hts, hc⟩
    · rcases mem_cons.mp hc with rfl | hc
      · cases hnode
      · exact ih (.inl hc)
    · exact ih (.inr ⟨ts, by simpa using hts, hc⟩)
  | one hlist ht _ ih =>
    rcases hc with hc | ⟨ts, hts, hc⟩
    · rcases mem_cons.mp hc with rfl | hc
      · exact ht
      · exact ih (.inl hc)
    · exact ih (.inr ⟨ts, (mem_cons.mp hts).resolve_left (hlist ts).symm, hc⟩)
  | many hitems _ ih =>
    rcases hc with hc | ⟨ts, hts, hc⟩
    · rcases mem_cons.mp hc with rfl | hc
      · cases hnode
      · exact ih (.inl hc)
    · rcases mem_cons.mp hts with heq | hts
      · exact hitems c (Tree.list.inj heq ▸ hc)
      · exact ih (.inr ⟨ts, hts, hc⟩)

end Comprises

namespace Formed

variable {K : Kind → Prop} {p : Part} {t n : Tree} {indent : Text}

theorem comprises (h : Formed K p t) : Comprises (phrase t) t.slots := by
  -- the words of a part, those that parentheses may enclose, and those of a list
  have whole {t : Tree} : phrase t <:+: words t := phrase_infix_words t
  have operand {t : Tree} {parens : Bool} : phrase t <:+: enclosed parens (words t) := phrase_infix_enclosed _ t
  have items {operands : Bool} {ts : List Tree} (t : Tree) (ht : t ∈ ts) :
      phrase t <:+: listWords operands (.list ts) := phrase_infix_list _ ht
  have statements {ts : List Tree} (t : Tree) (ht : t ∈ ts) : phrase t <:+: statementWords (.list ts) :=
    phrase_infix_statements ht
  induction h with
  | absent => exact .nil
  | present _ ih | wordKey _ ih | identifier _ ih | target _ _ ih | blockStatement _ ih
  | declarationStatement _ ih | initialDeclaration _ ih | initialExpression _ ih | iteratedTarget _ ih => exact ih
  | name _ _ | word _ _ => exact .scalar .nil
  | literalKey _ _ | literal _ _ => exact .scalar (.scalar .nil)
  | this _ | emptyStatement _ | breakStatement _ | continueStatement _ => exact .nil
  | array _ _ _ | object _ _ _ =>
    exact .word (.list items .nil)
  | property _ hk hv _ _ =>
    exact .tree hk.not_list whole (.word (.one hv.not_list operand (.scalar (.scalar (.scalar .nil)))))
  | shorthand _ _ _ =>
    show Comprises (words _) _
    rw [words, nodeWords]
    have hrest {ws : List Word} : Comprises ws [.bool false, .bool true, .text "init"] :=
      .scalar (.scalar (.scalar .nil))
    -- the key is the name itself, whichever of the two is printed
    split
    · exact .one nofun whole (.one nofun whole hrest)
    · exact .tree nofun whole (.word (.one nofun operand hrest))
  | function _ hf _ hb _ _ _ | functionDeclaration _ hf _ hb _ _ _ =>
    exact .word (.tree hf.not_list whole (.word (.list items (.word (.one hb.not_list whole .nil)))))
  | arrowBlock _ _ hb _ _ | arrow _ _ hb _ _ =>
    exact .word (.list items (.word (.word (.one hb.not_list operand (.scalar .nil)))))
  | unary _ _ ha _ =>
    exact .scalar (.skip (.one ha.not_list operand (.scalar .nil)))
  | @update _ _ _ before _ _ ha _ =>
    cases before with
    | true => exact .scalar (.skip (.one ha.not_list operand (.scalar .nil)))
    | false => exact .scalar (.tree ha.not_list operand (.scalar .nil))
  | binary _ _ hl hr _ _ | logical _ _ hl hr _ _ | assignment _ _ hl hr _ _ =>
    exact .scalar (.tree hl.not_list operand (.skip (.one hr.not_list operand .nil)))
  | conditional _ hc ha hb _ _ _ =>
    exact .tree hc.not_list operand
      (.word (.tree ha.not_list operand (.word (.one hb.not_list operand .nil))))
  | call _ hf _ _ _ =>
    exact .tree hf.not_list operand (.word (.list items .nil))
  | new _ hf _ _ _ =>
    exact .word (.tree hf.not_list operand (.word (.list items .nil)))
  | member _ hobject hx _ _ =>
    exact .tree hobject.not_list operand (.word (.one hx.not_list whole (.scalar .nil)))
  | computed _ hobject hx _ _ =>
    exact .tree hobject.not_list operand (.word (.tree hx.not_list whole (.scalar .nil)))
  | sequence _ _ _ _ =>
    exact .many items .nil
  | declarator _ hx he _ _ =>
    show Comprises (words _) _
    rw [words, nodeWords]
    split
    · next hnull =>
      obtain rfl := Tree.eq_null_of_isNull hnull
      exact .one hx.not_list whole (.scalar .nil)
    · exact .tree hx.not_list whole (.word (.one he.not_list operand .nil))
  | declaration _ _ _ _ _ | iteratedDeclaration _ _ _ _ _ =>
    exact .skip (.many items (.scalar .nil))
  | block _ _ _ =>
    exact .word (.list statements .nil)
  | program _ _ _ =>
    exact .many statements .nil
  | expressionStatement _ he _ =>
    exact .tree he.not_list operand .nil
  | returnStatement _ he _ | throwStatement _ he _ =>
    exact .word (.tree he.not_list whole .nil)
  | ifStatement _ hc ha hb _ _ _ =>
    refine .word (.word (.tree hc.not_list whole (.word ?_)))
    split
    · next hnull =>
      obtain rfl := Tree.eq_null_of_isNull hnull
      exact .one ha.not_list whole (.scalar .nil)
    · split
      · exact .word (.tree ha.not_list whole (.word (.word (.one hb.not_list whole .nil))))
      · exact .tree ha.not_list whole (.word (.one hb.not_list whole .nil))
  | @forStatement _ init _ _ _ _ hi hc hu hb _ _ _ _ =>
    have hhead : phrase init <:+:
        if init.is .variableDeclaration then headWords init else enclosed (isInOperation init) (words init) := by
      split
      · next hdeclaration => exact (if_pos hdeclaration : phrase init = headWords init) ▸ infix_rfl
      · exact operand
    exact .word (.word (.tree hi.not_list hhead (.word (.tree hc.not_list whole
      (.word (.tree hu.not_list whole (.word (.one hb.not_list whole .nil))))))))
  | forInStatement _ hl hr hb _ _ _ =>
    exact .word (.word (.tree hl.not_list infix_rfl
      (.word (.tree hr.not_list whole (.word (.one hb.not_list whole .nil))))))
  | whileStatement _ hc hb _ _ | handler _ hc hb _ _ =>
    exact .word (.word (.tree hc.not_list whole (.word (.one hb.not_list whole .nil))))
  | doWhileStatement _ hb hc _ _ =>
    exact .word (.tree hb.not_list whole (.word (.word (.tree hc.not_list whole .nil))))
  | tryStatement _ hb hh hf _ _ _ _ =>
    refine .word (.tree hb.not_list whole (.tree hh.not_list whole ?_))
    split
    · next hnull =>
      obtain rfl := Tree.eq_null_of_isNull hnull
      exact .scalar .nil
    · exact .word (.one hf.not_list whole .nil)

/-- What occurs in a part has its words together among those of the part. -/
theorem phrase_of_occurrence (h : Formed K p t) {o : Occurrence} (ho : o ∈ t.occurrences)
    (hnode : o.tree.isNode) : phrase o.tree <:+: phrase t := by
  cases t with
  | node i s slots => exact h.comprises.part hnode (Tree.slot_of_mem_occurrencesIn ho)
  | _ => cases ho

/-- **The words of each node of a tree stand together among those of the tree.** -/
theorem phrase_within (h : Formed K p t) (hn : n ∈ t.nodes) :
    (∃ q, Formed K q n) ∧ phrase n <:+: phrase t := by
  obtain ⟨⟨n, path⟩, hplace, rfl⟩ := mem_map.mp hn
  obtain ⟨q, hq, -⟩ := h.place hplace
  refine ⟨⟨q, hq⟩, ?_⟩
  clear hn hq q
  induction path generalizing n with
  | nil =>
    obtain ⟨rfl, -⟩ := Tree.mem_places_nil.mp hplace
    exact infix_rfl
  | cons s π ih =>
    obtain ⟨howner, hocc, hnode⟩ := Tree.mem_places_cons.mp hplace
    obtain ⟨r, hr, -⟩ := h.place howner
    exact (hr.phrase_of_occurrence hocc hnode).trans (ih _ howner)

/-- Programs, statements and expressions are printed, and the lexer finds their words in the code. -/
theorem print_part (h : Formed K p t) (hp : p = .program ∨ p = .statement ∨ p = .expression)
    (hindent : ∀ c ∈ indent, c.isBlank = true) (map : Option SourceMap) : ∃ printed : Printed,
      t.print map indent = .ok printed ∧ (lex printed.code).stray = none ∧
        (lex printed.code).tokens.map Token.word = words t := by
  have hwritten : ∃ a, Writes (print indent 0 t) a (words t) lax := by
    have hprints := h.prints hindent
    rcases hp with rfl | rfl | rfl
    · exact (hprints 0).imp fun _ ha => ha.mono fun _ _ => rfl
    · exact (hprints 0).imp fun _ ha => ha.mono fun _ _ => rfl
    · exact WritesExpression.lax hprints 0
  obtain ⟨a, ha⟩ := hwritten
  exact print_of_writes ha map

/-- The printed code has the words of each node of the tree in one piece. -/
theorem print_within (h : Formed K p t) (hp : p = .program ∨ p = .statement ∨ p = .expression)
    (hn : n ∈ t.nodes) (hindent : ∀ c ∈ indent, c.isBlank = true) (map : Option SourceMap) :
    ∃ (printed : Printed) (before after : List Word),
      t.print map indent = .ok printed ∧ (lex printed.code).stray = none ∧
        (lex printed.code).tokens.map Token.word = before ++ phrase n ++ after := by
  obtain ⟨printed, hprint, hstray, hwords⟩ := h.print_part hp hindent map
  obtain ⟨before, after, hphrase⟩ := (h.phrase_within hn).2.trans (phrase_infix_words t)
  exact ⟨printed, before, after, hprint, hstray, by rw [hwords, hphrase]⟩

end Formed

end ArrowFree
