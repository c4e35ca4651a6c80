import ArrowFree.Proofs.Brackets
import ArrowFree.Proofs.WordsWithin

/-!
# The operator `in` in the head of a loop

In the head of a `for` an operator `in` has to stand in brackets, or the loop is read as one over keys. The
printer puts parentheses around an initializer that is an `in` operation. Deeper down it does not look: the
head has a bare `in` exactly if operands that need no parentheses lead to one (`head_of_printed_for`), so
also where the operation is assigned or declared (`GivesIn.printed_bare`).
-/

namespace ArrowFree.Printer

open Token List

mutual

/-- The printed part has an operator `in` that no bracket encloses. -/
def exposesIn : Tree → Bool
  | .node _ (.known k) slots => nodeExposesIn k slots
  | _ => false

def nodeExposesIn : Kind → List Tree → Bool
  | .variableDeclaration, [declarations, _] => listExposesIn false declarations
  | .variableDeclarator, [_, init] => ! holds (looserThanAssignment init) && exposesIn init
  | .arrowFunctionExpression, [_, body, _] =>
    ! holds (arrowParens body) && exposesIn body
  | .unaryExpression, [operator, argument, _] =>
    ! holds (needsParens .unaryExpression operator "argument" argument) && exposesIn argument
  | .updateExpression, [operator, argument, _] =>
    ! holds (needsParens .updateExpression operator "argument" argument) && exposesIn argument
  | .binaryExpression, [operator, left, right] =>
    operator = .text "in" ||
      (! holds (needsParens .binaryExpression operator "left" left) && exposesIn left ||
        ! holds (needsParens .binaryExpression operator "right" right) && exposesIn right)
  | .logicalExpression, [operator, left, right] =>
    ! holds (needsParens .logicalExpression operator "left" left) && exposesIn left ||
      ! holds (needsParens .logicalExpression operator "right" right) && exposesIn right
  | .assignmentExpression, [operator, left, right] =>
    ! holds (needsParens .assignmentExpression operator "left" left) && exposesIn left ||
      ! holds (needsParens .assignmentExpression operator "right" right) && exposesIn right
  | .conditionalExpression, [test, consequent, alternate] =>
    ! holds (needsParens .conditionalExpression .null "test" test) && exposesIn test ||
      (! holds (needsParens .conditionalExpression .null "consequent" consequent) && exposesIn consequent ||
        ! holds (needsParens .conditionalExpression .null "alternate" alternate) && exposesIn alternate)
  | .callExpression, [callee, _] =>
    ! holds (needsParens .callExpression .null "callee" callee) && exposesIn callee
  | .newExpression, [callee, _] =>
    ! holds (needsParens .newExpression .null "callee" callee) && exposesIn callee
  | .memberExpression, [object, _, _] =>
    ! holds (needsParens .memberExpression .null "object" object) && exposesIn object
  | .sequenceExpression, [expressions] => listExposesIn true expressions
  | _, _ => false

def listExposesIn (operands : Bool) : Tree → Bool
  | .list items => itemsExposeIn operands items
  | _ => false

def itemsExposeIn (operands : Bool) : List Tree → Bool
  | [] => false
  | t :: ts => ! (operands && holds (looserThanAssignment t)) && exposesIn t || itemsExposeIn operands ts

end

/-- The words of what a `for` begins with. -/
def initialWords (init : Tree) : List Word :=
  if init.is .variableDeclaration then headWords init else enclosed (isInOperation init) (words init)

/-- The head of a `for` has such an `in`: it is in parentheses where it is the whole of the expression. -/
def headExposesIn (init : Tree) : Bool := ! isInOperation init && exposesIn init

/-- The terminals that end the head of a loop, or tell its two forms apart. -/
def headMarks : List Terminal := [.semicolon, .in]

/-- None of the terminals is one of these, or a bracket or a point. -/
def passing (ks : List Terminal) : Bool := plainTerminals ks && headMarks.all (· ∉ ks)

section

variable {k : Terminal} {x : Text}

@[simp] theorem bare_nil : bare k [] = false := rfl

theorem bare_passing (hk : k ∈ headMarks) (hx : passing [(lexeme x).1]) (us : List Word) :
    bare k (lexeme x :: us) = bare k us := by
  obtain ⟨hplain, hother⟩ := (Bool.and_eq_true _ _).mp hx
  have hne : k ≠ (lexeme x).1 := by simpa using all_eq_true.mp hother k hk
  rw [bare_cons hplain, decide_eq_false hne.symm, Bool.false_or]

theorem ne_dot_of_headMarks (hk : k ∈ headMarks) : k ≠ .dot := by
  rintro rfl
  simp [headMarks] at hk

theorem bare_text (hk : k ∈ headMarks) {ks : List Terminal} (h : SpellsOne ks x) (hks : passing ks)
    (us : List Word) : bare k (slotWord (.text x) ++ us) = bare k us := by
  obtain ⟨hplain, hother⟩ := (Bool.and_eq_true _ _).mp hks
  have hnot : k ∉ ks := by simpa using all_eq_true.mp hother k hk
  rw [bare_append (.word h hplain), bare_slotWord h hplain hnot, Bool.false_or]

theorem bare_operator (hk : k ∈ headMarks) {op : Text} (h : SpellsOne binaryOperators op) :
    bare k (slotWord (.text op)) = (decide (k = .in) && decide (Tree.text op = .text "in")) := by
  obtain ⟨k', hk', hx⟩ := h
  have hplain : plainTerminals [k'] := by
    have := all_eq_true.mp (by decide : plainTerminals binaryOperators) k' hk'
    simpa [plainTerminals] using this
  have hin : k' = .in ↔ op = "in" := by
    constructor
    · rintro rfl
      have hmem := hx.mem_spellings (by decide) (by decide) (by decide)
      rwa [show spellings .in = [("in" : Text)] by decide, mem_singleton] at hmem
    · rintro rfl
      have hin : lexeme "in" = (.in, ("in" : Text)) := by decide
      exact congrArg Prod.fst (hx.lexeme_eq.symm.trans hin)
  have hsemicolon : k' ≠ .semicolon := by
    rintro rfl
    simp [binaryOperators] at hk'
  rw [Tree.text, slotWord, hx.lexeme_eq, bare_cons (w := (k', op)) hplain]
  simp only [headMarks, mem_cons, not_mem_nil, or_false] at hk
  rcases hk with rfl | rfl
  · simp [hsemicolon, bare, surface]
  · simp [hin, bare, surface, Tree.text]

theorem bare_items (hk : k ∈ headMarks) {operands first : Bool} {ts : List Tree}
    (hbalanced : ∀ t ∈ ts, Balanced (words t))
    (h : ∀ t ∈ ts, bare k (words t) = (decide (k = .in) && exposesIn t)) :
    bare k (itemWords operands first ts) = (decide (k = .in) && itemsExposeIn operands ts) := by
  induction ts generalizing first with
  | nil => simp [itemWords, itemsExposeIn, bare, surface]
  | cons t ts ih =>
    have hseparator (us : List Word) : bare k (separator first ++ us) = bare k us := by
      cases first with
      | true => rfl
      | false => exact bare_passing hk (by decide) us
    have ht := hbalanced t mem_cons_self
    rw [itemWords, itemsExposeIn, hseparator, bare_append (ht.enclosed _), bare_enclosed ht,
      h t mem_cons_self, ih (fun t ht => hbalanced t (.tail _ ht)) fun t ht => h t (.tail _ ht),
      Bool.and_or_distrib_left, Bool.and_left_comm]

end

end ArrowFree.Printer

namespace ArrowFree

open Printer Token
open List hiding lex

variable {indent : Text}

/-- Parts that stand within a statement. -/
def Part.isInline : Part → Bool
  | .name | .expression | .target | .declarator => true
  | .orNull p => p.isInline
  | _ => false

namespace Formed

variable {K : Kind → Prop} {p : Part} {t init : Tree} {k : Terminal}

theorem exposesIn_name (h : Formed K (.orNull .name) t) : exposesIn t = false := by
  cases h with
  | absent => rfl
  | present h =>
    cases h
    rfl

theorem bare_block (h : Formed K .block t) : bare k (words t) = false := by
  cases h with
  | block _ h =>
    exact bare_group (by decide) (by decide) (.statements fun t ht => (h t ht).balanced) []

/-- Outside of brackets an expression has no semicolon, and an `in` exactly if it exposes one. -/
theorem bare_words (hk : k ∈ headMarks) (h : Formed K p t) (hp : p.isInline) :
    bare k (words t) = (decide (k = .in) && exposesIn t) := by
  -- what stands in brackets, at the end of the words
  have group {o c : Text} {ws : List Word} (ho : isOpening (lexeme o).1)
      (hc : isClosing (lexeme c).1) (h : Balanced ws) : bare k (lexeme o :: (ws ++ [lexeme c])) = false :=
    bare_group ho hc h []
  have lists {operands : Bool} {q : Part} {ts : List Tree} (h : ∀ t ∈ ts, Formed K q t) :
      Balanced (listWords operands (.list ts)) := .list fun t ht => (h t ht).balanced
  have word {ks : List Terminal} {x : Text} (h : SpellsOne ks x) (hks : passing ks) :
      bare k (slotWord (.text x)) = false := by
    have hword := bare_text hk h hks []
    rwa [append_nil, bare_nil] at hword
  have operand {q : Part} {e : Tree} {parens : Bool} (he : Formed K q e)
      (ih : bare k (words e) = (decide (k = .in) && exposesIn e)) :
      bare k (enclosed parens (words e)) = (decide (k = .in) && (! parens && exposesIn e)) := by
    rw [bare_enclosed he.balanced, ih, Bool.and_left_comm]
  have first {q : Part} {e : Tree} {parens : Bool} (he : Formed K q e)
      (ih : bare k (words e) = (decide (k = .in) && exposesIn e)) (us : List Word) :
      bare k (enclosed parens (words e) ++ us) =
        (decide (k = .in) && (! parens && exposesIn e) || bare k us) := by
    rw [bare_append (he.balanced.enclosed _), operand he ih]
  induction h with
  | absent => simp [show words .null = [] from rfl, show exposesIn .null = false from rfl]
  | present _ ih | identifier _ ih | target _ _ ih => exact ih hp
  | name _ hx =>
    have hone : SpellsOne [.ident] _ := ⟨_, by decide, hx⟩
    simp [words, nodeWords, exposesIn, nodeExposesIn, word hone (by decide)]
  | literal _ hd =>
    obtain ⟨k, hmem, hd, -⟩ := hd
    have hone : SpellsOne literalTerminals _ := ⟨k, hmem, hd⟩
    simp [words, nodeWords, exposesIn, nodeExposesIn, word hone (by decide)]
  | this _ =>
    rw [words, nodeWords, bare_passing hk (by decide)]
    simp [exposesIn, nodeExposesIn]
  | array _ h _ | object _ h _ =>
    rw [words, nodeWords, group (by decide) (by decide) (lists h)]
    simp [exposesIn, nodeExposesIn]
  | function _ hf hps hb ihf _ _ =>
    rw [words, nodeWords, bare_passing hk (by decide), bare_append hf.balanced, ihf rfl,
      bare_group (by decide) (by decide) (lists hps), hb.bare_block, hf.exposesIn_name]
    simp [exposesIn, nodeExposesIn]
  | @arrowBlock _ b _ _ _ hps hb _ _ =>
    have hbody : exposesIn b = false := by
      cases hb
      rfl
    rw [words, nodeWords, bare_group (by decide) (by decide) (lists hps), bare_passing hk (by decide),
      bare_enclosed hb.balanced, hb.bare_block, exposesIn, nodeExposesIn]
    simp [hbody]
  | arrow _ hps hb _ ih =>
    rw [words, nodeWords, bare_group (by decide) (by decide) (lists hps), bare_passing hk (by decide),
      operand hb (ih rfl), exposesIn, nodeExposesIn]
  | unary _ hop ha ih =>
    rw [words, nodeWords, bare_text hk hop (by decide), operand ha (ih rfl), exposesIn, nodeExposesIn]
  | @update _ _ _ before _ hop ha ih =>
    have hone : SpellsOne [.updateOp] _ := ⟨_, by decide, hop⟩
    rw [words, nodeWords, exposesIn, nodeExposesIn]
    cases before with
    | false =>
      show bare k (_ ++ _) = _
      rw [first ha (ih rfl), word hone (by decide), Bool.or_false]
    | true =>
      show bare k (_ ++ _) = _
      rw [bare_text hk hone (by decide), operand ha (ih rfl)]
  | binary _ hop hl hr ihl ihr =>
    rw [words, nodeWords, first hl (ihl rfl), bare_append (.word hop (by decide)), bare_operator hk hop,
      operand hr (ihr rfl), exposesIn, nodeExposesIn, Bool.or_left_comm, ← Bool.and_or_distrib_left,
      ← Bool.and_or_distrib_left]
  | logical _ hop hl hr ihl ihr | assignment _ hop hl hr ihl ihr =>
    rw [words, nodeWords, first hl (ihl rfl), bare_text hk hop (by decide), operand hr (ihr rfl), exposesIn,
      nodeExposesIn, ← Bool.and_or_distrib_left]
  | conditional _ hc ha hb ihc iha ihb =>
    rw [words, nodeWords, first hc (ihc rfl), bare_passing hk (by decide), first ha (iha rfl),
      bare_passing hk (by decide), operand hb (ihb rfl), exposesIn, nodeExposesIn, ← Bool.and_or_distrib_left,
      ← Bool.and_or_distrib_left]
  | call _ hf hts ihf _ =>
    rw [words, nodeWords, first hf (ihf rfl), group (by decide) (by decide) (lists hts), exposesIn, nodeExposesIn,
      Bool.or_false]
  | new _ hf hts ihf _ =>
    rw [words, nodeWords, bare_passing hk (by decide), first hf (ihf rfl), group (by decide) (by decide) (lists hts),
      exposesIn, nodeExposesIn, Bool.or_false]
  | member _ ho hx iho _ =>
    cases hx
    rw [words, nodeWords, first ho (iho rfl), exposesIn, nodeExposesIn]
    show (_ || bare k [lexeme ".", lexeme _]) = _
    rw [bare_member (ne_dot_of_headMarks hk), Bool.or_false]
  | computed _ ho hx iho _ =>
    rw [words, nodeWords, first ho (iho rfl), exposesIn, nodeExposesIn]
    show (_ || bare k (lexeme "[" :: (_ ++ [lexeme "]"]))) = _
    rw [group (by decide) (by decide) hx.balanced, Bool.or_false]
  | sequence _ _ h ih =>
    exact bare_items hk (fun t ht => (h t ht).balanced) fun t ht => ih t ht rfl
  | @declarator _ x e _ hx he ihx ihe =>
    have hname := (Formed.present hx).exposesIn_name
    rw [words, nodeWords, exposesIn, nodeExposesIn]
    split
    · next hnull =>
      obtain rfl := Tree.eq_null_of_isNull hnull
      simp [ihx rfl, hname, show exposesIn .null = false from rfl]
    · rw [bare_append hx.balanced, ihx rfl, hname, bare_passing hk (by decide), operand he (ihe rfl), Bool.and_false,
        Bool.false_or]
  | _ => cases hp

theorem bare_head (hk : k ∈ headMarks) (h : Formed K (.orNull .initializer) init) :
    bare k (initialWords init) = (decide (k = .in) && headExposesIn init) := by
  cases h with
  | absent =>
    show bare k [] = (_ && false)
    rw [bare_nil, Bool.and_false]
  | present h =>
    cases h with
    | initialDeclaration h =>
      cases h with
      | declaration _ hkind _ hds =>
        show bare k (headWords _) = _
        rw [headWords, bare_text hk hkind (by decide), listWords,
          bare_items hk (fun d hd => (hds d hd).balanced) fun d hd => (hds d hd).bare_words hk rfl]
        rfl
    | initialExpression h =>
      have hwords : initialWords init = enclosed (isInOperation init) (words init) :=
        if_neg (by simp [h.not_statement.2])
      rw [hwords, bare_enclosed h.balanced, h.bare_words hk rfl, headExposesIn, Bool.and_left_comm]

theorem balanced_head (h : Formed K (.orNull .initializer) init) : Balanced (initialWords init) := by
  unfold initialWords
  split
  · exact h.balanced.head
  · exact h.balanced.enclosed _

theorem initializer_of_for (h : Formed K p t) {i : Info} {c u b : Tree}
    (ht : t = .node i (.known .forStatement) [init, c, u, b]) : Formed K (.orNull .initializer) init := by
  induction h with
  | present _ ih | wordKey _ ih | identifier _ ih | target _ _ ih | blockStatement _ ih
  | declarationStatement _ ih | initialDeclaration _ ih | initialExpression _ ih | iteratedTarget _ ih => exact ih ht
  | forStatement _ hinit _ _ _ =>
    cases ht
    exact hinit
  | _ => cases ht

end Formed

variable {K : Kind → Prop} {p : Part} {t : Tree} {i : Info} {init c u b : Tree}

/-- **A printed `for` has an operator `in` outside of brackets in its head exactly if the head exposes one.** -/
theorem head_of_printed_for (h : Formed K p t) (hp : p = .program ∨ p = .statement ∨ p = .expression)
    (hn : .node i (.known .forStatement) [init, c, u, b] ∈ t.nodes) (hindent : ∀ c ∈ indent, c.isBlank)
    (map : Option SourceMap) :
    ∃ (printed : Printed) (before rest head after : List Word), t.print map indent = .ok printed ∧
      (lex printed.code).stray = none ∧
      (lex printed.code).tokens.map Token.word = before ++ lexeme "for" :: lexeme "(" :: rest ∧
      cutAt (· = .semicolon) {} rest = some (head, after) ∧ bare .in head = headExposesIn init := by
  obtain ⟨printed, before, after, hprint, hstray, hwords⟩ := h.print_within hp hn hindent map
  obtain ⟨⟨q, hq⟩, -⟩ := h.phrase_within hn
  have hinit := hq.initializer_of_for rfl
  obtain ⟨rest, hrest⟩ : ∃ rest, phrase (.node i (.known .forStatement) [init, c, u, b]) =
      lexeme "for" :: lexeme "(" :: (initialWords init ++ lexeme ";" :: rest) := by
    refine ⟨words c ++ lexeme ";" :: (words u ++ lexeme ")" :: words b), ?_⟩
    show words _ = _
    rfl
  have hsemicolon : bare .semicolon (initialWords init) = false := hinit.bare_head (by decide)
  have hin : bare .in (initialWords init) = headExposesIn init := by
    simpa using hinit.bare_head (k := .in) (by decide)
  refine ⟨printed, before, initialWords init ++ lexeme ";" :: (rest ++ after), initialWords init, rest ++ after,
    hprint, hstray, ?_, cutAt_of_bare rfl hinit.balanced_head hsemicolon (by decide) _, hin⟩
  rw [hwords, hrest]
  simp

/-- The value that is assigned or declared is an `in` operation. -/
inductive GivesIn : Tree → Prop where
  | assigned (i j : Info) (op l x y : Tree) :
      GivesIn (.node i (.known .assignmentExpression)
        [op, l, .node j (.known .binaryExpression) [.text "in", x, y]])
  | declared (i d j : Info) (kind name x y : Tree) (ds es : List Tree) :
      GivesIn (.node i (.known .variableDeclaration)
        [.list (ds ++ .node d (.known .variableDeclarator)
          [name, .node j (.known .binaryExpression) [.text "in", x, y]] :: es), kind])

theorem itemsExposeIn_append (operands : Bool) (ts us : List Tree) :
    itemsExposeIn operands (ts ++ us) = (itemsExposeIn operands ts || itemsExposeIn operands us) := by
  induction ts with
  | nil => rfl
  | cons t ts ih => rw [cons_append, itemsExposeIn, itemsExposeIn, ih, Bool.or_assoc]

theorem GivesIn.exposes (h : GivesIn init) : headExposesIn init := by
  have hin (j : Info) (x y : Tree) : exposesIn (.node j (.known .binaryExpression) [.text "in", x, y]) := by
    simp [exposesIn, nodeExposesIn]
  cases h with
  | assigned i j op l x y =>
    have hopen : holds (needsParens .assignmentExpression op "right"
        (.node j (.known .binaryExpression) [.text "in", x, y])) = false := rfl
    show exposesIn _
    rw [exposesIn, nodeExposesIn, hopen, hin, Bool.not_false, Bool.true_and, Bool.or_true]
  | declared i d j kind name x y ds es =>
    have hopen : holds (looserThanAssignment (.node j (.known .binaryExpression) [.text "in", x, y])) = false := rfl
    show exposesIn _
    rw [exposesIn, nodeExposesIn, listExposesIn, itemsExposeIn_append, itemsExposeIn, exposesIn, nodeExposesIn, hopen,
      hin]
    simp

/-- The guard of the printer sees only an initializer that is an `in` operation as a whole: **one that is
assigned or declared in the head of a `for` is printed bare**. -/
theorem GivesIn.printed_bare (hinit : GivesIn init) (h : Formed K p t)
    (hp : p = .program ∨ p = .statement ∨ p = .expression)
    (hn : .node i (.known .forStatement) [init, c, u, b] ∈ t.nodes) (hindent : ∀ c ∈ indent, c.isBlank)
    (map : Option SourceMap) :
    ∃ (printed : Printed) (before rest head after : List Word), t.print map indent = .ok printed ∧
      (lex printed.code).tokens.map Token.word = before ++ lexeme "for" :: lexeme "(" :: rest ∧
      cutAt (· = .semicolon) {} rest = some (head, after) ∧ bare .in head := by
  obtain ⟨printed, before, rest, head, after, hprint, -, hwords, hcut, hin⟩ :=
    head_of_printed_for h hp hn hindent map
  exact ⟨printed, before, rest, head, after, hprint, hwords, hcut, hin.trans hinit.exposes⟩

/-- A loop that assigns in its head whether `b` is a key of `c`. -/
def assignedIn : Tree :=
  .node {} (.known .forStatement)
    [.node {} (.known .assignmentExpression)
      [.text "=", .node {} (.known .identifier) [.text "a"],
       .node {} (.known .binaryExpression)
        [.text "in", .node {} (.known .identifier) [.text "b"], .node {} (.known .identifier) [.text "c"]]],
     .null, .null, .node {} (.known .emptyStatement) []]

theorem formed_assignedIn : Formed (fun _ => True) .statement assignedIn := by
  have name {x : Text} (hx : Spells .ident x) :
      Formed (fun _ => True) .expression (.node {} (.known .identifier) [.text x]) := .identifier (.name trivial hx)
  have htarget : Formed (fun _ => True) .target (.node {} (.known .identifier) [.text "a"]) :=
    .target (name (by decide)) (.inl rfl)
  have hvalue : Formed (fun _ => True) .expression (.node {} (.known .binaryExpression)
      [.text "in", .node {} (.known .identifier) [.text "b"], .node {} (.known .identifier) [.text "c"]]) :=
    .binary trivial ⟨.in, by decide, by decide⟩ (name (by decide)) (name (by decide))
  have hequals : SpellsOne assignmentOperators "=" := ⟨.assign, by decide, by decide⟩
  exact .forStatement trivial (.present (.initialExpression (.assignment trivial hequals htarget hvalue))) .absent
    .absent (.emptyStatement trivial)

theorem assignedIn_printed_bare : (assignedIn.print none).map Printed.code = .ok "for (a = b in c;;) ;\n" ∧
    ∃ (printed : Printed) (before rest head after : List Word), assignedIn.print none = .ok printed ∧
      (lex printed.code).tokens.map Token.word = before ++ lexeme "for" :: lexeme "(" :: rest ∧
      cutAt (· = .semicolon) {} rest = some (head, after) ∧ bare .in head :=
  ⟨by rfl, (GivesIn.assigned _ _ _ _ _ _).printed_bare formed_assignedIn (.inr (.inl rfl)) (Tree.self_mem_nodes rfl)
    (all_eq_true.mp (by decide)) none⟩

end ArrowFree
