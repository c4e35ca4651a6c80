import ArrowFree.Printer
import ArrowFree.Proofs.Formed

/-!
# The words of printed code

`words t` are the tokens that the printed text of a tree consists of, with their parentheses, commas
and semicolons. For a well-formed tree each decision that the printer makes is defined: whether
parentheses are needed (`Formed.needsParens_ok`), and whether an expression begins like a statement
(`Formed.opensLikeStatement_ok`).
-/

namespace ArrowFree.Printer

open Token

variable {op raw : Text}

/-- The answer of a check that goes through. -/
def holds : Except Fault Bool → Bool
  | .ok b => b
  | .error _ => false

@[simp] theorem holds_ok (b : Bool) : holds (.ok b) = b := rfl

/-- Words in parentheses, where these are needed. -/
def enclosed (parens : Bool) (ws : List Word) : List Word :=
  if parens then lexeme "(" :: (ws ++ [lexeme ")"]) else ws

/-- A text that a slot holds, as a word. -/
def slotWord : Tree → List Word
  | .scalar (.text x) => [lexeme x]
  | _ => []

def separator (first : Bool) : List Word := if first then [] else [lexeme ","]

/-- Whether the body of an arrow is put in parentheses. -/
def arrowParens (body : Tree) : Except Fault Bool := do
  if body.is .blockStatement then return false
  if ← looserThanAssignment body then return true
  opensLikeStatement false body

mutual

/-- The words of a printed tree. -/
def words : Tree → List Word
  | .node _ (.known k) slots => nodeWords k slots
  | _ => []

def nodeWords : Kind → List Tree → List Word
  | .program, [body] => statementWords body
  | .blockStatement, [body] => lexeme "\x7b" :: (statementWords body ++ [lexeme "\x7d"])
  | .emptyStatement, [] => [lexeme ";"]
  | .expressionStatement, [e] => enclosed (holds (opensLikeStatement true e)) (words e) ++ [lexeme ";"]
  | .variableDeclaration, [declarations, kind] =>
    slotWord kind ++ listWords false declarations ++ [lexeme ";"]
  | .variableDeclarator, [name, init] =>
    if init.isNull then words name
    else words name ++ lexeme "=" :: enclosed (holds (looserThanAssignment init)) (words init)
  | .functionDeclaration, [name, params, body]
  | .functionExpression, [name, params, body] =>
    lexeme "function" :: (words name ++ lexeme "(" ::
      (listWords true params ++ lexeme ")" :: words body))
  | .returnStatement, [argument] => lexeme "return" :: (words argument ++ [lexeme ";"])
  | .throwStatement, [argument] => lexeme "throw" :: (words argument ++ [lexeme ";"])
  | .breakStatement, [] => [lexeme "break", lexeme ";"]
  | .continueStatement, [] => [lexeme "continue", lexeme ";"]
  | .ifStatement, [test, consequent, alternate] =>
    lexeme "if" :: lexeme "(" :: (words test ++ lexeme ")" ::
      if alternate.isNull then words consequent
      else if takesElse consequent then
        lexeme "\x7b" :: (words consequent ++ lexeme "\x7d" :: lexeme "else" :: words alternate)
      else words consequent ++ lexeme "else" :: words alternate)
  | .forStatement, [init, test, update, body] =>
    lexeme "for" :: lexeme "(" ::
      ((if init.is .variableDeclaration then headWords init
        else enclosed (isInOperation init) (words init)) ++
      lexeme ";" :: (words test ++ lexeme ";" :: (words update ++ lexeme ")" :: words body)))
  | .forInStatement, [left, right, body] =>
    lexeme "for" :: lexeme "(" ::
      ((if left.is .variableDeclaration then headWords left else words left) ++
      lexeme "in" :: (words right ++ lexeme ")" :: words body))
  | .whileStatement, [test, body] =>
    lexeme "while" :: lexeme "(" :: (words test ++ lexeme ")" :: words body)
  | .doWhileStatement, [body, test] =>
    lexeme "do" :: (words body ++ lexeme "while" :: lexeme "(" ::
      (words test ++ [lexeme ")", lexeme ";"]))
  | .tryStatement, [block, handler, finalizer] =>
    lexeme "try" :: (words block ++ (words handler ++
      if finalizer.isNull then [] else lexeme "finally" :: words finalizer))
  | .catchClause, [param, body] =>
    lexeme "catch" :: lexeme "(" :: (words param ++ lexeme ")" :: words body)
  | .arrowFunctionExpression, [params, body, _] =>
    lexeme "(" :: (listWords true params ++ lexeme ")" :: lexeme "=>" ::
      enclosed (holds (arrowParens body)) (words body))
  | .identifier, [name] => slotWord name
  | .literal, [_, raw] => slotWord raw
  | .thisExpression, [] => [lexeme "this"]
  | .arrayExpression, [elements] => lexeme "[" :: (listWords true elements ++ [lexeme "]"])
  | .objectExpression, [properties] =>
    lexeme "\x7b" :: (listWords false properties ++ [lexeme "\x7d"])
  | .property, [key, value, _, short, _] =>
    if printsShort key value short then words value
    else words key ++ lexeme ":" :: enclosed (holds (looserThanAssignment value)) (words value)
  | .unaryExpression, [operator, argument, _] =>
    slotWord operator ++
      enclosed (holds (needsParens .unaryExpression operator "argument" argument)) (words argument)
  | .updateExpression, [operator, argument, before] =>
    let inner :=
      enclosed (holds (needsParens .updateExpression operator "argument" argument)) (words argument)
    if before.truthy then slotWord operator ++ inner else inner ++ slotWord operator
  | .binaryExpression, [operator, left, right] =>
    enclosed (holds (needsParens .binaryExpression operator "left" left)) (words left) ++
      (slotWord operator ++
        enclosed (holds (needsParens .binaryExpression operator "right" right)) (words right))
  | .logicalExpression, [operator, left, right] =>
    enclosed (holds (needsParens .logicalExpression operator "left" left)) (words left) ++
      (slotWord operator ++
        enclosed (holds (needsParens .logicalExpression operator "right" right)) (words right))
  | .assignmentExpression, [operator, left, right] =>
    enclosed (holds (needsParens .assignmentExpression operator "left" left)) (words left) ++
      (slotWord operator ++
        enclosed (holds (needsParens .assignmentExpression operator "right" right)) (words right))
  | .conditionalExpression, [test, consequent, alternate] =>
    enclosed (holds (needsParens .conditionalExpression .null "test" test)) (words test) ++
      lexeme "?" ::
      (enclosed (holds (needsParens .conditionalExpression .null "consequent" consequent))
          (words consequent) ++
        lexeme ":" ::
        enclosed (holds (needsParens .conditionalExpression .null "alternate" alternate))
          (words alternate))
  | .callExpression, [callee, arguments] =>
    enclosed (holds (needsParens .callExpression .null "callee" callee)) (words callee) ++
      lexeme "(" :: (listWords true arguments ++ [lexeme ")"])
  | .newExpression, [callee, arguments] =>
    lexeme "new" ::
      (enclosed (holds (needsParens .newExpression .null "callee" callee)) (words callee) ++
        lexeme "(" :: (listWords true arguments ++ [lexeme ")"]))
  | .memberExpression, [object, property, computed] =>
    enclosed (holds (needsParens .memberExpression .null "object" object)) (words object) ++
      if computed.truthy then lexeme "[" :: (words property ++ [lexeme "]"])
      else lexeme "." :: words property
  | .sequenceExpression, [expressions] => listWords true expressions
  | _, _ => []

/-- Statements, one after the other. -/
def statementWords : Tree → List Word
  | .list items => statementItemWords items
  | _ => []

def statementItemWords : List Tree → List Word
  | [] => []
  | t :: ts => words t ++ statementItemWords ts

/-- Items with commas between them; `operands` are put in parentheses where they are looser than an
assignment. -/
def listWords (operands : Bool) : Tree → List Word
  | .list items => itemWords operands true items
  | _ => []

def itemWords (operands first : Bool) : List Tree → List Word
  | [] => []
  | t :: ts =>
    separator first ++ (enclosed (operands && holds (looserThanAssignment t)) (words t) ++
      itemWords operands false ts)

/-- A declaration in the head of a loop. -/
def headWords : Tree → List Word
  | .node _ (.known .variableDeclaration) [declarations, kind] =>
    slotWord kind ++ listWords false declarations
  | _ => []

end

-- its equations are made here, once for all modules that rewrite with them
attribute [local simp] nodeWords

/-! ## Decisions of the printer -/

/-- The level of an expression that has one. -/
def level (t : Tree) : Nat :=
  match precedence t with
  | .ok n => n
  | .error _ => 0

/-- The texts that spell one of some terminals, where these have fixed spellings. -/
theorem mem_of_spellsOne {ks : List Terminal} {x : Text} (h : SpellsOne ks x)
    (hks : (ks.all fun k => k ≠ .number && k ≠ .string && k ≠ .ident) = true) :
    x ∈ ks.flatMap spellings := by
  obtain ⟨k, hk, hx⟩ := h
  have := List.all_eq_true.mp hks k hk
  simp only [Bool.and_eq_true, decide_eq_true_eq] at this
  exact List.mem_flatMap.mpr ⟨k, hk, hx.mem_spellings this.1.1 this.1.2 this.2⟩

/-- The level of an operator that is listed with the levels from `lo` to `hi`. -/
theorem binaryLevel_of_mem {ops : List Text} {lo hi : Nat}
    (table : (ops.all fun op => (binaryLevels.lookup op).any fun n => lo ≤ n && n ≤ hi) = true) (h : op ∈ ops) :
    ∃ n, binaryLevel (.text op) = .ok n ∧ lo ≤ n ∧ n ≤ hi := by
  have := List.all_eq_true.mp table op h
  cases hl : binaryLevels.lookup op with
  | none => simp [hl] at this
  | some n =>
    refine ⟨n, ?_, by simpa [hl] using this⟩
    simp only [Tree.text, binaryLevel, hl]

theorem binaryLevel_binary (h : SpellsOne binaryOperators op) :
    ∃ n, binaryLevel (.text op) = .ok n ∧ 5 ≤ n ∧ n ≤ 12 :=
  binaryLevel_of_mem (by decide) (mem_of_spellsOne h (by decide))

theorem binaryLevel_logical (h : SpellsOne logicalOperators op) :
    ∃ n, binaryLevel (.text op) = .ok n ∧ 3 ≤ n ∧ n ≤ 4 :=
  binaryLevel_of_mem (by decide) (mem_of_spellsOne h (by decide))

theorem numeral_of_spells (h : Spells .number raw) : Numeral raw := by
  generalize hk : Terminal.number = k at h
  cases spells_iff_lexeme.mp h with
  | number hnum => exact hnum
  | string _ _ => cases hk
  | word _ _ => exact absurd hk.symm (wordTerminal_ne _).1
  | mark hss hx => exact absurd hk.symm (mark_facts hss hx).2.1

theorem isNumber_of_spells {v : Scalar} (h : Spells .number raw) (hv : literalValue? .number raw = some v) :
    isNumber (.scalar v) = true := by
  obtain ⟨w, hw, hnumber⟩ := (numeral_of_spells h).readNumber
  rw [literalValue?, hw] at hv
  obtain rfl := Option.some.inj hv
  rcases hnumber with ⟨i, rfl⟩ | ⟨x, rfl⟩ <;> rfl

end ArrowFree.Printer

namespace ArrowFree.Formed

open Printer Token

variable {K : Kind → Prop} {t : Tree}
variable {operator : Tree} {parent : Kind} {n : Nat} {field : Text}

theorem precedence_eq (h : Formed K .expression t) : precedence t = .ok (level t) := by
  have hex : ∃ n, precedence t = .ok n := by
    cases h with
    | binary _ hop _ _ =>
      obtain ⟨n, hn, -⟩ := binaryLevel_binary hop
      exact ⟨n, hn⟩
    | logical _ hop _ _ =>
      obtain ⟨n, hn, -⟩ := binaryLevel_logical hop
      exact ⟨n, hn⟩
    | identifier h =>
      cases h
      exact ⟨_, rfl⟩
    | _ => exact ⟨_, rfl⟩
  obtain ⟨n, hn⟩ := hex
  rw [level, hn]

theorem looserThanAssignment_eq (h : Formed K .expression t) :
    looserThanAssignment t = .ok (decide (level t < assignmentLevel)) := by
  unfold looserThanAssignment
  rw [h.precedence_eq]
  rfl

theorem isBareInteger_literal (i : Info) (v : Scalar) (raw : Text) :
    isBareInteger (.node i (.known .literal) [.scalar v, .text raw]) =
      .ok (isNumber (.scalar v) && ! raw.any marksNumber) := by
  cases h : isNumber (.scalar v) with
  | true =>
    rw [isBareInteger, if_pos h]
    rfl
  | false =>
    rw [isBareInteger, if_neg (by simp [h])]
    rfl

theorem isBareInteger_ok (h : Formed K .expression t) : ∃ b, isBareInteger t = .ok b := by
  cases h with
  | identifier h =>
    cases h
    exact ⟨_, rfl⟩
  | literal _ _ => exact ⟨_, isBareInteger_literal _ _ _⟩
  | _ => exact ⟨_, rfl⟩

theorem needsParens_ok (h : Formed K .expression t)
    (hop : parent = .binaryExpression ∨ parent = .logicalExpression → ∃ n, binaryLevel operator = .ok n)
    (field : Text) : ∃ b, needsParens parent operator field t = .ok b := by
  unfold needsParens
  rw [h.precedence_eq]
  cases parent with
  | binaryExpression =>
    obtain ⟨n, hn⟩ := hop (.inl rfl)
    rw [hn]
    exact ⟨_, rfl⟩
  | logicalExpression =>
    obtain ⟨n, hn⟩ := hop (.inr rfl)
    rw [hn]
    exact ⟨_, rfl⟩
  | memberExpression =>
    obtain ⟨b, hb⟩ := h.isBareInteger_ok
    rw [hb]
    cases (t.is .functionExpression || t.is .arrowFunctionExpression) <;> cases b <;> exact ⟨_, rfl⟩
  | _ => exact ⟨_, rfl⟩

theorem needsParens_left (h : Formed K .expression t)
    (hparent : parent = .binaryExpression ∨ parent = .logicalExpression) (hn : binaryLevel operator = .ok n) :
    needsParens parent operator "left" t = .ok (decide (level t < n)) := by
  unfold needsParens
  rcases hparent with rfl | rfl <;> rw [h.precedence_eq, hn] <;> rfl

theorem needsParens_right (h : Formed K .expression t)
    (hparent : parent = .binaryExpression ∨ parent = .logicalExpression) (hn : binaryLevel operator = .ok n) :
    needsParens parent operator "right" t = .ok (decide (level t ≤ n)) := by
  unfold needsParens
  rcases hparent with rfl | rfl <;> rw [h.precedence_eq, hn] <;> rfl

theorem needsParens_test (h : Formed K .expression t) (operator : Tree) :
    needsParens .conditionalExpression operator "test" t =
      .ok (decide (level t ≤ conditionalLevel)) := by
  unfold needsParens
  rw [h.precedence_eq]
  rfl

theorem needsParens_branch (h : Formed K .expression t) (operator : Tree) (hfield : field ≠ "test") :
    needsParens .conditionalExpression operator field t =
      .ok (decide (level t < assignmentLevel)) := by
  unfold needsParens
  rw [h.precedence_eq]
  show Except.ok (if field = "test" then _ else _) = _
  rw [if_neg hfield]

theorem needsParens_assigned (h : Formed K .expression t) (operator : Tree) :
    needsParens .assignmentExpression operator "right" t =
      .ok (decide (level t < assignmentLevel)) := by
  unfold needsParens
  rw [h.precedence_eq]
  rfl

theorem needsParens_unary (h : Formed K .expression t) (operator : Tree) (field : Text) :
    needsParens .unaryExpression operator field t = .ok (decide (level t < unaryLevel)) := by
  unfold needsParens
  rw [h.precedence_eq]
  rfl

theorem needsParens_update (h : Formed K .expression t) (operator : Tree) (field : Text) :
    needsParens .updateExpression operator field t = .ok (decide (level t < callLevel)) := by
  unfold needsParens
  rw [h.precedence_eq]
  rfl

theorem needsParens_call (h : Formed K .expression t) (operator : Tree) (field : Text) :
    needsParens .callExpression operator field t =
      .ok (t.is .functionExpression || t.is .arrowFunctionExpression || level t < callLevel) := by
  unfold needsParens
  rw [h.precedence_eq]
  rfl

theorem needsParens_member (h : Formed K .expression t) (operator : Tree) (field : Text) :
    needsParens .memberExpression operator field t =
      .ok (t.is .functionExpression || t.is .arrowFunctionExpression || holds (isBareInteger t) ||
        level t < callLevel) := by
  obtain ⟨b, hb⟩ := h.isBareInteger_ok
  unfold needsParens
  rw [h.precedence_eq, hb]
  cases hf : (t.is .functionExpression || t.is .arrowFunctionExpression) <;> cases b <;>
    simp [bind, Except.bind, pure, Except.pure]

/-- The first subexpression decides, unless it is in parentheses. -/
theorem throughParens_ok {inside : Except Fault Bool} (h : Formed K .expression t)
    (hop : parent = .binaryExpression ∨ parent = .logicalExpression → ∃ n, binaryLevel operator = .ok n)
    (hin : ∃ b, inside = .ok b) : ∃ b, throughParens parent operator field t inside = .ok b := by
  obtain ⟨b, hb⟩ := h.needsParens_ok hop field
  obtain ⟨c, rfl⟩ := hin
  unfold throughParens
  split
  · exact ⟨_, rfl⟩
  · rw [hb]
    cases b <;> exact ⟨_, rfl⟩

theorem expression_of_target (h : Formed K .target t) : Formed K .expression t := by
  cases h
  assumption

theorem beginsLikeStatement_ok_of {p : Part} (h : Formed K p t) (hp : p = .expression ∨ p = .target)
    (functions : Bool) : ∃ b, beginsLikeStatement functions t = .ok b := by
  have free {parent : Kind} {operator : Tree} (hb : parent ≠ .binaryExpression)
      (hl : parent ≠ .logicalExpression) :
      parent = .binaryExpression ∨ parent = .logicalExpression →
        ∃ n, binaryLevel operator = .ok n := fun h => (h.elim hb hl).elim
  induction h with
  | identifier h =>
    cases h
    exact ⟨_, rfl⟩
  | target _ _ ih => exact ih (.inl rfl)
  | @update _ _ _ before _ _ h ih =>
    cases before with
    | true => exact ⟨_, rfl⟩
    | false =>
      exact h.expression_of_target.throughParens_ok (free nofun nofun) (ih (.inr rfl))
  | binary _ hop h _ ih _ =>
    obtain ⟨n, hn, -⟩ := binaryLevel_binary hop
    exact h.throughParens_ok (fun _ => ⟨n, hn⟩) (ih (.inl rfl))
  | logical _ hop h _ ih _ =>
    obtain ⟨n, hn, -⟩ := binaryLevel_logical hop
    exact h.throughParens_ok (fun _ => ⟨n, hn⟩) (ih (.inl rfl))
  | assignment _ _ h _ ih _ =>
    exact h.expression_of_target.throughParens_ok (free nofun nofun) (ih (.inr rfl))
  | conditional _ h _ _ ih _ _ | call _ h _ ih _ | member _ h _ ih _ | computed _ h _ ih _ =>
    exact h.throughParens_ok (free nofun nofun) (ih (.inl rfl))
  | @sequence _ ts _ hlen _ ih =>
    cases ts with
    | nil => cases hlen
    | cons t ts => exact ih t List.mem_cons_self (.inl rfl)
  | literal _ _ | this _ | array _ _ | object _ _ | function _ _ _ _ | arrowBlock _ _ _ | arrow _ _ _
  | unary _ _ _ | new _ _ _ => exact ⟨_, rfl⟩
  | _ => rcases hp with hp | hp <;> cases hp

theorem fuses_ok (h : Formed K .expression t) (operator : Tree) :
    ∃ b, fuses operator t = .ok b := by
  cases h with
  | identifier h =>
    cases h
    exact ⟨_, rfl⟩
  | @unary _ op _ _ hop _ =>
    obtain ⟨k, -, hop⟩ := hop
    cases op with
    | nil => exact absurd (match?_pos hop) (by simp)
    | cons c op => exact ⟨_, rfl⟩
  | @update _ op _ before _ hop _ =>
    cases op with
    | nil => exact absurd (match?_pos hop) (by simp)
    | cons c op => cases before <;> exact ⟨_, rfl⟩
  | _ => exact ⟨_, rfl⟩

theorem opensLikeStatement_ok (h : Formed K .expression t) (functions : Bool) :
    ∃ b, opensLikeStatement functions t = .ok b := by
  unfold opensLikeStatement
  split
  · exact ⟨_, rfl⟩
  · exact beginsLikeStatement_ok_of h (.inl rfl) functions

theorem arrowParens_block {b : Tree} (h : Formed K .block b) : arrowParens b = .ok false := by
  cases h
  rfl

theorem arrowParens_ok (h : Formed K .expression t) : ∃ b, arrowParens t = .ok b := by
  obtain ⟨b, hb⟩ := h.opensLikeStatement_ok false
  unfold arrowParens
  rw [h.not_statement.1, h.looserThanAssignment_eq, hb]
  cases decide (level t < assignmentLevel) <;> exact ⟨_, rfl⟩

end ArrowFree.Formed
