import ArrowFree.Proofs.Additions
import ArrowFree.Proofs.OperatorGrammar
import ArrowFree.Proofs.Words
import ArrowFree.Script.Build

/-!
# Reading printed expressions back

The words of an expression made of operators have a derivation whose tree is the expression
(`Formed.readsBack`). An expression is read at the level of its own precedence, and at every looser one; an operand
that needs a tighter level stands in parentheses, and is read as a whole.
-/

namespace ArrowFree.Script

open Grammar Token List
open Printer hiding word

variable {ps : List Rule} {file : Text} {ts : List Token}
variable {us slots : List Tree} {p : Rule} {t : Token} {e : Tree} {s : Sym} {n : Nonterminal}
  {k : Terminal}

/-! ## Spans of derivations -/

/-- From the first token to the last. -/
def tokenSpan (ts : List Token) : Option Span :=
  ts.foldr (fun t s => Built.joinSpans (some (t.start, t.stop)) s) none

theorem fst_tokenSpan (ts : List Token) : (tokenSpan ts).map Prod.fst = ts.head?.map Token.start := by
  cases ts with
  | nil => rfl
  | cons t ts =>
    change (Built.joinSpans _ (tokenSpan ts)).map Prod.fst = _
    cases tokenSpan ts <;> rfl

theorem joinSpans_assoc (a b c : Option Span) :
    Built.joinSpans (Built.joinSpans a b) c = Built.joinSpans a (Built.joinSpans b c) := by
  cases a <;> cases b <;> cases c <;> rfl

theorem tokenSpan_append (ts us : List Token) :
    tokenSpan (ts ++ us) = Built.joinSpans (tokenSpan ts) (tokenSpan us) := by
  induction ts with
  | nil => rfl
  | cons t ts ih =>
    change Built.joinSpans _ (tokenSpan (ts ++ us)) = Built.joinSpans (Built.joinSpans _ (tokenSpan ts)) _
    rw [ih, joinSpans_assoc]

theorem build_branch_eq (p : Rule) (ds : List Deriv) :
    build file (.branch p ds) = (buildAll file ds).bind fun bs =>
      (if p.action = .keyName then .ok (nameOfWord file ds)
        else assemble file p.action (Built.spanOf bs) bs).map fun us => ⟨Built.spanOf bs, us⟩ := by
  rw [build]
  cases buildAll file ds with
  | error f => rfl
  | ok bs =>
    by_cases h : p.action = .keyName
    · simp only [bind, Except.bind, if_pos h]
      rfl
    · simp only [bind, Except.bind, if_neg h]
      cases assemble file p.action (Built.spanOf bs) bs <;> rfl

mutual

theorem span_of_build {G : Grammar Token Terminal Nonterminal Form} {s : Sym}
    {d : Deriv} {ts : List Token} {b : Built} :
    G.Derives s d ts → build file d = .ok b → b.span = tokenSpan ts
  | .leaf t, hb => by
    unfold build at hb
    obtain ⟨trees, -, hb⟩ := bind_ok.mp hb
    cases hb
    rfl
  | .branch _ hds, hb => by
    rw [build_branch_eq] at hb
    obtain ⟨bs, hbs, hb⟩ := bind_ok.mp hb
    obtain ⟨us, -, rfl⟩ := map_ok.mp hb
    exact span_of_buildAll hds hbs

theorem span_of_buildAll {G : Grammar Token Terminal Nonterminal Form} {ss : List Sym}
    {ds : List Deriv} {ts : List Token} {bs : List Built} :
    G.DerivesAll ss ds ts → buildAll file ds = .ok bs → Built.spanOf bs = tokenSpan ts
  | .nil, hb => by
    cases hb
    rfl
  | .cons hd hds, hb => by
    unfold buildAll at hb
    obtain ⟨b, hb₁, hb⟩ := bind_ok.mp hb
    obtain ⟨bs, hb₂, hb⟩ := bind_ok.mp hb
    cases hb
    rw [tokenSpan_append, ← span_of_build hd hb₁, ← span_of_buildAll hds hb₂]
    rfl

end

/-! ## Trees from tokens -/

/-- The symbol derives the tokens, and the derivation makes these trees. -/
def Makes (ps : List Rule) (file : Text) (s : Sym) (ts : List Token) (us : List Tree) : Prop :=
  ∃ d b, (grammar.restrict ps).Derives s d ts ∧ build file d = .ok b ∧ b.trees = us

/-- The symbols derive the tokens one after the other, and make these trees together. -/
def MakesAll (ps : List Rule) (file : Text) (ss : List Sym) (ts : List Token) (us : List Tree) :
    Prop :=
  ∃ ds bs, (grammar.restrict ps).DerivesAll ss ds ts ∧ buildAll file ds = .ok bs ∧
    Built.treesOf bs = us

theorem MakesAll.nil : MakesAll ps file [] [] [] := ⟨[], [], .nil, rfl, rfl⟩

theorem MakesAll.cons {ss : List Sym} {ts' : List Token} {us us' : List Tree} (h : Makes ps file s ts us)
    (h' : MakesAll ps file ss ts' us') : MakesAll ps file (s :: ss) (ts ++ ts') (us ++ us') := by
  obtain ⟨d, b, hd, hb, rfl⟩ := h
  obtain ⟨ds, bs, hds, hbs, rfl⟩ := h'
  refine ⟨d :: ds, b :: bs, .cons hd hds, ?_, rfl⟩
  rw [buildAll, hb, hbs]
  rfl

theorem MakesAll.one (h : Makes ps file s ts us) : MakesAll ps file [s] ts us := by
  simpa using MakesAll.cons h .nil

theorem makes_token (h : ofToken file t = .ok us) : Makes ps file (.terminal t.terminal) [t] us := by
  refine ⟨.leaf t, ⟨some (t.start, t.stop), us⟩, .leaf (G := grammar.restrict ps) t, ?_, rfl⟩
  rw [build, h]
  rfl

theorem makes_rule {Q : List Tree → Prop} (hp : p ∈ ps) (haction : p.action ≠ .keyName)
    (h : MakesAll ps file p.body ts us)
    (hvs : ∀ span bs, Built.treesOf bs = us → span.map Prod.fst = ts.head?.map Token.start →
      ∃ vs, assemble file p.action span bs = .ok vs ∧ Q vs) :
    ∃ vs, Makes ps file (.nonterminal p.head) ts vs ∧ Q vs := by
  obtain ⟨ds, bs, hds, hbs, htrees⟩ := h
  have hstart : (Built.spanOf bs).map Prod.fst = ts.head?.map Token.start := by
    rw [span_of_buildAll hds hbs, fst_tokenSpan]
  obtain ⟨vs, hasm, hQ⟩ := hvs (Built.spanOf bs) bs htrees hstart
  refine ⟨vs, ⟨.branch p ds, ⟨Built.spanOf bs, vs⟩, .branch hp hds, ?_, rfl⟩, hQ⟩
  rw [build_branch_eq, hbs]
  simp only [Except.bind, if_neg haction, hasm]
  rfl

theorem makes_inline (hp : p ∈ ps) (haction : p.action = .inline) (h : MakesAll ps file p.body ts us) :
    Makes ps file (.nonterminal p.head) ts us := by
  obtain ⟨vs, hvs, rfl⟩ := makes_rule (Q := (· = us)) hp (by rw [haction]; decide) h
    fun span bs hbs _ => ⟨_, by rw [haction]; rfl, hbs⟩
  exact hvs

theorem makes_node {k : Kind} (hp : p ∈ ps) (haction : p.action ≠ .keyName)
    (h : MakesAll ps file p.body ts us)
    (hnode : ∀ span bs, Built.treesOf bs = us →
      assemble file p.action span bs = .ok [.mk k (span.map (locationOf file)) slots]) :
    ∃ l : Option Location, Makes ps file (.nonterminal p.head) ts [.mk k l slots] ∧
      l.map (·.start) = ts.head?.map fun t => (t.start.offset : Int) := by
  obtain ⟨vs, hvs, l, rfl, hl⟩ := makes_rule (Q := fun vs => ∃ l : Option Location,
      vs = [.mk k l slots] ∧ l.map (·.start) = ts.head?.map fun t => (t.start.offset : Int))
    hp haction h fun span bs hbs hstart => ⟨_, hnode span bs hbs, _, rfl, by
      have := congrArg (Option.map fun p : Position => (p.offset : Int)) hstart
      rw [Option.map_map, Option.map_map] at this
      rw [Option.map_map]
      exact this⟩
  exact ⟨l, hvs, hl⟩

/-! ## Expressions -/

/-- A tree that was made of tokens is located at one of them. Only where an expression is looked for
a sequence is located at the first one; elsewhere it is in parentheses. -/
structure Placed (n : Nonterminal) (ts : List Token) (t : Tree) : Prop where
  nonempty : ts ≠ []
  inside : ∀ l, t.location = some l → ∃ u ∈ ts, l.start = u.start.offset
  later : n ≠ .expression → t.is .sequenceExpression = true → ∀ l, t.location = some l →
    ∃ u ∈ ts.tail, l.start = u.start.offset

/-- The nonterminal derives the tokens, and the derivation makes this expression, up to locations. -/
def Reads (ps : List Rule) (file : Text) (n : Nonterminal) (ts : List Token) (e : Tree) : Prop :=
  ∃ t, Makes ps file (.nonterminal n) ts [t] ∧ t.bare = e.bare ∧ Placed n ts t

theorem reads_node {k : Kind} (hp : p ∈ ps) (haction : p.action ≠ .keyName)
    (h : MakesAll ps file p.body ts us)
    (hnode : ∀ span bs, Built.treesOf bs = us →
      assemble file p.action span bs = .ok [.mk k (span.map (locationOf file)) slots])
    (hk : k ≠ .sequenceExpression) (he : (Tree.mk k none slots).bare = e.bare) (hne : ts ≠ []) :
    Reads ps file p.head ts e := by
  obtain ⟨l, hmakes, hl⟩ := makes_node hp haction h hnode
  refine ⟨_, hmakes, he, hne, fun loc hloc => ?_, fun _ hseq => ?_⟩
  · obtain rfl : l = some loc := hloc
    cases ts with
    | nil => cases hl
    | cons t ts => exact ⟨t, .head _, Option.some.inj hl⟩
  · exact absurd (Option.some.inj (of_decide_eq_true hseq)) hk

theorem Reads.up {m : Nonterminal} (h : Reads ps file n ts e) (hp : ⟨m, [.nonterminal n], .inline, 0⟩ ∈ ps)
    (hn : n ≠ .expression) : Reads ps file m ts e := by
  obtain ⟨t, ht, hbare, hplaced⟩ := h
  exact ⟨t, makes_inline hp rfl (.one ht), hbare, hplaced.nonempty, hplaced.inside,
    fun _ => hplaced.later hn⟩

/-! ## Levels -/

/-- The nonterminal that derives the expressions from a level on. -/
def atLevel : Nat → Nonterminal
  | 0 => .expression
  | 1 => .assignment
  | 2 => .conditional
  | 3 => .logicalOr
  | 4 => .logicalAnd
  | 5 => .bitwiseOr
  | 6 => .bitwiseXor
  | 7 => .bitwiseAnd
  | 8 => .equality
  | 9 => .relational
  | 10 => .shift
  | 11 => .additive
  | 12 => .multiplicative
  | 13 | 14 => .unary
  | 15 => .suffixed
  | 16 | 17 => .callMember
  | _ => .primary

theorem atLevel_ne_expression (n : Nat) : atLevel (n + 1) ≠ .expression := by
  unfold atLevel
  split <;> simp_all

/-- A level consists of the next one. -/
theorem atLevel_succ (n : Nat) : atLevel n = atLevel (n + 1) ∨
    (⟨atLevel n, [.nonterminal (atLevel (n + 1))], .inline, 0⟩ : Rule) ∈ operandRules := by
  by_cases hn : n < 18
  · have table : ∀ n < 18, atLevel n = atLevel (n + 1) ∨
        (⟨atLevel n, [.nonterminal (atLevel (n + 1))], .inline, 0⟩ : Rule) ∈ operandRules := by
      decide
    exact table n hn
  · obtain ⟨m, rfl⟩ := Nat.exists_eq_add_of_le (Nat.not_lt.mp hn)
    left
    rw [Nat.add_comm 18 m]
    rfl

theorem Reads.loosen (hps : operandRules ⊆ ps) {m n : Nat} (h : Reads ps file (atLevel m) ts e) (hnm : n ≤ m) :
    Reads ps file (atLevel n) ts e := by
  induction hnm with
  | refl => exact h
  | @step m _ ih =>
    refine ih ?_
    rcases atLevel_succ m with heq | hrule
    · rwa [heq]
    · exact h.up (hps hrule) (atLevel_ne_expression m)

/-! ## Tokens -/

/-- The terminals that make nothing. -/
def isMark : Terminal → Bool
  | .openParen | .closeParen | .openBracket | .closeBracket | .comma | .dot | .question | .colon
  | .assign => true
  | _ => false

/-- The terminals that make their spelling. -/
def isOperator : Terminal → Bool
  | .in | .instanceof | .typeof | .void | .delete | .compoundAssign | .equalityOp | .shiftOp
  | .relationalOp | .updateOp | .and | .or | .multiplicativeOp | .additiveOp | .unaryOp | .bitAnd
  | .bitOr | .bitXor => true
  | _ => false

theorem makes_mark {x : Text} (ht : t.word = (k, x)) (hk : isMark k = true) :
    Makes ps file (.terminal k) [t] [] := by
  obtain ⟨k', _, _, _⟩ := t
  cases ht
  refine makes_token ?_
  unfold ofToken
  cases k' <;> first | rfl | cases hk

theorem makes_operator {x : Text} (ht : t.word = (k, x)) (hk : isOperator k = true) :
    Makes ps file (.terminal k) [t] [.text x] := by
  obtain ⟨k', _, _, _⟩ := t
  cases ht
  refine makes_token ?_
  unfold ofToken
  cases k' <;> first | rfl | cases hk

section

variable (hps : operandRules ⊆ ps) {e : Tree}
variable {es : List Tree} {parens pl pr : Bool} {firsts : List Token} {body : List Sym}
  {kind : Kind} {w : Word} {ws : List Word} {o : Tree} {loc : Location}
include hps

theorem makes_through (h : MakesAll ps file body ts us)
    (hrule : (⟨n, body, .inline, 0⟩ : Rule) ∈ operandRules) :
    Makes ps file (.nonterminal n) ts us := makes_inline (hps hrule) rfl h

/-- A rule of expressions that makes a node of what its parts make. -/
theorem reads_form (form : Form) (k : Kind) (slots : List Tree)
    (hrule : (⟨n, body, form, 0⟩ : Rule) ∈ operandRules) (hform : form ≠ .keyName ∧ k ≠ .sequenceExpression)
    (h : MakesAll ps file body ts us) (hne : ts ≠ []) (he : (Tree.mk k none slots).bare = e.bare)
    (hnode : ∀ span bs, Built.treesOf bs = us →
      assemble file form span bs = .ok [.mk k (span.map (locationOf file)) slots]) :
    Reads ps file n ts e :=
  reads_node (hps hrule) hform.1 h hnode hform.2 he hne

theorem reads_token (hk : t.terminal = k)
    (hrule : (⟨.primary, [.terminal k], .inline, 0⟩ : Rule) ∈ operandRules)
    (ht : ofToken file t = .ok [.mk kind (some (tokenLocation file t)) slots])
    (hkind : kind ≠ .sequenceExpression) (he : (Tree.mk kind none slots).bare = e.bare) :
    Reads ps file .primary [t] e := by
  subst hk
  refine ⟨_, makes_inline (hps hrule) rfl (.one (makes_token ht)), he, cons_ne_nil _ _,
    fun l hl => ?_, fun _ hs => ?_⟩
  · obtain rfl := Option.some.inj hl
    exact ⟨t, .head _, rfl⟩
  · exact absurd (Option.some.inj (of_decide_eq_true hs)) hkind

theorem reads_parens {u : Token} (h : Reads ps file .expression ts e) (ht : t.word = lexeme "(")
    (hu : u.word = lexeme ")") : Reads ps file .primary (t :: (ts ++ [u])) e := by
  obtain ⟨v, hv, hbare, hplaced⟩ := h
  have hin (l : Location) (hl : v.location = some l) : ∃ w ∈ ts ++ [u], l.start = w.start.offset := by
    obtain ⟨w, hw, hstart⟩ := hplaced.inside l hl
    exact ⟨w, mem_append_left _ hw, hstart⟩
  refine ⟨v, makes_through hps (.cons (makes_mark ht rfl) (.cons hv (.one (makes_mark hu rfl))))
    (mem_operandRules (by decide) rfl), hbare, cons_ne_nil _ _, fun l hl => ?_, fun _ _ => hin⟩
  obtain ⟨w, hw, hstart⟩ := hin l hl
  exact ⟨w, .tail _ hw, hstart⟩

/-! ## Operands -/

/-- The tokens stand one behind the other. -/
def Sorted (ts : List Token) : Prop := ts.Pairwise fun t u => t.start.offset < u.start.offset

omit hps in
theorem exists_cons (h : ts.map word = w :: ws) (hs : Sorted ts) :
    ∃ t us, ts = t :: us ∧ t.word = w ∧ us.map word = ws ∧ Sorted us := by
  obtain ⟨t, us, rfl, ht, hus⟩ := map_eq_cons_iff.mp h
  exact ⟨t, us, rfl, ht, hus, (pairwise_cons.mp hs).2⟩

omit hps in
theorem exists_append {vs : List Word} (h : ts.map word = vs ++ ws) (hs : Sorted ts) :
    ∃ xs ys, ts = xs ++ ys ∧ (xs.map word = vs ∧ Sorted xs) ∧ ys.map word = ws ∧ Sorted ys := by
  obtain ⟨xs, ys, rfl, hxs, hys⟩ := map_eq_append_iff.mp h
  obtain ⟨hsx, hsy, -⟩ := pairwise_append.mp hs
  exact ⟨xs, ys, rfl, ⟨hxs, hsx⟩, hys, hsy⟩

omit hps in
theorem exists_singleton (h : ts.map word = [w]) : ∃ t, ts = [t] ∧ t.word = w := by
  obtain ⟨t, us, rfl, ht, hus⟩ := map_eq_cons_iff.mp h
  exact ⟨t, by rw [map_eq_nil_iff.mp hus], ht⟩

/-- The words of the expression are read back as the expression. -/
def ReadsBack (ps : List Rule) (file : Text) (e : Tree) : Prop :=
  ∀ ts, ts.map word = words e → Sorted ts → Reads ps file (atLevel (level e)) ts e

/-- An operand is in parentheses, or it is of the level that its place asks for. -/
theorem ReadsBack.operand {n : Nat} (he : ReadsBack ps file e)
    (hn : n ≤ primaryLevel) (hparens : parens = false → n ≤ level e)
    (hts : ts.map word = enclosed parens (words e) ∧ Sorted ts) : Reads ps file (atLevel n) ts e := by
  obtain ⟨hts, hs⟩ := hts
  cases parens with
  | false => exact (he ts hts hs).loosen hps (hparens rfl)
  | true =>
    obtain ⟨t, us, rfl, ht, hus, hs⟩ := exists_cons hts hs
    obtain ⟨vs, rest, rfl, ⟨hvs, hsv⟩, hrest, -⟩ := exists_append hus hs
    obtain ⟨u, rfl, hu⟩ := exists_singleton hrest
    have hinner := (he vs hvs hsv).loosen hps (Nat.zero_le _)
    exact Reads.loosen hps (m := primaryLevel) (reads_parens hps hinner ht hu) hn

/-! ## Operators -/

variable {l r a b c : Tree} {op : Text} {k : Terminal} {i : Info}

/-- The forms of operations with two operands. -/
def operationForm : Kind → Form
  | .logicalExpression => .logical
  | _ => .binary

/-- The rule of an operation on a level. -/
def operationRule (kind : Kind) (n : Nat) (k : Terminal) : Rule :=
  ⟨atLevel n, [.nonterminal (atLevel n), .terminal k, .nonterminal (atLevel (n + 1))], operationForm kind, 0⟩

theorem reads_operation {n : Nat} (hkind : kind = .binaryExpression ∨ kind = .logicalExpression)
    (hrule : operationRule kind n k ∈ operandRules) (hn : n + 1 ≤ primaryLevel) (hk : isOperator k = true) (hop : Spells k op) (hl : ReadsBack ps file l)
    (hr : ReadsBack ps file r) (hpl : pl = false → n ≤ level l) (hpr : pr = false → n + 1 ≤ level r)
    (hts : ts.map word = enclosed pl (words l) ++ (slotWord (.text op) ++ enclosed pr (words r)))
    (hs : Sorted ts) : Reads ps file (atLevel n) ts (.node i (.known kind) [.text op, l, r]) := by
  obtain ⟨ls, rest, rfl, hls, hrest, hs⟩ := exists_append hts hs
  obtain ⟨t, rs, rfl, ht, hrs⟩ := exists_cons hrest hs
  obtain ⟨tl, hml, hbl, -⟩ := hl.operand hps (by omega) hpl hls
  obtain ⟨tr, hmr, hbr, -⟩ := hr.operand hps hn hpr hrs
  have hall : MakesAll ps file _ (ls ++ t :: rs) [tl, .text op, tr] :=
    .cons hml (.cons (makes_operator (ht.trans hop.lexeme_eq) hk) (.one hmr))
  have hbare : (Tree.mk kind none [.text op, tl, tr]).bare =
      (Tree.node i (.known kind) [.text op, l, r]).bare := by
    simp [Tree.mk, hbl, hbr]
  rcases hkind with rfl | rfl <;>
    exact reads_node (hps hrule) nofun hall
      (fun span bs hbs => by
        unfold assemble
        rw [hbs]
        rfl) (by decide) hbare (by simp)

theorem reads_unary {p : Bool}
    (hrule : (⟨.unary, [.terminal k, .nonterminal .unary], .unary, 0⟩ : Rule) ∈ operandRules)
    (hk : isOperator k = true) (hop : Spells k op) (ha : ReadsBack ps file a)
    (hp : p = false → unaryLevel ≤ level a)
    (hts : ts.map word = slotWord (.text op) ++ enclosed p (words a)) (hs : Sorted ts) :
    Reads ps file .unary ts (.node i (.known .unaryExpression) [.text op, a, .bool true]) := by
  obtain ⟨t, as, rfl, ht, has⟩ := exists_cons hts hs
  obtain ⟨ta, hma, hba, -⟩ := ha.operand hps (by decide) hp has
  have hall : MakesAll ps file _ (t :: as) [.text op, ta] :=
    .cons (makes_operator (ht.trans hop.lexeme_eq) hk) (.one hma)
  exact reads_node (hps hrule) nofun hall (fun span bs hbs => by unfold assemble; rw [hbs])
    (by decide) (by simp [Tree.mk, hba]) (by simp)

omit hps in
theorem checkTarget_ok {t : Tree} (h : IsTarget t) : checkTarget t = .ok () := by
  unfold checkTarget
  rw [if_pos (by simpa [IsTarget] using h)]

theorem reads_update {p before : Bool} (hop : Spells .updateOp op) (ha : ReadsBack ps file a)
    (htarget : IsTarget a) (hp : p = false → callLevel ≤ level a)
    (hts : ts.map word = if before then slotWord (.text op) ++ enclosed p (words a)
      else enclosed p (words a) ++ slotWord (.text op)) (hs : Sorted ts) :
    Reads ps file (if before then .unary else .suffixed) ts
      (.node i (.known .updateExpression) [.text op, a, .bool before]) := by
  have hnode {form : Form} {us : List Tree} {ta : Tree} (hta : IsTarget ta)
      (hform : form = .prefixUpdate ∧ us = [.text op, ta] ∧ before = true ∨
        form = .postfixUpdate ∧ us = [ta, .text op] ∧ before = false) (span : Option Span)
      (bs : List Built) (hbs : Built.treesOf bs = us) : assemble file form span bs =
        .ok [.mk .updateExpression (span.map (locationOf file)) [.text op, ta, .bool before]] := by
    rcases hform with ⟨rfl, rfl, rfl⟩ | ⟨rfl, rfl, rfl⟩ <;> unfold assemble <;> rw [hbs]
    all_goals
      simp only [checkTarget_ok hta]
      rfl
  cases before with
  | true =>
    obtain ⟨t, as, rfl, ht, has⟩ := exists_cons hts hs
    obtain ⟨ta, hma, hba, -⟩ := ha.operand hps (n := unaryLevel) (by decide)
      (fun h => Nat.le_trans (by decide) (hp h)) has
    have hall : MakesAll ps file _ (t :: as) [.text op, ta] :=
      .cons (makes_operator (ht.trans hop.lexeme_eq) rfl) (.one hma)
    exact reads_form hps .prefixUpdate .updateExpression [.text op, ta, .bool true]
      (mem_operandRules (by decide) rfl) (by decide) hall (by simp) (by simp [Tree.mk, hba])
      (hnode (Formed.isTarget_of_bare hba htarget) (.inl ⟨rfl, rfl, rfl⟩))
  | false =>
    obtain ⟨as, rest, rfl, has, hrest, -⟩ := exists_append hts hs
    obtain ⟨t, rfl, ht⟩ := exists_singleton hrest
    obtain ⟨ta, hma, hba, -⟩ := ha.operand hps (n := callLevel) (by decide) hp has
    have hall : MakesAll ps file _ (as ++ [t]) [ta, .text op] :=
      .cons hma (.one (makes_operator (ht.trans hop.lexeme_eq) rfl))
    exact reads_form hps .postfixUpdate .updateExpression [.text op, ta, .bool false]
      (mem_operandRules (by decide) rfl) (by decide) hall (by simp) (by simp [Tree.mk, hba])
      (hnode (Formed.isTarget_of_bare hba htarget) (.inr ⟨rfl, rfl, rfl⟩))

theorem reads_conditional {pc pa pb : Bool} (hc : ReadsBack ps file c) (ha : ReadsBack ps file a)
    (hb : ReadsBack ps file b) (hpc : pc = false → conditionalLevel + 1 ≤ level c)
    (hpa : pa = false → assignmentLevel ≤ level a) (hpb : pb = false → assignmentLevel ≤ level b)
    (hts : ts.map word = enclosed pc (words c) ++ lexeme "?" ::
      (enclosed pa (words a) ++ lexeme ":" :: enclosed pb (words b))) (hs : Sorted ts) :
    Reads ps file .conditional ts (.node i (.known .conditionalExpression) [c, a, b]) := by
  obtain ⟨cs, rest, rfl, hcs, hrest, hs⟩ := exists_append hts hs
  obtain ⟨q, rest, rfl, hq, hrest, hs⟩ := exists_cons hrest hs
  obtain ⟨as, rest, rfl, has, hrest, hs⟩ := exists_append hrest hs
  obtain ⟨t, bs, rfl, ht, hbs⟩ := exists_cons hrest hs
  obtain ⟨tc, hmc, hbc, -⟩ := hc.operand hps (by decide) hpc hcs
  obtain ⟨ta, hma, hba, -⟩ := ha.operand hps (by decide) hpa has
  obtain ⟨tb, hmb, hbb, -⟩ := hb.operand hps (by decide) hpb hbs
  have hall : MakesAll ps file _ (cs ++ q :: (as ++ t :: bs)) [tc, ta, tb] :=
    .cons hmc (.cons (makes_mark hq rfl) (.cons hma (.cons (makes_mark ht rfl) (.one hmb))))
  exact reads_form hps .conditional .conditionalExpression [tc, ta, tb]
      (mem_operandRules (by decide) rfl) (by decide) hall (by simp) (by simp [Tree.mk, hbc, hba, hbb])
    fun _ _ h => by unfold assemble; rw [h]

omit hps in
theorem eq_of_assign (h : Spells .assign op) : op = "=" := by
  have hmem := h.mem_spellings (by decide) (by decide) (by decide)
  have : spellings .assign = [("=" : Text)] := by decide
  rw [this] at hmem
  exact mem_singleton.mp hmem

theorem reads_assignment (hop : SpellsOne assignmentOperators op) (hl : ReadsBack ps file l)
    (htarget : IsTarget l) (hr : ReadsBack ps file r) (hpl : pl = false → callLevel ≤ level l)
    (hpr : pr = false → assignmentLevel ≤ level r)
    (hts : ts.map word = enclosed pl (words l) ++ (slotWord (.text op) ++ enclosed pr (words r)))
    (hs : Sorted ts) :
    Reads ps file .assignment ts (.node i (.known .assignmentExpression) [.text op, l, r]) := by
  obtain ⟨ls, rest, rfl, hls, hrest, hs⟩ := exists_append hts hs
  obtain ⟨t, rs, rfl, ht, hrs⟩ := exists_cons hrest hs
  obtain ⟨tl, hml, hbl, -⟩ := hl.operand hps (by decide) hpl hls
  obtain ⟨tr, hmr, hbr, -⟩ := hr.operand hps (by decide) hpr hrs
  have hcheck := checkTarget_ok (Formed.isTarget_of_bare hbl htarget)
  have hbare (op : Text) : (Tree.mk .assignmentExpression none [.text op, tl, tr]).bare =
      (Tree.node i (.known .assignmentExpression) [.text op, l, r]).bare := by
    simp [Tree.mk, hbl, hbr]
  obtain ⟨k, hk, hop⟩ := hop
  simp only [assignmentOperators, mem_cons, not_mem_nil, or_false] at hk
  rcases hk with rfl | rfl
  · have hall : MakesAll ps file _ (ls ++ t :: rs) [tl, tr] :=
      .cons hml (.cons (makes_mark (ht.trans hop.lexeme_eq) rfl) (.one hmr))
    rw [eq_of_assign hop]
    exact reads_form hps .assign .assignmentExpression [.text "=", tl, tr]
      (mem_operandRules (by decide) rfl) (by decide) hall (by simp) (hbare "=") fun span bs hbs => by
        unfold assemble
        rw [hbs]
        simp only [hcheck]
        rfl
  · have hall : MakesAll ps file _ (ls ++ t :: rs) [tl, .text op, tr] :=
      .cons hml (.cons (makes_operator (ht.trans hop.lexeme_eq) rfl) (.one hmr))
    exact reads_form hps .compoundAssign .assignmentExpression [.text op, tl, tr]
      (mem_operandRules (by decide) rfl) (by decide) hall (by simp) (hbare op) fun span bs hbs => by
        unfold assemble
        rw [hbs]
        simp only [hcheck]
        rfl

/-! ## Members and calls -/

theorem makes_propertyName (ht : t.terminal ∈ propertyWords) :
    Makes ps file (.nonterminal .propertyName) [t]
      [.identifier t.text (some (tokenLocation file t))] := by
  have hrule : (⟨.propertyName, [.terminal t.terminal], .keyName, 0⟩ : Rule) ∈ operandRules := by
    have table : (propertyWords.all fun k =>
        decide ((⟨.propertyName, [.terminal k], .keyName, 0⟩ : Rule) ∈ propertyNameRules) &&
          isOperandRule ⟨.propertyName, [.terminal k], .keyName, 0⟩) = true := by decide
    have := all_eq_true.mp table _ ht
    rw [Bool.and_eq_true, decide_eq_true_eq] at this
    exact mem_operandRules (.inr (.inr (.inr this.1))) this.2
  obtain ⟨us, hus⟩ : ∃ us, ofToken file t = .ok us := by
    unfold ofToken
    generalize t.terminal = k at ht
    cases k <;> first | exact ⟨_, rfl⟩ | exact absurd ht (by decide)
  have hleaf : buildAll file [.leaf t] = .ok [⟨some (t.start, t.stop), us⟩] := by
    rw [buildAll, build, hus]
    rfl
  have hds : (grammar.restrict ps).DerivesAll [.terminal t.terminal] [.leaf t] [t] :=
    .cons (.leaf (G := grammar.restrict ps) t) .nil
  refine ⟨_, ⟨some (t.start, t.stop), [.identifier t.text (some (tokenLocation file t))]⟩,
    .branch (p := ⟨.propertyName, [.terminal t.terminal], .keyName, 0⟩) (hps hrule) hds, ?_, rfl⟩
  rw [build_branch_eq, hleaf]
  rfl

theorem reads_member {p : Tree} {x : Text} {j : Info} (ho : ReadsBack ps file o)
    (hparens : parens = false → callLevel ≤ level o) (hx : SpellsOne propertyWords x)
    (hp : p = .node j (.known .identifier) [.text x])
    (hts : ts.map word = enclosed parens (words o) ++ lexeme "." :: words p) (hs : Sorted ts) :
    Reads ps file .callMember ts (.node i (.known .memberExpression) [o, p, .bool false]) := by
  subst hp
  obtain ⟨os, rest, rfl, hos, hrest, hs⟩ := exists_append hts hs
  obtain ⟨dot, rest, rfl, hdot, hrest, -⟩ := exists_cons hrest hs
  obtain ⟨t, rfl, ht⟩ := exists_singleton (w := lexeme x) hrest
  obtain ⟨object, hmo, hbo, -⟩ := ho.operand hps (by decide) hparens hos
  obtain ⟨k, hk, hspells⟩ := hx
  rw [hspells.lexeme_eq] at ht
  obtain ⟨hterminal, rfl⟩ := Prod.mk.inj ht
  have hname : Makes ps file (.nonterminal .propertyName) [t] _ :=
    makes_propertyName hps (hterminal ▸ hk)
  have hall : MakesAll ps file _ (os ++ dot :: [t])
      [object, .identifier t.text (some (tokenLocation file t))] :=
    .cons hmo (.cons (makes_mark hdot rfl) (.one hname))
  exact reads_form hps .member .memberExpression [object, .identifier t.text _, .bool false]
      (mem_operandRules (by decide) rfl) (by decide) hall (by simp)
    (by simp [Tree.mk, Tree.identifier, Tree.text, hbo]) fun _ _ h => by unfold assemble; rw [h]

theorem reads_computed {p : Tree} (ho : ReadsBack ps file o) (hparens : parens = false → callLevel ≤ level o)
    (hp : ReadsBack ps file p)
    (hts : ts.map word = enclosed parens (words o) ++ lexeme "[" :: (words p ++ [lexeme "]"]))
    (hs : Sorted ts) :
    Reads ps file .callMember ts (.node i (.known .memberExpression) [o, p, .bool true]) := by
  obtain ⟨os, rest, rfl, hos, hrest, hs⟩ := exists_append hts hs
  obtain ⟨t, rest, rfl, ht, hrest, hs⟩ := exists_cons hrest hs
  obtain ⟨qs, rest, rfl, hqs, hrest, -⟩ := exists_append hrest hs
  obtain ⟨u, rfl, hu⟩ := exists_singleton hrest
  obtain ⟨object, hmo, hbo, -⟩ := ho.operand hps (by decide) hparens hos
  obtain ⟨tp, hmp, hbp, -⟩ := (hp qs hqs.1 hqs.2).loosen hps (Nat.zero_le _)
  have hall : MakesAll ps file _ (os ++ t :: (qs ++ [u])) [object, tp] :=
    .cons hmo (.cons (makes_mark ht rfl) (.cons hmp (.one (makes_mark hu rfl))))
  exact reads_form hps .computedMember .memberExpression [object, tp, .bool true]
      (mem_operandRules (by decide) rfl) (by decide) hall (by simp) (by simp [Tree.mk, hbo, hbp])
    fun _ _ h => by unfold assemble; rw [h]

/-! ## Items -/

/-- The item is read back where an assignment is looked for. -/
def ReadsItem (ps : List Rule) (file : Text) (e : Tree) : Prop :=
  ReadsBack ps file e ∧ (holds (looserThanAssignment e) = false → assignmentLevel ≤ level e)

theorem makes_laterItems (hes : ∀ e ∈ es, ReadsItem ps file e)
    (h : Makes ps file (.nonterminal .assignments) firsts us) (hts : ts.map word = itemWords true false es)
    (hs : Sorted ts) :
    ∃ vs, Makes ps file (.nonterminal .assignments) (firsts ++ ts) (us ++ vs) ∧
      vs.map Tree.bare = es.map Tree.bare := by
  induction es generalizing ts firsts us with
  | nil =>
    rw [map_eq_nil_iff.mp hts, append_nil]
    exact ⟨[], by rwa [append_nil], rfl⟩
  | cons e es ih =>
    obtain ⟨hback, hlevel⟩ := hes e (.head _)
    rw [itemWords, Bool.true_and] at hts
    change ts.map word = lexeme "," :: (enclosed _ _ ++ _) at hts
    obtain ⟨comma, rest, rfl, hcomma, hrest, hs⟩ := exists_cons hts hs
    obtain ⟨xs, rest, rfl, hxs, hrest, hs⟩ := exists_append hrest hs
    obtain ⟨t, hmt, hbt, -⟩ := hback.operand hps (by decide) hlevel hxs
    have hmore : Makes ps file (.nonterminal .assignments) (firsts ++ comma :: xs) (us ++ [t]) :=
      makes_through hps (.cons h (.cons (makes_mark hcomma rfl) (.one hmt))) (mem_operandRules (by decide) rfl)
    obtain ⟨vs, hvs, hbare⟩ := ih (fun e he => hes e (.tail _ he)) hmore hrest hs
    refine ⟨t :: vs, ?_, by rw [map_cons, map_cons, hbt, hbare]⟩
    simpa using hvs

theorem makes_items (hes : ∀ e ∈ es, ReadsItem ps file e) (hne : es ≠ [])
    (hts : ts.map word = itemWords true true es) (hs : Sorted ts) :
    ∃ vs, Makes ps file (.nonterminal .assignments) ts vs ∧ vs.map Tree.bare = es.map Tree.bare := by
  cases es with
  | nil => exact absurd rfl hne
  | cons e es =>
    obtain ⟨hback, hlevel⟩ := hes e (.head _)
    rw [itemWords, Bool.true_and] at hts
    change ts.map word = enclosed _ _ ++ _ at hts
    obtain ⟨xs, rest, rfl, hxs, hrest, hs⟩ := exists_append hts hs
    obtain ⟨t, hmt, hbt, -⟩ := hback.operand hps (by decide) hlevel hxs
    obtain ⟨vs, hvs, hbare⟩ := makes_laterItems hps (fun e he => hes e (.tail _ he))
      (makes_through hps (.one hmt) (mem_operandRules (by decide) rfl)) hrest hs
    exact ⟨t :: vs, hvs, by rw [map_cons, map_cons, hbt, hbare]⟩

theorem makes_arguments (hes : ∀ e ∈ es, ReadsItem ps file e)
    (hts : ts.map word = lexeme "(" :: (listWords true (.list es) ++ [lexeme ")"])) (hs : Sorted ts) :
    ∃ vs, Makes ps file (.nonterminal .arguments) ts vs ∧ vs.map Tree.bare = es.map Tree.bare := by
  obtain ⟨t, rest, rfl, ht, hrest, hs⟩ := exists_cons hts hs
  obtain ⟨xs, rest, rfl, hxs, hrest, -⟩ := exists_append hrest hs
  obtain ⟨u, rfl, hu⟩ := exists_singleton hrest
  by_cases hne : es = []
  · subst hne
    rw [map_eq_nil_iff.mp hxs.1]
    exact ⟨[], makes_through hps (.cons (makes_mark ht rfl) (.one (makes_mark hu rfl)))
      (mem_operandRules (by decide) rfl), rfl⟩
  · obtain ⟨vs, hvs, hbare⟩ := makes_items hps hes hne hxs.1 hxs.2
    have hall : MakesAll ps file [.terminal .openParen, .nonterminal .assignments,
        .terminal .closeParen] (t :: (xs ++ [u])) (vs ++ []) :=
      .cons (makes_mark ht rfl) (.cons hvs (.one (makes_mark hu rfl)))
    rw [append_nil] at hall
    exact ⟨vs, makes_through hps hall (mem_operandRules (by decide) rfl), hbare⟩

theorem reads_call {f : Tree} (hf : ReadsBack ps file f)
    (hparens : parens = false → callLevel ≤ level f) (hes : ∀ e ∈ es, ReadsItem ps file e)
    (hts : ts.map word = enclosed parens (words f) ++ lexeme "(" ::
      (listWords true (.list es) ++ [lexeme ")"])) (hs : Sorted ts) :
    Reads ps file .callMember ts (.node i (.known .callExpression) [f, .list es]) := by
  obtain ⟨fs, rest, rfl, hfs, hrest, hs⟩ := exists_append hts hs
  obtain ⟨tf, hmf, hbf, hplaced⟩ := hf.operand hps (by decide) hparens hfs
  obtain ⟨us, hus, hbare⟩ := makes_arguments hps hes hrest hs
  have hall : MakesAll ps file _ (fs ++ rest) (tf :: us) := .cons hmf (.one hus)
  exact reads_form hps .call .callExpression [tf, .list us] (mem_operandRules (by decide) rfl) (by decide) hall
    (by simp [hplaced.nonempty]) (by simp [Tree.mk, hbf, hbare]) fun _ _ h => by unfold assemble; rw [h]

theorem reads_array (hes : ∀ e ∈ es, ReadsItem ps file e)
    (hts : ts.map word = lexeme "[" :: (listWords true (.list es) ++ [lexeme "]"])) (hs : Sorted ts) :
    Reads ps file .primary ts (.node i (.known .arrayExpression) [.list es]) := by
  have hup : (⟨.primary, [.nonterminal .arrayLiteral], .inline, 0⟩ : Rule) ∈ operandRules :=
    mem_operandRules (by decide) rfl
  obtain ⟨t, rest, rfl, ht, hrest, hs⟩ := exists_cons hts hs
  obtain ⟨xs, rest, rfl, hxs, hrest, -⟩ := exists_append hrest hs
  obtain ⟨u, rfl, hu⟩ := exists_singleton hrest
  suffices Reads ps file .arrayLiteral (t :: (xs ++ [u]))
      (.node i (.known .arrayExpression) [.list es]) from this.up (hps hup) (by decide)
  by_cases hne : es = []
  · subst hne
    rw [map_eq_nil_iff.mp hxs.1]
    have hall : MakesAll ps file _ [t, u] [] := .cons (makes_mark ht rfl) (.one (makes_mark hu rfl))
    exact reads_form hps .array .arrayExpression [.list []]
      (mem_operandRules (by decide) rfl) (by decide) hall (by simp) rfl fun _ _ h => by unfold assemble; rw [h]
  · obtain ⟨vs, hvs, hbare⟩ := makes_items hps hes hne hxs.1 hxs.2
    have hall : MakesAll ps file [.terminal .openBracket, .nonterminal .assignments,
        .terminal .closeBracket] (t :: (xs ++ [u])) (vs ++ []) :=
      .cons (makes_mark ht rfl) (.cons hvs (.one (makes_mark hu rfl)))
    rw [append_nil] at hall
    exact reads_form hps .array .arrayExpression [.list vs]
      (mem_operandRules (by decide) rfl) (by decide) hall (by simp) (by simp [Tree.mk, hbare])
      fun _ _ h => by unfold assemble; rw [h]

/-! ## Sequences -/

/-- A sequence that stands for all of the tokens: it begins where they begin. -/
def MakesSequence (ps : List Rule) (file : Text) (ts : List Token) (us : List Tree) : Prop :=
  ∃ l : Location, Makes ps file (.nonterminal .expression) ts
      [.mk .sequenceExpression (some l) [.list us]] ∧
    some l.start = ts.head?.map fun t => (t.start.offset : Int)

omit hps in
theorem sequence_append {l : Location} (us : List Tree) (t : Tree) (h : l.start = loc.start) :
    sequence (some loc) (.mk .sequenceExpression (some l) [.list us]) t =
      .mk .sequenceExpression (some loc) [.list (us ++ [t])] := by
  simp [sequence, Tree.mk, h]

omit hps in
/-- A sequence that begins later is in parentheses, and an item of its own. -/
theorem sequence_pair (s t : Tree)
    (h : s.is .sequenceExpression = true → ∀ l, s.location = some l → l.start ≠ loc.start) :
    sequence (some loc) s t = .mk .sequenceExpression (some loc) [.list [s, t]] := by
  unfold sequence
  split
  · next i items =>
    cases hl : i.location with
    | none => rfl
    | some l => simp [h rfl l hl]
  · rfl

theorem makesSequence_step {rest : List Token} {comma : Token} {s t : Tree}
    (hcomma : comma.word = lexeme ",") (hne : firsts ≠ [])
    (hs : Makes ps file (.nonterminal .expression) firsts [s])
    (ht : Makes ps file (.nonterminal .assignment) rest [t])
    (hus : ∀ loc : Location, some loc.start = firsts.head?.map (fun t => (t.start.offset : Int)) →
      sequence (some loc) s t = .mk .sequenceExpression (some loc) [.list us]) :
    MakesSequence ps file (firsts ++ comma :: rest) us := by
  have hrule : (⟨.expression, [.nonterminal .expression, .terminal .comma,
    .nonterminal .assignment], .sequence, 0⟩ : Rule) ∈ operandRules := mem_operandRules (by decide) rfl
  have hall : MakesAll ps file _ (firsts ++ comma :: rest) [s, t] :=
    .cons hs (.cons (makes_mark hcomma rfl) (.one ht))
  obtain ⟨vs, hvs, l, rfl, hl⟩ := makes_rule (hps hrule) nofun hall
    (Q := fun vs => ∃ l : Location, vs = [.mk .sequenceExpression (some l) [.list us]] ∧
      some l.start = (firsts ++ comma :: rest).head?.map fun t => (t.start.offset : Int))
    fun span bs hbs hstart => by
      obtain ⟨u, firsts, rfl⟩ := exists_cons_of_ne_nil hne
      cases span with
      | none => cases hstart
      | some span =>
        have hoffset : (locationOf file span).start = u.start.offset :=
          congrArg (fun p : Position => (p.offset : Int)) (Option.some.inj hstart)
        refine ⟨_, ?_, locationOf file span, rfl, congrArg some hoffset⟩
        unfold assemble
        rw [hbs]
        show Except.ok [sequence (some (locationOf file span)) s t] = _
        rw [hus _ (congrArg some hoffset)]
  exact ⟨l, hvs, hl⟩

theorem makesSequence_items (hes : ∀ e ∈ es, ReadsItem ps file e) (hne : firsts ≠ [])
    (h : MakesSequence ps file firsts us) (hts : ts.map word = itemWords true false es) (hs : Sorted ts) :
    ∃ vs, MakesSequence ps file (firsts ++ ts) (us ++ vs) ∧ vs.map Tree.bare = es.map Tree.bare := by
  induction es generalizing ts firsts us with
  | nil =>
    rw [map_eq_nil_iff.mp hts, append_nil]
    exact ⟨[], by rwa [append_nil], rfl⟩
  | cons e es ih =>
    obtain ⟨hback, hlevel⟩ := hes e (.head _)
    rw [itemWords, Bool.true_and] at hts
    change ts.map word = lexeme "," :: (enclosed _ _ ++ _) at hts
    obtain ⟨comma, rest, rfl, hcomma, hrest, hs⟩ := exists_cons hts hs
    obtain ⟨xs, rest, rfl, hxs, hrest, hs⟩ := exists_append hrest hs
    obtain ⟨t, hmt, hbt, -⟩ := hback.operand hps (by decide) hlevel hxs
    obtain ⟨l, hml, hl⟩ := h
    have hmore := makesSequence_step hps hcomma hne hml hmt fun loc hloc =>
      sequence_append us t (Option.some.inj (hl.trans hloc.symm))
    obtain ⟨vs, hvs, hbare⟩ := ih (fun e he => hes e (.tail _ he)) (by simp) hmore hrest hs
    refine ⟨t :: vs, ?_, by rw [map_cons, map_cons, hbt, hbare]⟩
    simpa using hvs

theorem reads_sequence (hlen : 2 ≤ es.length) (hes : ∀ e ∈ es, ReadsItem ps file e)
    (hts : ts.map word = listWords true (.list es)) (hs : Sorted ts) :
    Reads ps file .expression ts (.node i (.known .sequenceExpression) [.list es]) := by
  obtain ⟨e₁, e₂, es, rfl⟩ : ∃ e₁ e₂ es', es = e₁ :: e₂ :: es' := by
    match es, hlen with
    | e₁ :: e₂ :: es, _ => exact ⟨e₁, e₂, es, rfl⟩
  obtain ⟨hback₁, hlevel₁⟩ := hes e₁ (.head _)
  obtain ⟨hback₂, hlevel₂⟩ := hes e₂ (.tail _ (.head _))
  rw [listWords, itemWords, itemWords, Bool.true_and, Bool.true_and] at hts
  change ts.map word = enclosed _ _ ++ lexeme "," :: (enclosed _ _ ++ _) at hts
  obtain ⟨xs, rest, rfl, hxs, hrest, hs⟩ := exists_append hts hs
  obtain ⟨comma, rest, rfl, hcomma, hrest, hs⟩ := exists_cons hrest hs
  obtain ⟨ys, rest, rfl, hys, hrest, hs⟩ := exists_append hrest hs
  obtain ⟨t₁, hmt₁, hbt₁, hplaced⟩ := hback₁.operand hps (n := assignmentLevel) (by decide) hlevel₁ hxs
  obtain ⟨t₂, hmt₂, hbt₂, -⟩ := hback₂.operand hps (n := assignmentLevel) (by decide) hlevel₂ hys
  have hexpression : Makes ps file (.nonterminal .expression) xs [t₁] :=
    makes_through hps (.one hmt₁) (mem_operandRules (by decide) rfl)
  have hpair := makesSequence_step hps hcomma hplaced.nonempty hexpression hmt₂ fun loc hloc =>
    sequence_pair t₁ t₂ fun hseq l hl => by
      obtain ⟨u, hu, hstart⟩ := hplaced.later nofun hseq l hl
      obtain ⟨x, xs', rfl⟩ := exists_cons_of_ne_nil hplaced.nonempty
      have hlt := (pairwise_cons.mp hxs.2).1 u hu
      have hfirst : loc.start = x.start.offset := Option.some.inj hloc
      omega
  obtain ⟨vs, ⟨l, hml, hl⟩, hbare⟩ := makesSequence_items hps
    (fun e he => hes e (.tail _ (.tail _ he))) (by simp) hpair hrest hs
  have htokens : xs ++ comma :: (ys ++ rest) = xs ++ comma :: ys ++ rest := by simp
  rw [htokens]
  refine ⟨_, hml, by simp [Tree.mk, hbt₁, hbt₂, hbare], by simp, fun loc hloc => ?_, fun h => absurd rfl h⟩
  obtain rfl := Option.some.inj hloc
  obtain ⟨x, xs', rfl⟩ := exists_cons_of_ne_nil hplaced.nonempty
  exact ⟨x, by simp, Option.some.inj hl⟩

end

end ArrowFree.Script

namespace ArrowFree

open Printer hiding word
open Script Token List

variable {v : Scalar}

/-- The kinds of operands, operators and chains of members and calls. -/
def OperatorKind (k : Kind) : Prop :=
  k ∈ [Kind.identifier, .thisExpression, .literal, .arrayExpression, .unaryExpression,
    .updateExpression, .binaryExpression, .logicalExpression, .conditionalExpression,
    .assignmentExpression, .callExpression, .memberExpression, .sequenceExpression]

instance (k : Kind) : Decidable (OperatorKind k) := inferInstanceAs (Decidable (k ∈ _))

namespace Formed

variable {op : Text}


theorem callLevel_le_of_target (h : Formed K .target t) : callLevel ≤ level t := by
  cases h with
  | target h htarget =>
    cases h with
    | identifier h =>
      cases h
      exact Nat.le_succ callLevel
    | member _ _ _ => exact Nat.le_refl callLevel
    | computed _ _ _ => exact Nat.le_refl callLevel
    | _ => rcases htarget with h | h <;> cases h

theorem isTarget (h : Formed K .target t) : IsTarget t := by
  cases h with
  | target _ h => exact h

theorem readsItem (h : Formed K .expression e) (he : ReadsBack ps file e) : ReadsItem ps file e := by
  refine ⟨he, fun hloose => ?_⟩
  rw [h.looserThanAssignment_eq, holds_ok, decide_eq_false_iff_not] at hloose
  exact Nat.le_of_not_lt hloose

/-- The operators of a kind of operation are on the levels where the grammar has them. -/
theorem operation_rule (kind : Kind) {ks : List Terminal}
    (table : (ks.all fun k => isOperator k && (spellings k).all fun op =>
      (binaryLevels.lookup op).any fun n => n + 1 ≤ primaryLevel &&
        decide (operationRule kind n k ∈ operatorRules) && isOperandRule (operationRule kind n k)) = true)
    (h : SpellsOne ks op) : ∃ k n, Spells k op ∧ isOperator k = true ∧
      binaryLevel (.text op) = .ok n ∧ n + 1 ≤ primaryLevel ∧ operationRule kind n k ∈ operandRules := by
  obtain ⟨k, hk, hop⟩ := h
  have hrow := all_eq_true.mp table k hk
  rw [Bool.and_eq_true] at hrow
  have hne {k' : Terminal} (hk' : isOperator k' = false) : k ≠ k' := by
    rintro rfl
    exact absurd (hrow.1.symm.trans hk') (by decide)
  have hcell := all_eq_true.mp hrow.2 op (hop.mem_spellings (hne rfl) (hne rfl) (hne rfl))
  cases hl : binaryLevels.lookup op with
  | none =>
    rw [hl] at hcell
    cases hcell
  | some n =>
    rw [hl, Option.any_some, Bool.and_eq_true, Bool.and_eq_true, decide_eq_true_eq,
      decide_eq_true_eq] at hcell
    refine ⟨k, n, hop, hrow.1, ?_, hcell.1.1, mem_operandRules (.inl hcell.1.2) hcell.2⟩
    rw [Tree.text, binaryLevel, hl]

theorem unary_rule (h : SpellsOne unaryOperators op) : ∃ k, Spells k op ∧
    isOperator k = true ∧
      (⟨.unary, [.terminal k, .nonterminal .unary], .unary, 0⟩ : Rule) ∈ operandRules := by
  obtain ⟨k, hk, hop⟩ := h
  have table : (unaryOperators.all fun k => isOperator k &&
      decide ((⟨.unary, [.terminal k, .nonterminal .unary], .unary, 0⟩ : Rule) ∈ operatorRules) &&
      isOperandRule ⟨.unary, [.terminal k, .nonterminal .unary], .unary, 0⟩) = true := by
    decide
  have := all_eq_true.mp table k hk
  rw [Bool.and_eq_true, Bool.and_eq_true, decide_eq_true_eq] at this
  exact ⟨k, hop, this.1.1, mem_operandRules (.inl this.1.2) this.2⟩

end Formed

theorem ofToken_literal {t : Token} (ht : t.terminal ∈ literalTerminals)
    (hv : literalValue? t.terminal t.text = some v) : ofToken file t =
      .ok [.mk .literal (some (tokenLocation file t)) [.scalar v, .text t.text]] := by
  simp only [literalTerminals, mem_cons, not_mem_nil, or_false] at ht
  unfold ofToken
  rcases ht with ht | ht | ht | ht | ht <;> rw [ht] at hv ⊢
  · rw [literalValue?] at hv
    cases hread : Literal.readNumber t.text with
    | error f =>
      rw [hread] at hv
      cases hv
    | ok w =>
      rw [hread] at hv
      cases hv
      rfl
  all_goals
    cases hv
    rfl

section

variable (hps : operandRules ⊆ ps) {i : Info}
include hps

theorem readsBack_literal {raw : Text} (h : Denotes literalTerminals raw v) :
    ReadsBack ps file (.node i (.known .literal) [.scalar v, .text raw]) := by
  intro ts hts _
  obtain ⟨k, hk, hspells, hvalue⟩ := h
  obtain ⟨t, rfl, ht⟩ := exists_singleton (w := lexeme raw) hts
  rw [hspells.lexeme_eq] at ht
  obtain ⟨rfl, rfl⟩ := Prod.mk.inj ht
  have hrule : (⟨.primary, [.terminal t.terminal], .inline, 0⟩ : Rule) ∈ operandRules := by
    have table : (literalTerminals.all fun k =>
        decide ((⟨.primary, [.terminal k], .inline, 0⟩ : Rule) ∈ primaryRules) &&
        isOperandRule ⟨.primary, [.terminal k], .inline, 0⟩) = true := by decide
    have := all_eq_true.mp table _ hk
    rw [Bool.and_eq_true, decide_eq_true_eq] at this
    exact mem_operandRules (.inr (.inr (.inl this.1))) this.2
  exact reads_token hps rfl hrule (ofToken_literal hk hvalue) (by decide) rfl

theorem readsBack_identifier {x : Text} (h : Spells .ident x) :
    ReadsBack ps file (.node i (.known .identifier) [.text x]) := by
  intro ts hts _
  obtain ⟨t, rfl, ht⟩ := exists_singleton (w := lexeme x) hts
  rw [h.lexeme_eq] at ht
  obtain ⟨hk, rfl⟩ := Prod.mk.inj ht
  refine reads_token hps hk (mem_operandRules (by decide) rfl) ?_ (by decide) rfl
  rw [ofToken, hk]
  rfl

theorem readsBack_this : ReadsBack ps file (.node i (.known .thisExpression) []) := by
  intro ts hts _
  obtain ⟨t, rfl, ht⟩ := exists_singleton (w := lexeme "this") hts
  have hk : t.terminal = .this := congrArg Prod.fst ht
  refine reads_token hps hk (mem_operandRules (by decide) rfl) ?_ (by decide) rfl
  rw [ofToken, hk]

/-- Expressions of operators are read back. -/
theorem Formed.readsBack (h : Formed OperatorKind p e)
    (hp : p = .name ∨ p = .expression ∨ p = .target) : ReadsBack ps file e := by
  induction h with
  | name _ hx => exact readsBack_identifier hps hx
  | identifier _ ih => exact ih (.inl rfl)
  | literal _ hv => exact readsBack_literal hps hv
  | this _ => exact readsBack_this hps
  | array _ hes ih =>
    intro ts hts hs
    rw [words, nodeWords] at hts
    exact reads_array hps (fun e he => (hes e he).readsItem (ih e he (.inr (.inl rfl)))) hts hs
  | unary _ hop ha ih =>
    intro ts hts hs
    obtain ⟨k, hspells, hk, hrule⟩ := unary_rule hop
    rw [words, nodeWords, ha.needsParens_unary] at hts
    exact reads_unary hps hrule hk hspells (ih (.inr (.inl rfl))) (by simp) hts hs
  | @update i op a before _ hop ha ih =>
    intro ts hts hs
    rw [words, nodeWords, ha.expression_of_target.needsParens_update] at hts
    have := reads_update (i := i) hps hop (ih (.inr (.inr rfl))) ha.isTarget
      (fun _ => ha.callLevel_le_of_target) hts hs
    cases before <;> exact this
  | @binary i op l r _ hop hl hr ihl ihr =>
    intro ts hts hs
    obtain ⟨k, n, hspells, hk, hn, hle, hrule⟩ := operation_rule .binaryExpression (by decide) hop
    rw [words, nodeWords, hl.needsParens_left (.inl rfl) hn, hr.needsParens_right (.inl rfl) hn] at hts
    have hlevel : level (.node i (.known .binaryExpression) [.text op, l, r]) = n := by
      rw [level, precedence, hn]
    rw [hlevel]
    exact reads_operation hps (.inl rfl) hrule hle hk hspells (ihl (.inr (.inl rfl)))
      (ihr (.inr (.inl rfl))) (by simp) (fun h => Nat.lt_of_not_le (of_decide_eq_false h)) hts hs
  | @logical i op l r _ hop hl hr ihl ihr =>
    intro ts hts hs
    obtain ⟨k, n, hspells, hk, hn, hle, hrule⟩ := operation_rule .logicalExpression (by decide) hop
    rw [words, nodeWords, hl.needsParens_left (.inr rfl) hn, hr.needsParens_right (.inr rfl) hn] at hts
    have hlevel : level (.node i (.known .logicalExpression) [.text op, l, r]) = n := by
      rw [level, precedence, hn]
    rw [hlevel]
    exact reads_operation hps (.inr rfl) hrule hle hk hspells (ihl (.inr (.inl rfl)))
      (ihr (.inr (.inl rfl))) (by simp) (fun h => Nat.lt_of_not_le (of_decide_eq_false h)) hts hs
  | assignment _ hop hl hr ihl ihr =>
    intro ts hts hs
    rw [words, nodeWords, hr.needsParens_assigned] at hts
    exact reads_assignment hps hop (ihl (.inr (.inr rfl))) hl.isTarget (ihr (.inr (.inl rfl)))
      (fun _ => hl.callLevel_le_of_target) (by simp) hts hs
  | conditional _ hc ha hb ihc iha ihb =>
    intro ts hts hs
    rw [words, nodeWords, hc.needsParens_test, ha.needsParens_branch _ (by decide),
      hb.needsParens_branch _ (by decide)] at hts
    exact reads_conditional hps (ihc (.inr (.inl rfl))) (iha (.inr (.inl rfl)))
      (ihb (.inr (.inl rfl))) (fun h => Nat.lt_of_not_le (of_decide_eq_false h)) (by simp) (by simp) hts hs
  | call _ hf hes ihf ihes =>
    intro ts hts hs
    rw [words, nodeWords, hf.needsParens_call] at hts
    exact reads_call hps (ihf (.inr (.inl rfl))) (by simp)
      (fun e he => (hes e he).readsItem (ihes e he (.inr (.inl rfl)))) hts hs
  | member _ ho hprop iho _ =>
    intro ts hts hs
    rw [words, nodeWords, ho.needsParens_member] at hts
    cases hprop with
    | word _ hx => exact reads_member hps (iho (.inr (.inl rfl))) (by simp) hx rfl hts hs
  | computed _ ho hp iho ihp =>
    intro ts hts hs
    rw [words, nodeWords, ho.needsParens_member] at hts
    exact reads_computed hps (iho (.inr (.inl rfl))) (by simp) (ihp (.inr (.inl rfl))) hts hs
  | sequence _ hlen hes ih =>
    intro ts hts hs
    rw [words, nodeWords] at hts
    exact reads_sequence hps hlen (fun e he => (hes e he).readsItem (ih e he (.inr (.inl rfl)))) hts hs
  | target _ _ ih => exact ih (.inr (.inl rfl))
  | object hk _ | function hk _ _ _ | arrowBlock hk _ _ | arrow hk _ _ | new hk _ _ => exact absurd hk (by decide)
  | _ => rcases hp with hp | hp | hp <;> cases hp

end

end ArrowFree
