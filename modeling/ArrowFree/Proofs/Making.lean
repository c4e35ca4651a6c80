import ArrowFree.Proofs.Words
import ArrowFree.Script.Parser
import ArrowFree.Proofs.Charts

/-!
# What derivations make

Each symbol of the grammar makes trees of one sort (`madeBy`), and each form of production has
signatures, which say what it makes of parts of some sorts (`signatures`). That the productions are
typed is computed (`typed_productions`); that the forms keep to their signatures is proved form by
form (`assemble_made`). So the derivation of a script makes a well-formed tree, unless an assignment
target or a parameter list is refused (`build_made`).
-/

namespace ArrowFree.Script

open Token Printer
open List hiding lex

variable {ds : List Deriv} {parts : List Built} {α : Type} {p : Part} {t : Token} {form : Form}
  {ts : List Tree}

/-! ## Sorts -/

/-- The lists of trees that a symbol can make. -/
inductive Made where
  | nothing
  | one (p : Part)
  | optional (p : Part)
  | many (p : Part)
  /-- At least one. -/
  | some (p : Part)
  | either (p q : Part)
  | spelling (ks : List Terminal)
  | literal (ks : List Terminal)
deriving DecidableEq, Repr

namespace Made

variable {ts us : List Tree} {m : Made} {ns : List Made}

/-- Trees with nodes of any kind. -/
abbrev Proper (p : Part) (t : Tree) : Prop := Formed (fun _ => True) p t

def Holds : Made → List Tree → Prop
  | nothing, ts => ts = []
  | one p, ts => ∃ t, ts = [t] ∧ Proper p t
  | optional p, ts => ts = [] ∨ ∃ t, ts = [t] ∧ Proper p t
  | many p, ts => ∀ t ∈ ts, Proper p t
  | some p, ts => ts ≠ [] ∧ ∀ t ∈ ts, Proper p t
  | either p q, ts => ∃ t, ts = [t] ∧ (Proper p t ∨ Proper q t)
  | spelling ks, ts => ∃ x, ts = [.text x] ∧ SpellsOne ks x
  | literal ks, ts => ∃ i v raw, ts = [.node i (.known .literal) [.scalar v, .text raw]] ∧
      Denotes ks raw v

/-- Whether every part of the first sort is one of the second. -/
def subpart : Part → Part → Bool
  | .name, .expression => true
  | .word, .key => true
  | .block, .statement | .declaration, .statement => true
  | .declaration, .initializer | .expression, .initializer => true
  | p, q => p = q

theorem proper_of_subpart {q : Part} {t : Tree} (h : subpart p q) (ht : Proper p t) : Proper q t := by
  unfold subpart at h
  split at h
  · exact .identifier ht
  · exact .wordKey ht
  · exact .blockStatement ht
  · exact .declarationStatement ht
  · exact .initialDeclaration ht
  · exact .initialExpression ht
  · exact of_decide_eq_true h ▸ ht

/-- Whether what is of the first sort is of the second. -/
def fits : Made → Made → Bool
  | one p, one q | one p, optional q | one p, many q | one p, some q | some p, many q
  | some p, some q => subpart p q
  | one p, either q r => subpart p q || subpart p r
  | spelling ks, spelling ls => ks.all ls.contains
  | literal ks, one .expression | literal ks, optional .expression
  | literal ks, many .expression | literal ks, some .expression => ks.all literalTerminals.contains
  | literal ks, one .key => ks.all keyTerminals.contains
  | m, n => m = n

theorem literal_expression {ks : List Terminal} (h : ks.all literalTerminals.contains) (hts : (literal ks).Holds ts) :
    (one .expression).Holds ts := by
  obtain ⟨i, v, raw, rfl, k, hk, hv⟩ := hts
  exact ⟨_, rfl, .literal trivial ⟨k, contains_iff_mem.mp (all_eq_true.mp h k hk), hv⟩⟩

theorem holds_of_fits {n : Made} (h : m.fits n) (hts : m.Holds ts) : n.Holds ts := by
  unfold fits at h
  split at h
  · obtain ⟨t, rfl, ht⟩ := hts
    exact ⟨t, rfl, proper_of_subpart h ht⟩
  · obtain ⟨t, rfl, ht⟩ := hts
    exact .inr ⟨t, rfl, proper_of_subpart h ht⟩
  · obtain ⟨t, rfl, ht⟩ := hts
    exact forall_mem_singleton.mpr (proper_of_subpart h ht)
  · obtain ⟨t, rfl, ht⟩ := hts
    exact ⟨nofun, forall_mem_singleton.mpr (proper_of_subpart h ht)⟩
  · exact fun t ht => proper_of_subpart h (hts.2 t ht)
  · exact ⟨hts.1, fun t ht => proper_of_subpart h (hts.2 t ht)⟩
  · obtain ⟨t, rfl, ht⟩ := hts
    refine ⟨t, rfl, ?_⟩
    rcases Bool.or_eq_true_iff.mp h with h | h
    · exact .inl (proper_of_subpart h ht)
    · exact .inr (proper_of_subpart h ht)
  · obtain ⟨x, rfl, k, hk, hx⟩ := hts
    exact ⟨x, rfl, k, contains_iff_mem.mp (all_eq_true.mp h k hk), hx⟩
  · exact literal_expression h hts
  · exact .inr (literal_expression h hts)
  · obtain ⟨t, rfl, ht⟩ := literal_expression h hts
    exact forall_mem_singleton.mpr ht
  · obtain ⟨t, rfl, ht⟩ := literal_expression h hts
    exact ⟨nofun, forall_mem_singleton.mpr ht⟩
  · obtain ⟨i, v, raw, rfl, k, hk, hv⟩ := hts
    exact ⟨_, rfl, .literalKey trivial
      ⟨k, contains_iff_mem.mp (all_eq_true.mp h k hk), hv⟩⟩
  · exact of_decide_eq_true h ▸ hts

/-- Whether a sort has the empty list. -/
def skippable : Made → Bool
  | nothing | optional _ | many _ => true
  | _ => false

/-- Whether a sort has with two lists the one after the other. -/
def repeats : Made → Bool
  | many _ | some _ => true
  | _ => false

theorem holds_nil (h : m.skippable) : m.Holds [] := by
  unfold skippable at h
  split at h
  · exact rfl
  · exact .inl rfl
  · exact nofun
  · exact nomatch h

theorem holds_append (h : m.repeats) (hts : m.Holds ts) (hus : m.Holds us) : m.Holds (ts ++ us) := by
  unfold repeats at h
  split at h
  · exact forall_mem_append.mpr ⟨hts, hus⟩
  · exact ⟨by simp [hts.1], forall_mem_append.mpr ⟨hts.2, hus.2⟩⟩
  · exact nomatch h

/-- A list of trees that falls into lists of some sorts. -/
def HoldAll : List Made → List Tree → Prop
  | [], ts => ts = []
  | m :: ms, ts => ∃ us vs, ts = us ++ vs ∧ m.Holds us ∧ HoldAll ms vs

/-- What is still expected after trees of a sort, when trees of some sorts were expected. -/
def after (m : Made) : List Made → List (List Made)
  | [] => []
  | n :: ns =>
    (if m.fits n then (if n.repeats then [ns, n :: ns] else [ns]) else []) ++
    (if n.skippable then after m ns else [])

/-- Whether parts of some sorts are as expected. -/
def accepts : (parts expected : List Made) → Bool
  | [], ns => ns.all skippable
  | m :: ms, ns => if m = nothing then accepts ms ns else (after m ns).any (accepts ms)

theorem holdAll_nil (h : ns.all skippable) : HoldAll ns [] := by
  induction ns with
  | nil => exact rfl
  | cons n ns ih =>
    obtain ⟨hn, hns⟩ := Bool.and_eq_true_iff.mp h
    exact ⟨[], [], rfl, holds_nil hn, ih hns⟩

theorem holdAll_of_after {rest : List Made} {vs : List Tree} (h : rest ∈ after m ns) (hus : m.Holds us)
    (hvs : HoldAll rest vs) : HoldAll ns (us ++ vs) := by
  induction ns with
  | nil => exact nomatch h
  | cons n ns ih =>
    rw [after] at h
    rcases mem_append.mp h with h | h
    · split at h
      · next hfits =>
        split at h
        · next hrepeats =>
          rcases mem_pair.mp h with rfl | rfl
          · exact ⟨us, vs, rfl, holds_of_fits hfits hus, hvs⟩
          · obtain ⟨us', vs, rfl, hus', hvs⟩ := hvs
            rw [← append_assoc]
            exact ⟨_, vs, rfl, holds_append hrepeats (holds_of_fits hfits hus) hus', hvs⟩
        · cases mem_singleton.mp h
          exact ⟨us, vs, rfl, holds_of_fits hfits hus, hvs⟩
      · exact nomatch h
    · split at h
      · next hskip => exact ⟨[], _, rfl, holds_nil hskip, ih h⟩
      · exact nomatch h

theorem holdAll_of_accepts {ms : List Made} (h : accepts ms ns) (hts : HoldAll ms ts) : HoldAll ns ts := by
  induction ms generalizing ns ts with
  | nil =>
    cases hts
    exact holdAll_nil h
  | cons m ms ih =>
    obtain ⟨us, vs, rfl, hus, hvs⟩ := hts
    rw [accepts] at h
    split at h
    · next hm =>
      subst hm
      cases hus
      exact ih h hvs
    · obtain ⟨rest, hrest, h⟩ := any_eq_true.mp h
      exact holdAll_of_after hrest hus (ih h hvs)

end Made

/-- What a symbol makes. -/
def madeBy : Sym → Made
  | .terminal t =>
    match t with
    | .ident => .one .name
    | .number | .string | .true | .false | .null => .literal [t]
    | .this => .one .expression
    | .in | .instanceof | .typeof | .void | .delete | .var | .let | .const | .compoundAssign
    | .equalityOp | .shiftOp | .relationalOp | .updateOp | .and | .or | .multiplicativeOp
    | .additiveOp | .unaryOp | .bitAnd | .bitOr | .bitXor => .spelling [t]
    | _ => .nothing
  | .nonterminal n =>
    match n with
    | .propertyName => .one .word
    | .names => .some .name
    | .parameterList | .arrowParameters => .many .name
    | .varKind => .spelling declarationWords
    | .arguments => .many .expression
    | .assignments => .some .expression
    | .property => .one .property
    | .properties => .some .property
    | .block | .finallyClause => .one .block
    | .arrowBody => .either .block .expression
    | .variableDeclarator => .one .declarator
    | .declarators => .some .declarator
    | .varDeclaration => .one .declaration
    | .forInit => .optional .initializer
    | .forTest | .forUpdate => .optional .expression
    | .forInLeft => .one .iterated
    | .catchClause => .one .handler
    | .statements => .some .statement
    | .program => .one .program
    | .varStatement | .functionDeclaration | .returnStatement | .ifStatement | .forStatement
    | .forInStatement | .whileStatement | .doWhileStatement | .breakStatement
    | .continueStatement | .throwStatement | .tryStatement | .emptyStatement
    | .expressionStatement | .statement | .tail => .one .statement
    | .arrayLiteral | .objectLiteral | .functionExpression | .primary | .newCallee
    | .callMember | .suffixed | .unary | .multiplicative | .additive | .shift | .relational
    | .equality | .bitwiseAnd | .bitwiseXor | .bitwiseOr | .logicalAnd | .logicalOr
    | .conditional | .arrowFunction | .assignment | .expression => .one .expression

open Made in
/-- What a form takes and what it makes of it. -/
def signature : Form → List Made × Made
  | .program => ([many .statement], one .program)
  | .block => ([many .statement], one .block)
  | .expressionStatement | .throwStatement => ([one .expression], one .statement)
  | .returnStatement => ([optional .expression], one .statement)
  | .varStatement => ([one .declaration], one .statement)
  | .varDeclaration => ([spelling declarationWords, some .declarator], one .declaration)
  | .variableDeclarator => ([one .name, optional .expression], one .declarator)
  | .functionDeclaration => ([one .name, many .name, one .block], one .statement)
  | .parameters => ([many .name], many .name)
  | .ifStatement => ([one .expression, one .statement, optional .statement], one .statement)
  | .forStatement =>
    ([nothing, nothing, optional .initializer, nothing, optional .expression, nothing,
      optional .expression, nothing, one .statement], one .statement)
  | .forInStatement =>
    ([one .iterated, spelling [.in], one .expression, one .statement], one .statement)
  | .forInDeclaration => ([spelling declarationWords, one .name], one .iterated)
  | .target => ([one .expression], one .iterated)
  | .whileStatement => ([one .expression, one .statement], one .statement)
  | .doWhileStatement => ([one .statement, one .expression], one .statement)
  | .breakStatement | .continueStatement | .emptyStatement => ([], one .statement)
  | .tryCatch => ([one .block, one .handler, optional .block], one .statement)
  | .tryFinally => ([one .block, one .block], one .statement)
  | .catchClause => ([one .name, one .block], one .handler)
  | .sequence | .assign | .computedMember =>
    ([one .expression, one .expression], one .expression)
  | .compoundAssign =>
    ([one .expression, spelling [.compoundAssign], one .expression], one .expression)
  | .arrowFunction => ([many .name, nothing, either .block .expression], one .expression)
  | .conditional => ([one .expression, one .expression, one .expression], one .expression)
  | .logical => ([one .expression, spelling logicalOperators, one .expression], one .expression)
  | .binary => ([one .expression, spelling binaryOperators, one .expression], one .expression)
  | .unary => ([spelling unaryOperators, one .expression], one .expression)
  | .prefixUpdate => ([spelling [.updateOp], one .expression], one .expression)
  | .postfixUpdate => ([one .expression, spelling [.updateOp]], one .expression)
  | .member => ([one .expression, one .word], one .expression)
  | .call | .new => ([one .expression, many .expression], one .expression)
  | .functionExpression => ([many .name, one .block], one .expression)
  | .namedFunctionExpression => ([one .name, many .name, one .block], one .expression)
  | .array => ([many .expression], one .expression)
  | .object => ([many .property], one .expression)
  | .property => ([one .key, one .expression], one .property)
  | .shorthand => ([one .name], one .property)
  | .keyName => ([], one .word)
  | .inline => ([], nothing)

/-- Whether the parts of a production are what its form takes, and the form makes what the head does.
Two forms go by the places of their parts, the others by the trees in order. -/
def typed (p : Rule) : Bool :=
  let parts := p.body.map madeBy
  let made := madeBy (.nonterminal p.head)
  let (expected, result) := signature p.action
  if p.action = .inline then Made.accepts parts [made]
  else if p.action = .keyName then propertyWords.any fun k => p.body = [.terminal k] && made = result
  else if p.action = .forStatement ∨ p.action = .arrowFunction then
    parts = expected && result.fits made
  else Made.accepts parts expected && result.fits made

theorem typed_productions : grammar.productions.all typed := by decide

/-! ## Tokens -/

theorem literal_made (file : Text) {v : Scalar} (h : Spells t.terminal t.text)
    (hv : literalValue? t.terminal t.text = some v) : (Made.literal [t.terminal]).Holds [literal file t v] :=
  ⟨_, v, t.text, rfl, t.terminal, .head _, h, hv⟩

theorem ofToken_made (file : Text) (h : Spells t.terminal t.text) :
    ∃ ts, ofToken file t = .ok ts ∧ (madeBy t.terminal).Holds ts := by
  obtain ⟨k, x, start, stop⟩ := t
  match k, h with
  | .ident, h => exact ⟨_, rfl, _, rfl, .name trivial h⟩
  | .number, h =>
    obtain ⟨v, hv, -⟩ := (numeral_of_spells h).readNumber
    refine ⟨_, ?_, literal_made file h (by rw [literalValue?, hv]; rfl)⟩
    rw [ofToken, hv]
    rfl
  | .string, h | .true, h | .false, h | .null, h => exact ⟨_, rfl, literal_made file h rfl⟩
  | .this, _ => exact ⟨_, rfl, _, rfl, .this trivial⟩
  | .in, h | .instanceof, h | .typeof, h | .void, h | .delete, h | .var, h | .let, h | .const, h
  | .compoundAssign, h | .equalityOp, h | .shiftOp, h | .relationalOp, h | .updateOp, h | .and, h
  | .or, h | .multiplicativeOp, h | .additiveOp, h | .unaryOp, h | .bitAnd, h | .bitOr, h
  | .bitXor, h => exact ⟨_, rfl, _, rfl, _, .head _, h⟩
  | .new, _ | .function, _ | .return, _ | .if, _ | .else, _ | .for, _ | .while, _ | .do, _
  | .break, _ | .continue, _ | .throw, _ | .try, _ | .catch, _ | .finally, _ | .arrow, _
  | .colon, _ | .comma, _ | .dot, _ | .assign, _ | .openBrace, _ | .openParen, _
  | .openBracket, _ | .question, _ | .closeBrace, _ | .closeParen, _ | .closeBracket, _
  | .semicolon, _ => exact ⟨_, rfl, rfl⟩

/-! ## Forms -/

/-- The result has the property, unless the script is refused. -/
def Answers {α : Type} (P : α → Prop) : Except Fault α → Prop
  | .ok a => P a
  | .error (.source _) => True
  | .error _ => False

theorem Answers.cases {P : α → Prop} {x : Except Fault α} (h : Answers P x) :
    (∃ a, x = .ok a ∧ P a) ∨ ∃ e, x = .error (.source e) := by
  match x, h with
  | .ok a, h => exact .inl ⟨a, rfl, h⟩
  | .error (.source e), _ => exact .inr ⟨e, rfl⟩

theorem Answers.bind {β : Type} {P : α → Prop} {Q : β → Prop} {x : Except Fault α}
    {f : α → Except Fault β} (h : Answers P x) (hf : ∀ a, P a → Answers Q (f a)) :
    Answers Q (x >>= f) := by
  match x, h with
  | .ok a, h => exact hf a h
  | .error (.source _), _ => trivial

open Made

theorem checkTarget_answers (t : Tree) : Answers (fun _ => IsTarget t) (checkTarget t) := by
  unfold checkTarget
  split
  · next h => exact Bool.or_eq_true_iff.mp h
  · trivial

theorem checkParameters_answers (seen : List Text) (ps : List Tree) :
    Answers (fun _ => True) (checkParameters seen ps) := by
  induction ps generalizing seen with
  | nil => trivial
  | cons p ps ih =>
    rw [checkParameters]
    split
    · trivial
    · exact ih _

theorem proper_sequence (location : Option Location) {l r : Tree} (hl : Proper .expression l)
    (hr : Proper .expression r) : Proper .expression (sequence location l r) := by
  have hpair : Proper .expression (.mk .sequenceExpression location [.list [l, r]]) :=
    .sequence trivial (Nat.le_refl 2) (by simp [hl, hr])
  unfold sequence
  split
  · next i items =>
    split
    · cases hl with
      | identifier h => nomatch h
      | sequence _ hlen hitems =>
        refine .sequence trivial (by simp; omega) ?_
        exact forall_mem_append.mpr ⟨hitems, forall_mem_singleton.mpr hr⟩
    · exact hpair
  · exact hpair

theorem functionNode_eq (k : Kind) (location : Option Location) (f b : Tree) (ps : List Tree) :
    functionNode k location f (ps ++ [b]) = .mk k location [f, .list ps, b] := by
  simp [functionNode]

theorem proper_shorthand (location : Option Location) {t : Tree} (h : Proper .name t) :
    Proper .property (shorthand location t) := by
  cases h with
  | name _ hx => exact .shorthand trivial trivial hx

/-- A form makes what its signature says of the trees that it takes. -/
theorem assemble_made (file : Text) (span : Option Span)
    (hform : form ∉ [Form.inline, .keyName, .forStatement, .arrowFunction])
    (h : HoldAll (signature form).1 (Built.treesOf parts)) :
    Answers (signature form).2.Holds (assemble file form span parts) := by
  unfold assemble
  dsimp only
  generalize Built.treesOf parts = ts at h
  cases form with
  | inline | keyName | forStatement | arrowFunction => exact absurd hform (by decide)
  | program =>
    obtain ⟨ts, _, rfl, hts, rfl⟩ := h
    rw [append_nil]
    exact ⟨_, rfl, .program trivial hts⟩
  | block =>
    obtain ⟨ts, _, rfl, hts, rfl⟩ := h
    rw [append_nil]
    exact ⟨_, rfl, .block trivial hts⟩
  | expressionStatement =>
    obtain ⟨_, _, rfl, ⟨e, rfl, he⟩, rfl⟩ := h
    exact ⟨_, rfl, .expressionStatement trivial he⟩
  | throwStatement =>
    obtain ⟨_, _, rfl, ⟨e, rfl, he⟩, rfl⟩ := h
    exact ⟨_, rfl, .throwStatement trivial he⟩
  | returnStatement =>
    obtain ⟨_, _, rfl, rfl | ⟨e, rfl, he⟩, rfl⟩ := h
    · exact ⟨_, rfl, .returnStatement trivial .absent⟩
    · exact ⟨_, rfl, .returnStatement trivial (.present he)⟩
  | varStatement =>
    obtain ⟨_, _, rfl, ⟨d, rfl, hd⟩, rfl⟩ := h
    cases hd with
    | declaration _ hkind hne hds =>
      exact ⟨_, rfl, .declarationStatement (.declaration trivial hkind hne hds)⟩
  | varDeclaration =>
    obtain ⟨_, _, rfl, ⟨kind, rfl, hkind⟩, ds, _, rfl, ⟨hne, hds⟩, rfl⟩ := h
    rw [append_nil]
    exact ⟨_, rfl, .declaration trivial hkind hne hds⟩
  | variableDeclarator =>
    obtain ⟨_, _, rfl, ⟨x, rfl, hx⟩, _, _, rfl, rfl | ⟨e, rfl, he⟩, rfl⟩ := h
    · exact ⟨_, rfl, .declarator trivial hx .absent⟩
    · exact ⟨_, rfl, .declarator trivial hx (.present he)⟩
  | functionDeclaration =>
    obtain ⟨_, _, rfl, ⟨f, rfl, hf⟩, ps, _, rfl, hps, _, _, rfl, ⟨b, rfl, hb⟩, rfl⟩ := h
    exact ⟨_, congrArg ([·]) (functionNode_eq ..), .functionDeclaration trivial hf hps hb⟩
  | parameters =>
    obtain ⟨ps, _, rfl, hps, rfl⟩ := h
    rw [append_nil]
    exact (checkParameters_answers [] ps).bind fun _ _ => hps
  | ifStatement =>
    obtain ⟨_, _, rfl, ⟨c, rfl, hc⟩, _, _, rfl, ⟨a, rfl, ha⟩, _, _, rfl, rfl | ⟨b, rfl, hb⟩, rfl⟩ := h
    · exact ⟨_, rfl, .ifStatement trivial hc ha .absent⟩
    · exact ⟨_, rfl, .ifStatement trivial hc ha (.present hb)⟩
  | forInStatement =>
    obtain ⟨_, _, rfl, ⟨l, rfl, hl⟩, _, _, rfl, ⟨_, rfl, _⟩, _, _, rfl, ⟨r, rfl, hr⟩, _, _, rfl,
      ⟨b, rfl, hb⟩, rfl⟩ := h
    exact ⟨_, rfl, .forInStatement trivial hl hr hb⟩
  | forInDeclaration =>
    obtain ⟨_, _, rfl, ⟨kind, rfl, hkind⟩, _, _, rfl, ⟨x, rfl, hx⟩, rfl⟩ := h
    exact ⟨_, rfl, .iteratedDeclaration trivial trivial hkind hx⟩
  | target =>
    obtain ⟨_, _, rfl, ⟨e, rfl, he⟩, rfl⟩ := h
    exact (checkTarget_answers e).bind fun _ ht => ⟨e, rfl, .iteratedTarget (.target he ht)⟩
  | whileStatement =>
    obtain ⟨_, _, rfl, ⟨c, rfl, hc⟩, _, _, rfl, ⟨b, rfl, hb⟩, rfl⟩ := h
    exact ⟨_, rfl, .whileStatement trivial hc hb⟩
  | doWhileStatement =>
    obtain ⟨_, _, rfl, ⟨b, rfl, hb⟩, _, _, rfl, ⟨c, rfl, hc⟩, rfl⟩ := h
    exact ⟨_, rfl, .doWhileStatement trivial hb hc⟩
  | breakStatement =>
    cases h
    exact ⟨_, rfl, .breakStatement trivial⟩
  | continueStatement =>
    cases h
    exact ⟨_, rfl, .continueStatement trivial⟩
  | emptyStatement =>
    cases h
    exact ⟨_, rfl, .emptyStatement trivial⟩
  | tryCatch =>
    obtain ⟨_, _, rfl, ⟨b, rfl, hb⟩, _, _, rfl, ⟨c, rfl, hc⟩, _, _, rfl, rfl | ⟨f, rfl, hf⟩, rfl⟩ := h
    · exact ⟨_, rfl, .tryStatement trivial hb (.present hc) .absent fun h => by cases h.1; cases hc⟩
    · exact ⟨_, rfl, .tryStatement trivial hb (.present hc) (.present hf)
        fun h => by cases h.1; cases hc⟩
  | tryFinally =>
    obtain ⟨_, _, rfl, ⟨b, rfl, hb⟩, _, _, rfl, ⟨f, rfl, hf⟩, rfl⟩ := h
    exact ⟨_, rfl, .tryStatement trivial hb .absent (.present hf) fun h => by cases h.2; cases hf⟩
  | catchClause =>
    obtain ⟨_, _, rfl, ⟨x, rfl, hx⟩, _, _, rfl, ⟨b, rfl, hb⟩, rfl⟩ := h
    exact ⟨_, rfl, .handler trivial hx hb⟩
  | sequence =>
    obtain ⟨_, _, rfl, ⟨l, rfl, hl⟩, _, _, rfl, ⟨r, rfl, hr⟩, rfl⟩ := h
    exact ⟨_, rfl, proper_sequence _ hl hr⟩
  | assign =>
    obtain ⟨_, _, rfl, ⟨l, rfl, hl⟩, _, _, rfl, ⟨r, rfl, hr⟩, rfl⟩ := h
    exact (checkTarget_answers l).bind fun _ ht =>
      ⟨_, rfl, .assignment trivial ⟨.assign, by decide, by decide⟩ (.target hl ht) hr⟩
  | compoundAssign =>
    obtain ⟨_, _, rfl, ⟨l, rfl, hl⟩, _, _, rfl, ⟨x, rfl, k, hk, hx⟩, _, _, rfl, ⟨r, rfl, hr⟩,
      rfl⟩ := h
    cases mem_singleton.mp hk
    exact (checkTarget_answers l).bind fun _ ht =>
      ⟨_, rfl, .assignment trivial ⟨.compoundAssign, by decide, hx⟩ (.target hl ht) hr⟩
  | conditional =>
    obtain ⟨_, _, rfl, ⟨c, rfl, hc⟩, _, _, rfl, ⟨a, rfl, ha⟩, _, _, rfl, ⟨b, rfl, hb⟩, rfl⟩ := h
    exact ⟨_, rfl, .conditional trivial hc ha hb⟩
  | logical =>
    obtain ⟨_, _, rfl, ⟨l, rfl, hl⟩, _, _, rfl, ⟨x, rfl, hx⟩, _, _, rfl, ⟨r, rfl, hr⟩, rfl⟩ := h
    exact ⟨_, rfl, .logical trivial hx hl hr⟩
  | binary =>
    obtain ⟨_, _, rfl, ⟨l, rfl, hl⟩, _, _, rfl, ⟨x, rfl, hx⟩, _, _, rfl, ⟨r, rfl, hr⟩, rfl⟩ := h
    exact ⟨_, rfl, .binary trivial hx hl hr⟩
  | unary =>
    obtain ⟨_, _, rfl, ⟨x, rfl, hx⟩, _, _, rfl, ⟨e, rfl, he⟩, rfl⟩ := h
    exact ⟨_, rfl, .unary trivial hx he⟩
  | prefixUpdate =>
    obtain ⟨_, _, rfl, ⟨x, rfl, k, hk, hx⟩, _, _, rfl, ⟨e, rfl, he⟩, rfl⟩ := h
    cases mem_singleton.mp hk
    exact (checkTarget_answers e).bind fun _ ht => ⟨_, rfl, .update trivial hx (.target he ht)⟩
  | postfixUpdate =>
    obtain ⟨_, _, rfl, ⟨e, rfl, he⟩, _, _, rfl, ⟨x, rfl, k, hk, hx⟩, rfl⟩ := h
    cases mem_singleton.mp hk
    exact (checkTarget_answers e).bind fun _ ht => ⟨_, rfl, .update trivial hx (.target he ht)⟩
  | member =>
    obtain ⟨_, _, rfl, ⟨o, rfl, ho⟩, _, _, rfl, ⟨p, rfl, hp⟩, rfl⟩ := h
    exact ⟨_, rfl, .member trivial ho hp⟩
  | computedMember =>
    obtain ⟨_, _, rfl, ⟨o, rfl, ho⟩, _, _, rfl, ⟨p, rfl, hp⟩, rfl⟩ := h
    exact ⟨_, rfl, .computed trivial ho hp⟩
  | call =>
    obtain ⟨_, _, rfl, ⟨f, rfl, hf⟩, ts, _, rfl, hts, rfl⟩ := h
    rw [append_nil]
    exact ⟨_, rfl, .call trivial hf hts⟩
  | new =>
    obtain ⟨_, _, rfl, ⟨f, rfl, hf⟩, ts, _, rfl, hts, rfl⟩ := h
    rw [append_nil]
    exact ⟨_, rfl, .new trivial hf hts⟩
  | functionExpression =>
    obtain ⟨ps, _, rfl, hps, _, _, rfl, ⟨b, rfl, hb⟩, rfl⟩ := h
    exact ⟨_, congrArg ([·]) (functionNode_eq ..), .function trivial .absent hps hb⟩
  | namedFunctionExpression =>
    obtain ⟨_, _, rfl, ⟨f, rfl, hf⟩, ps, _, rfl, hps, _, _, rfl, ⟨b, rfl, hb⟩, rfl⟩ := h
    exact ⟨_, congrArg ([·]) (functionNode_eq ..), .function trivial (.present hf) hps hb⟩
  | array =>
    obtain ⟨ts, _, rfl, hts, rfl⟩ := h
    rw [append_nil]
    exact ⟨_, rfl, .array trivial hts⟩
  | object =>
    obtain ⟨ts, _, rfl, hts, rfl⟩ := h
    rw [append_nil]
    exact ⟨_, rfl, .object trivial hts⟩
  | property =>
    obtain ⟨_, _, rfl, ⟨k, rfl, hk⟩, _, _, rfl, ⟨v, rfl, hv⟩, rfl⟩ := h
    exact ⟨_, rfl, .property trivial hk hv⟩
  | shorthand =>
    obtain ⟨_, _, rfl, ⟨x, rfl, hx⟩, rfl⟩ := h
    exact ⟨_, rfl, proper_shorthand _ hx⟩

/-! ## Derivations -/

theorem holdAll_trees {ss : List Sym}
    (h : List.Forall₂ (fun s b => (madeBy s).Holds b.trees) ss parts) :
    HoldAll (ss.map madeBy) (Built.treesOf parts) := by
  induction h with
  | nil => exact rfl
  | cons hb _ ih => exact ⟨_, _, rfl, hb, ih⟩

theorem proper_orNull (h : (optional p).Holds ts) : Proper (.orNull p) (ts.head?.getD .null) := by
  obtain rfl | ⟨t, rfl, ht⟩ := h
  · exact .absent
  · exact .present ht

theorem assemble_placed (file : Text) (span : Option Span)
    (hform : form = .forStatement ∨ form = .arrowFunction)
    (h : List.Forall₂ (fun m b => m.Holds b.trees) (signature form).1 parts) :
    Answers (signature form).2.Holds (assemble file form span parts) := by
  rcases hform with rfl | rfl
  · obtain _ | ⟨_, _ | ⟨_, _ | ⟨hi, _ | ⟨_, _ | ⟨hc, _ | ⟨_, _ | ⟨hu, _ | ⟨_, _ | ⟨hb, _ | _⟩⟩⟩⟩⟩⟩⟩⟩⟩ := h
    obtain ⟨b, hbs, hb⟩ := hb
    refine ⟨_, rfl, .forStatement trivial (proper_orNull hi) (proper_orNull hc) (proper_orNull hu) ?_⟩
    simpa [Built.orNull, hbs] using hb
  · obtain _ | ⟨hps, _ | ⟨_, _ | ⟨hb, _ | _⟩⟩⟩ := h
    obtain ⟨b, hbs, hb⟩ := hb
    rcases hb with hb | hb
    · refine ⟨_, rfl, .arrowBlock trivial hps ?_⟩
      simpa [Built.orNull, hbs] using hb
    · refine ⟨_, rfl, .arrow trivial hps ?_⟩
      simpa [Built.orNull, hbs] using hb

theorem Answers.mono {P Q : α → Prop} {x : Except Fault α} (h : Answers P x)
    (hPQ : ∀ a, P a → Q a) : Answers Q x := by
  match x, h with
  | .ok a, h => exact hPQ a h
  | .error (.source _), _ => trivial

theorem holdAll_singleton {m : Made} (h : HoldAll [m] ts) : m.Holds ts := by
  obtain ⟨us, _, rfl, hus, rfl⟩ := h
  rwa [append_nil]

theorem assemble_inline (file : Text) (span : Option Span) (parts : List Built) :
    assemble file .inline span parts = .ok (Built.treesOf parts) := rfl

theorem nameOfWord_made (file : Text) {k : Terminal} (hk : k ∈ propertyWords) {ts : List Token}
    (hds : grammar.DerivesAll [.terminal k] ds ts) (hts : ∀ t ∈ ts, Spells t.terminal t.text) :
    (one .word).Holds (nameOfWord file ds) := by
  cases hds with
  | cons hd hnil =>
    cases hnil
    cases hd with
    | leaf t => exact ⟨_, rfl, .word trivial ⟨_, hk, hts t (.head _)⟩⟩

/-- What the parts of a production make, the production makes a tree of its head's sort. -/
theorem build_branch (file : Text) {p : Rule} (hp : p ∈ grammar.productions) {ts : List Token}
    (hds : grammar.DerivesAll p.body ds ts) (hts : ∀ t ∈ ts, Spells t.terminal t.text)
    (h : Answers (List.Forall₂ (fun s b => (madeBy s).Holds b.trees) p.body) (buildAll file ds)) :
    Answers (fun b => (madeBy (.nonterminal p.head)).Holds b.trees) (build file (.branch p ds)) := by
  have htyped := all_eq_true.mp typed_productions p hp
  unfold typed at htyped
  dsimp only at htyped
  have htrees (parts : List Built)
      (hparts : List.Forall₂ (fun s b => (madeBy s).Holds b.trees) p.body parts) :
      Answers (madeBy (.nonterminal p.head)).Holds
        (if p.action = .keyName then .ok (nameOfWord file ds)
          else assemble file p.action (Built.spanOf parts) parts) := by
    split
    · next hkey =>
      rw [if_neg (by rw [hkey]; decide), if_pos hkey, hkey] at htyped
      obtain ⟨k, hk, hbody⟩ := any_eq_true.mp htyped
      obtain ⟨hbody, hhead⟩ := Bool.and_eq_true_iff.mp hbody
      rw [of_decide_eq_true hbody] at hds
      rw [of_decide_eq_true hhead]
      exact nameOfWord_made file hk hds hts
    · next hkey =>
      rw [if_neg hkey] at htyped
      split at htyped
      · next hinline =>
        rw [hinline, assemble_inline]
        exact holdAll_singleton (holdAll_of_accepts htyped (holdAll_trees hparts))
      · next hinline =>
        split at htyped
        · next hplaced =>
          obtain ⟨hexpected, hfits⟩ := Bool.and_eq_true_iff.mp htyped
          refine (assemble_placed file _ hplaced ?_).mono fun ts => holds_of_fits hfits
          rw [← of_decide_eq_true hexpected, forall₂_map_left_iff]
          exact hparts
        · next hplaced =>
          obtain ⟨haccepts, hfits⟩ := Bool.and_eq_true_iff.mp htyped
          refine (assemble_made file _ (by simp_all) ?_).mono fun ts => holds_of_fits hfits
          exact holdAll_of_accepts haccepts (holdAll_trees hparts)
  rw [build]
  refine h.bind fun parts hparts => ?_
  have hmade := htrees parts hparts
  dsimp only
  split
  · next hkey =>
    rw [if_pos hkey] at hmade
    exact hmade
  · next hkey =>
    rw [if_neg hkey] at hmade
    refine hmade.bind fun us hus => ?_
    exact hus

mutual

/-- A derivation makes trees of the sort of its symbol, unless the script is refused. -/
theorem build_made (file : Text) {s : Sym} {d : Deriv}
    {ts : List Token} (hts : ∀ t ∈ ts, Spells t.terminal t.text) :
    grammar.Derives s d ts → Answers (fun b => (madeBy s).Holds b.trees) (build file d)
  | .leaf t => by
    obtain ⟨us, hus, hmade⟩ := ofToken_made file (hts t (.head _))
    rw [build, hus]
    exact hmade
  | .branch hp hds => build_branch file hp hds hts (buildAll_made file hts hds)

theorem buildAll_made (file : Text) {ss : List Sym}
    {ds : List Deriv} {ts : List Token}
    (hts : ∀ t ∈ ts, Spells t.terminal t.text) :
    grammar.DerivesAll ss ds ts →
    Answers (List.Forall₂ (fun s b => (madeBy s).Holds b.trees) ss) (buildAll file ds)
  | .nil => .nil
  | .cons hd hds => by
    obtain ⟨hts, hus⟩ := forall_mem_append.mp hts
    rw [buildAll]
    exact (build_made file hts hd).bind fun b hb =>
      (buildAll_made file hus hds).bind fun bs hbs => .cons hb hbs

end

/-! ## Scripts -/

theorem withSource_source (source : Text) {P : α → Prop} {f : Fault}
    (h : Answers P (.error f : Except Fault α)) : ∃ e, withSource source f = .source e := by
  match f, h with
  | .source e, _ => exact ⟨_, rfl⟩

theorem derives_of_derive {file source : Text} {d : Deriv}
    (h : derive file source = .ok d) :
    grammar.Derives (.nonterminal .program) d (lex source).tokens ∧ (lex source).stray = none := by
  unfold derive at h
  dsimp only at h
  split at h
  · exact nomatch h
  · exact nomatch h
  · exact nomatch h
  · next e hparse hstray =>
    cases h
    exact ⟨Grammar.derives_of_parse hparse, hstray⟩

theorem derive_answers (file source : Text) :
    Answers (fun d => grammar.Derives (.nonterminal .program) d (lex source).tokens)
      (derive file source) := by
  cases h : derive file source with
  | ok d => exact (derives_of_derive h).1
  | error f =>
    unfold derive at h
    dsimp only at h
    split at h <;> cases h <;> trivial

/-- A script denotes a proper program with numbered nodes, or it is refused. -/
theorem parse_answers (file source : Text) :
    Answers (fun t => ∃ u : Tree, t = u.numbered ∧ Proper .program t) (parse file source) := by
  unfold parse
  refine (derive_answers file source).bind fun d hd => ?_
  have hmade := build_made file (fun t ht => spells_of_mem_lex ht) hd
  split
  · next b hb =>
    rw [hb] at hmade
    obtain ⟨t, ht, hproper⟩ := hmade
    rw [ht]
    exact ⟨t, rfl, hproper.numbered⟩
  · next f hf =>
    rw [hf] at hmade
    obtain ⟨e, he⟩ := withSource_source source hmade
    rw [he]
    trivial

end ArrowFree.Script
