import ArrowFree.Proofs.AcceptedScripts
import ArrowFree.Proofs.Analyzable
import ArrowFree.Proofs.OptimalCharts
import ArrowFree.Proofs.Readings
import ArrowFree.Proofs.Relabeled

/-!
# Which `if` an `else` belongs to

The grammar leaves open to which of several `if`s an `else` belongs. Where an `if` without alternate has a
consequent that ends in an `else`, what stands before this `else` is a statement too (`Splits`). So the
`if` could take the `else` itself, with the same score and by a production that is listed first, and the
chosen derivation is another one (`not_splits_of_preferred`).

Hence the outermost `if` that can take an `else` takes it (`outermost_else`), and not the nearest one
(`else_of_first_if`).

1. A tree that ends in an `else` (`EndsInElse`) is made by a derivation that gives an `else` away
   (`splits_of_endsInElse`): its kind tells the production (`madeBy_of_build`), and that production ends
   with a statement whose tree ends so (`endsInElse_last`).
2. What holds of the `if`s and the identifiers that a derivation makes holds of all nodes of the tree, because
   the forms make no others (`holds_of_build`), and after numbering (`everywhere_numbered`).
-/

namespace ArrowFree.Script

open Grammar Token ArrowFree.Tree
open List hiding lex

variable {file source : Text} {parts : List Built} {us : List Token} {form : Form}

/-! ## The alternatives of `if` -/

variable {t c test consequent : Tree} {p : Rule} {ts : List Token}
  {ds : List Deriv} {d : Deriv}
  {b : Built} {span : Option Span} {f : Info → Info} {i : Info} {front : List Sym}

/-- A production that ends with a statement. -/
def endingRule (head : Nonterminal) (front : List Sym) (form : Form) : Rule :=
  ⟨head, front ++ [.nonterminal .statement], form, 0⟩

/-- What comes before the statement that follows the test. -/
def ifFront : List Sym :=
  [Terminal.if, Terminal.openParen, Nonterminal.expression, Terminal.closeParen]

def ifRule : Rule := endingRule .ifStatement ifFront .ifStatement

def ifElseRule : Rule :=
  ⟨.ifStatement, ifFront ++ [.nonterminal .statement, .terminal .else, .nonterminal .statement],
    .ifStatement, 0⟩

/-- A production that passes one symbol on. -/
def choiceRule (head n : Nonterminal) : Rule := ⟨head, [.nonterminal n], .inline, 0⟩

/-- A statement that is one of another sort. -/
def statementRule (n : Nonterminal) : Rule := choiceRule .statement n

theorem ifElseRule_mem : ifElseRule ∈ grammar.productions := by decide

theorem ifRule_mem : ifRule ∈ grammar.productions := by decide

theorem rules_ifElseRule_lt :
    ∀ r ∈ grammar.rules, r.2 = ifRule → ∃ r' ∈ grammar.rules, r'.2 = ifElseRule ∧ r'.1 < r.1 := by
  decide +kernel

/-! ## Statements that give an `else` away -/

/-- The tokens are two statements with an `else` in between, whose derivations have this score together. -/
def Splits (ts : List Token) (score : Nat) : Prop :=
  ∃ vs e ws d₁ d₂, ts = vs ++ e :: ws ∧ e.terminal = .else ∧
    grammar.Derives (.nonterminal .statement) d₁ vs ∧ grammar.Derives (.nonterminal .statement) d₂ ws ∧
    d₁.score + d₂.score = score

theorem derives_statement (hp : p ∈ grammar.productions) (hstatement : statementRule p.head ∈ grammar.productions)
    (hds : grammar.DerivesAll p.body ds ts) :
    ∃ d, grammar.Derives (.nonterminal .statement) d ts ∧
      d.score = Derivation.scores ds + p.priority := by
  have hall : grammar.DerivesAll [.nonterminal p.head] [.branch p ds] ts := by
    simpa using DerivesAll.cons (.branch hp hds) .nil
  exact ⟨_, .branch hstatement hall, by simp [Derivation.score, Derivation.scores, statementRule, choiceRule]⟩

/-- What ends with a statement that gives its `else` away does so too. -/
theorem Splits.behind (hp : p ∈ grammar.productions) (hpriority : p.priority = 0)
    (hstatement : statementRule p.head ∈ grammar.productions)
    (hbody : p.body = front ++ [.nonterminal .statement]) (hds : grammar.DerivesAll front ds us) {n : Nat}
    (h : Splits ts n) : Splits (us ++ ts) (Derivation.scores ds + n) := by
  obtain ⟨vs, e, ws, d₁, d₂, rfl, he, hd₁, hd₂, rfl⟩ := h
  have hall := derivesAll_concat hds hd₁
  rw [← hbody] at hall
  obtain ⟨d, hd, hscore⟩ := derives_statement hp hstatement hall
  refine ⟨us ++ vs, e, ws, d, d₂, by rw [append_assoc], he, hd, hd₂, ?_⟩
  rw [hscore, hpriority, Derivation.scores_append, Derivation.scores, Derivation.scores]
  omega

theorem splits_ifElse (h : grammar.DerivesAll ifElseRule.body ds ts) : Splits ts (Derivation.scores ds) := by
  obtain ⟨fs, _, us, _, rfl, rfl, hfs, hrest⟩ := derivesAll_split h
  obtain _ | ⟨hd₁, _ | ⟨helse, _ | ⟨hd₂, _ | _⟩⟩⟩ := hrest
  obtain ⟨e, he, rfl, rfl⟩ := derives_terminal helse
  obtain ⟨d, hd, hscore⟩ := derives_statement ifRule_mem (by decide) (derivesAll_concat hfs hd₁)
  refine ⟨_, e, _, d, _, by simp, he, hd, hd₂, ?_⟩
  rw [hscore]
  simp only [Derivation.scores_append, Derivation.scores, Derivation.score, ifRule, endingRule]
  omega

/-- **An `if` without alternate is preferred only if its statement gives no `else` away**: with the
`else` for itself it has the same score, and that alternative is listed first. -/
theorem not_splits_of_preferred {fs : List Deriv} (hfs : grammar.DerivesAll ifFront fs us)
    (hd : grammar.Derives (.nonterminal .statement) d ts) (h : grammar.Preferred ifRule (fs ++ [d])) :
    ¬ Splits ts d.score := by
  rintro ⟨vs, e, ws, d₁, d₂, rfl, he, hd₁, hd₂, hscore⟩
  have htokens := tokensOf_eq (derivesAll_concat hfs hd)
  have helse : grammar.Derives (.terminal .else) (.leaf e) [e] := he ▸ .leaf e
  have hrival : grammar.DerivesAll ifElseRule.body (fs ++ [d₁, .leaf e, d₂]) (us ++ (vs ++ e :: ws)) := by
    have := derivesAll_append hfs (.cons hd₁ (.cons helse (.cons hd₂ .nil)))
    simpa [ifElseRule] using this
  have hsame : (Derivation.branch ifElseRule (fs ++ [d₁, .leaf e, d₂])).score =
      (Derivation.branch ifRule (fs ++ [d])).score := by
    simp only [Derivation.scores_append, Derivation.scores, Derivation.score, ifRule, ifElseRule,
      endingRule]
    omega
  have hne : Derivation.tokensOf (fs ++ [d]) ≠ [] := by simp [htokens]
  rcases h hne ifElseRule ifElseRule_mem rfl _ (htokens ▸ hrival) with hless | ⟨-, i, hi, hfirst⟩
  · omega
  · obtain ⟨⟨j, q⟩, hj, hq, hlt⟩ := rules_ifElseRule_lt (i, ifRule) hi rfl
    have := hfirst j (hq ▸ hj)
    omega

/-! ## Trees -/

/-- The statement is an `if` with an alternate, or its last statement is one, through consequents and the
bodies of loops. -/
inductive EndsInElse : Tree → Prop where
  | alternate {i : Info} {test consequent alternate : Tree} : alternate ≠ .null →
      EndsInElse (.node i (.known .ifStatement) [test, consequent, alternate])
  | consequent {i : Info} {test consequent : Tree} : EndsInElse consequent →
      EndsInElse (.node i (.known .ifStatement) [test, consequent, .null])
  | whileBody {i : Info} {test body : Tree} : EndsInElse body →
      EndsInElse (.node i (.known .whileStatement) [test, body])
  | forBody {i : Info} {init test update body : Tree} : EndsInElse body →
      EndsInElse (.node i (.known .forStatement) [init, test, update, body])
  | forInBody {i : Info} {left right body : Tree} : EndsInElse body →
      EndsInElse (.node i (.known .forInStatement) [left, right, body])

theorem assemble_kind (h : assemble file form span parts = .ok [t]) :
    form.kind? = t.kind? ∨
      (form ≠ .block ∧ form ≠ .forStatement) ∧ ∃ u, Built.treesOf parts = [u] ∧ u.kind? = t.kind? := by
  obtain ⟨hpass, hform⟩ | ⟨i, s, slots, heq, -, -, ⟨k, hk, rfl⟩ | ⟨rfl, j, hj⟩⟩ := assemble_cases h
  · exact .inr ⟨hform, t, hpass.symm, rfl⟩
  · cases heq
    exact .inl hk
  · cases heq
    exact .inr ⟨⟨nofun, nofun⟩, _, hj, by cases s <;> rfl⟩

/-! ## What makes the statements of these kinds -/

/-- Whether a statement of this kind can end in an `else`. -/
def opens : Kind → Bool
  | .ifStatement | .whileStatement | .forStatement | .forInStatement => true
  | _ => false

theorem EndsInElse.opens (h : EndsInElse t) : t.kind?.any opens := by
  cases h <;> rfl

theorem opens_of_expression (h : Made.Proper .expression t) : t.kind?.any opens = false := by
  cases h with
  | identifier h => cases h; rfl
  | _ => rfl

theorem opens_of_declaration (h : Made.Proper .declaration t) : t.kind?.any opens = false := by
  cases h
  rfl

namespace Made

variable {ms : List Made}

/-- Whether what is of this sort has at least one tree. -/
def demands : Made → Bool
  | one _ | some _ | either _ _ | spelling _ | literal _ => true
  | nothing | optional _ | many _ => false

theorem countP_le_of_holdAll {ts : List Tree} (h : HoldAll ms ts) : ms.countP demands ≤ ts.length := by
  induction ms generalizing ts with
  | nil => exact Nat.zero_le _
  | cons m ms ih =>
    obtain ⟨us, vs, rfl, hus, hvs⟩ := h
    have hle := ih hvs
    rw [countP_cons, length_append]
    split
    · next hm =>
      have : 0 < us.length := by
        cases m <;> simp_all [demands, Holds] <;> grind
      omega
    · omega

theorem exists_of_holdAll (h : HoldAll ms [t]) : ∃ m ∈ ms, m.Holds [t] := by
  induction ms with
  | nil => cases h
  | cons m ms ih =>
    obtain ⟨us, vs, heq, hus, hvs⟩ := h
    rcases us with _ | ⟨u, us⟩
    · obtain ⟨m', hm', h⟩ := ih (heq ▸ hvs)
      exact ⟨m', .tail _ hm', h⟩
    · obtain ⟨rfl, hnil⟩ := List.cons.inj heq
      obtain ⟨rfl, -⟩ := append_eq_nil_iff.mp hnil.symm
      exact ⟨m, .head _, hus⟩

end Made

/-- The sorts of statements. -/
def statementSorts : List Nonterminal :=
  [.block, .varStatement, .functionDeclaration, .returnStatement, .ifStatement, .forStatement,
   .forInStatement, .whileStatement, .doWhileStatement, .breakStatement, .continueStatement,
   .throwStatement, .tryStatement, .emptyStatement, .expressionStatement]

theorem statement_rules : ∀ p ∈ grammar.productions, p.head = .statement → (match p.body with
      | [.nonterminal n] => decide (p = statementRule n ∧ n ∈ statementSorts)
      | _ => false) = true := by
  decide +kernel

/-- A production of a statement that passes a tree on passes an expression or a declaration on. -/
theorem passing_rules : ∀ p ∈ grammar.productions, p.head ∈ statementSorts →
    p.action ≠ .keyName ∧ (p.action = .block ∨ p.action = .forStatement ∨
      2 ≤ (p.body.map madeBy).countP Made.demands ∨
      ∀ s ∈ p.body, madeBy s ∈ [Made.nothing, .one .expression, .one .declaration]) := by
  decide +kernel

theorem opens_of_passed (hp : p ∈ grammar.productions) (hsort : p.head ∈ statementSorts) (hblock : p.action ≠ .block)
    (hfor : p.action ≠ .forStatement) (h : Made.HoldAll (p.body.map madeBy) [t]) : t.kind?.any opens = false := by
  rcases ((passing_rules p hp hsort).2.resolve_left hblock).resolve_left hfor with htwo | hone
  · have hle := Made.countP_le_of_holdAll h
    rw [length_singleton] at hle
    omega
  · obtain ⟨m, hm, hholds⟩ := Made.exists_of_holdAll h
    obtain ⟨s, hs, rfl⟩ := mem_map.mp hm
    have hmade := hone s hs
    simp only [mem_cons, not_mem_nil, or_false] at hmade
    rcases hmade with hmade | hmade | hmade
    · rw [hmade] at hholds
      cases hholds
    · rw [hmade] at hholds
      obtain ⟨u, hu, hproper⟩ := hholds
      exact (List.cons.inj hu).1 ▸ opens_of_expression hproper
    · rw [hmade] at hholds
      obtain ⟨u, hu, hproper⟩ := hholds
      exact (List.cons.inj hu).1 ▸ opens_of_declaration hproper

/-- A statement that is made by a production with these parts. -/
structure MadeBy (file : Text) (p : Rule) (ds : List Deriv)
    (parts : List Built) (c : Tree) : Prop where
  mem : p ∈ grammar.productions
  statement : statementRule p.head ∈ grammar.productions
  built : buildAll file ds = .ok parts
  assembled : assemble file p.action (Built.spanOf parts) parts = .ok [c]
  kind : p.action.kind? = c.kind?

theorem build_branch_ok (h : build file (.branch p ds) = .ok b) (hword : p.action ≠ .keyName) :
    ∃ parts, buildAll file ds = .ok parts ∧
      assemble file p.action (Built.spanOf parts) parts = .ok b.trees := by
  rw [build_branch_eq] at h
  obtain ⟨parts, hparts, h⟩ := bind_ok.mp h
  rw [if_neg hword] at h
  obtain ⟨us, hus, rfl⟩ := map_ok.mp h
  exact ⟨parts, hparts, hus⟩

theorem build_inline (hform : p.action = .inline) (h : build file (.branch p [d]) = .ok b) :
    ∃ b', build file d = .ok b' ∧ b.trees = b'.trees := by
  obtain ⟨parts, hparts, htrees⟩ := build_branch_ok h (by rw [hform]; nofun)
  obtain ⟨b', hb', hparts⟩ := bind_ok.mp hparts
  cases hparts
  rw [hform] at htrees
  exact ⟨b', hb', (Except.ok.inj htrees).symm.trans (append_nil _)⟩

/-- A tree of a kind that can end in an `else` is made by a production for that kind. -/
theorem madeBy_of_build (hts : ∀ t ∈ ts, Spells t.terminal t.text)
    (hd : grammar.Derives (.nonterminal .statement) d ts) (hb : build file d = .ok b) (hc : b.trees = [c])
    (hopens : c.kind?.any opens) :
    ∃ p ds parts, MadeBy file p ds parts c ∧ grammar.DerivesAll p.body ds ts ∧
      d.score = Derivation.scores ds + p.priority := by
  obtain ⟨q, es, hq, hhead, rfl, hes⟩ := derives_nonterminal hd
  have hrule := statement_rules q hq hhead
  split at hrule
  · next n hbody =>
    obtain ⟨rfl, hsort⟩ : q = statementRule n ∧ n ∈ statementSorts := of_decide_eq_true hrule
    obtain _ | ⟨hn, _ | _⟩ := hes
    obtain ⟨p, ds, hp, rfl, rfl, hds⟩ := derives_nonterminal hn
    rw [append_nil] at hts ⊢
    have hword := (passing_rules p hp hsort).1
    obtain ⟨b', hb', htrees⟩ := build_inline rfl hb
    obtain ⟨parts, hparts, hus⟩ := build_branch_ok hb' hword
    rw [← htrees, hc] at hus
    refine ⟨p, ds, parts, ⟨hp, hq, hparts, hus, ?_⟩, hds, ?_⟩
    · refine (assemble_kind hus).resolve_right ?_
      rintro ⟨⟨hblock, hfor⟩, u, hu, hkind⟩
      have hmade := buildAll_made file hts hds
      rw [hparts] at hmade
      have hall := holdAll_trees hmade
      rw [hu] at hall
      rw [← hkind, opens_of_passed hp hsort hblock hfor hall] at hopens
      cases hopens
    · simp [Derivation.score, Derivation.scores, statementRule, choiceRule]
  · cases hrule

/-! ## Statements that end in an `else` -/

def whileRule : Rule :=
  endingRule .whileStatement
    [Terminal.while, Terminal.openParen, Nonterminal.expression, Terminal.closeParen] .whileStatement

def forRule : Rule :=
  endingRule .forStatement
    [Terminal.for, Terminal.openParen, Nonterminal.forInit, Terminal.semicolon, Nonterminal.forTest,
     Terminal.semicolon, Nonterminal.forUpdate, Terminal.closeParen] .forStatement

def forInRule : Rule :=
  endingRule .forInStatement
    [Terminal.for, Terminal.openParen, Nonterminal.forInLeft, Terminal.in, Nonterminal.expression,
     Terminal.closeParen] .forInStatement

/-- The productions that end with a statement. -/
def openRules : List Rule := [ifRule, whileRule, forRule, forInRule]

theorem open_rules : ∀ p ∈ grammar.productions, p.action.kind?.any opens →
    p = ifElseRule ∨ p ∈ openRules := by
  decide +kernel

/-- What a statement ends with, that its last statement ends with. -/
theorem endsInElse_last (hp : p ∈ openRules) (hbody : p.body = front ++ [.nonterminal .statement])
    (hparts : List.Forall₂ (fun s b => (madeBy s).Holds b.trees) front parts) {last : Tree}
    (hlast : b.trees = [last]) (hc : assemble file p.action span (parts ++ [b]) = .ok [c]) (h : EndsInElse c) :
    EndsInElse last := by
  have htrees : Built.treesOf (parts ++ [b]) = Built.treesOf parts ++ [last] := by
    simp [Built.treesOf, hlast]
  have hall := holdAll_trees hparts
  simp only [openRules, mem_cons, not_mem_nil, or_false] at hp
  unfold assemble at hc
  rw [htrees] at hc
  rcases hp with rfl | rfl | rfl | rfl
  · obtain rfl := append_cancel_right hbody
    obtain ⟨_, _, heq, rfl, _, _, rfl, rfl, _, _, rfl, ⟨test, rfl, -⟩, _, _, rfl, rfl, rfl⟩ := hall
    rw [heq] at hc
    cases hc
    cases h with
    | alternate hne => exact absurd rfl hne
    | consequent h => exact h
  · obtain rfl := append_cancel_right hbody
    obtain ⟨_, _, heq, rfl, _, _, rfl, rfl, _, _, rfl, ⟨test, rfl, -⟩, _, _, rfl, rfl, rfl⟩ := hall
    rw [heq] at hc
    cases hc
    cases h with
    | whileBody h => exact h
  · have hlength := hparts.length_eq
    obtain rfl := append_cancel_right hbody
    have hbody : Built.orNull (parts ++ [b]) 8 = last := by
      simp [Built.orNull, ← hlength, hlast]
    rw [hbody] at hc
    cases hc
    cases h with
    | forBody h => exact h
  · obtain rfl := append_cancel_right hbody
    obtain ⟨_, _, heq, rfl, _, _, rfl, rfl, _, _, rfl, ⟨left, rfl, -⟩, _, _, rfl, ⟨op, rfl, -⟩, _, _, rfl,
      ⟨right, rfl, -⟩, _, _, rfl, rfl, rfl⟩ := hall
    rw [heq] at hc
    cases hc
    cases h with
    | forInBody h => exact h

theorem body_of_openRule (hp : p ∈ openRules) :
    p.priority = 0 ∧ ∃ a front, p.body = (.terminal a :: front) ++ [.nonterminal .statement] := by
  simp only [openRules, mem_cons, not_mem_nil, or_false] at hp
  rcases hp with rfl | rfl | rfl | rfl <;> exact ⟨rfl, _, _, rfl⟩

theorem buildAll_append {es : List Deriv}
    (h : buildAll file (ds ++ es) = .ok parts) :
    ∃ bs cs, parts = bs ++ cs ∧ buildAll file ds = .ok bs ∧ buildAll file es = .ok cs := by
  induction ds generalizing parts with
  | nil => exact ⟨[], parts, rfl, rfl, h⟩
  | cons d ds ih =>
    rw [cons_append, buildAll] at h
    obtain ⟨b, hb, h⟩ := bind_ok.mp h
    obtain ⟨rest, hrest, h⟩ := bind_ok.mp h
    cases h
    obtain ⟨bs, cs, rfl, hbs, hcs⟩ := ih hrest
    exact ⟨b :: bs, cs, rfl, by rw [buildAll, hb, hbs]; rfl, hcs⟩

/-- The last statement of a production that ends with one: its derivation, and its tree. -/
theorem last_statement (hts : ∀ t ∈ ts, Spells t.terminal t.text)
    (hds : grammar.DerivesAll (front ++ [.nonterminal .statement]) ds ts)
    (hparts : buildAll file ds = .ok parts) :
    ∃ fs d us vs bs b last, ds = fs ++ [d] ∧ ts = us ++ vs ∧ grammar.DerivesAll front fs us ∧
      grammar.Derives (.nonterminal .statement) d vs ∧ parts = bs ++ [b] ∧
      List.Forall₂ (fun s b => (madeBy s).Holds b.trees) front bs ∧ build file d = .ok b ∧
      b.trees = [last] := by
  obtain ⟨fs, _, us, _, rfl, rfl, hfs, hrest⟩ := derivesAll_split hds
  obtain _ | ⟨hd, _ | _⟩ := hrest
  rw [append_nil] at hts ⊢
  obtain ⟨hus, hvs⟩ := forall_mem_append.mp hts
  obtain ⟨bs, cs, rfl, hbs, hcs⟩ := buildAll_append hparts
  obtain ⟨b, hb, hcs⟩ := bind_ok.mp hcs
  cases hcs
  have hfront := buildAll_made file hus hfs
  have hmade := build_made file hvs hd
  rw [hbs] at hfront
  rw [hb] at hmade
  obtain ⟨last, hlast, -⟩ := hmade
  exact ⟨fs, _, us, _, bs, b, last, rfl, rfl, hfs, hd, rfl, hfront, hb, hlast⟩

/-- **A statement whose tree ends in an `else`** gives that `else` away: what comes before it is a
statement too. -/
theorem splits_of_endsInElse (hts : ∀ t ∈ ts, Spells t.terminal t.text)
    (hd : grammar.Derives (.nonterminal .statement) d ts) (hb : build file d = .ok b) (hc : b.trees = [c])
    (h : EndsInElse c) : Splits ts d.score := by
  -- the last statement has fewer tokens
  induction hn : ts.length using Nat.strong_induction_on generalizing d ts b c with
  | _ n ih =>
    subst hn
    obtain ⟨p, ds, parts, hmade, hds, hscore⟩ := madeBy_of_build hts hd hb hc h.opens
    rcases open_rules p hmade.mem (hmade.kind ▸ h.opens) with rfl | hopen
    · exact hscore ▸ splits_ifElse hds
    · obtain ⟨hpriority, a, front, hbody⟩ := body_of_openRule hopen
      have hassembled := hmade.assembled
      rw [hbody] at hds
      obtain ⟨fs, e, us, vs, bs, b', last, rfl, rfl, hfs, he, rfl, hfront, hb', hlast⟩ :=
        last_statement hts hds hmade.built
      have hends := endsInElse_last hopen hbody hfront hlast hassembled h
      have hlt : vs.length < (us ++ vs).length := by
        cases hfs with
        | cons hleaf _ =>
          obtain ⟨t, -, -, rfl⟩ := derives_terminal hleaf
          simp only [length_append, length_singleton]
          omega
      have hsplits := ih vs.length hlt (forall_mem_append.mp hts).2 he hb' hlast hends rfl
      have := hsplits.behind hmade.mem hpriority hmade.statement hbody hfs
      rw [hscore, hpriority, Derivation.scores_append, Derivation.scores, Derivation.scores]
      exact this

/-! ## All nodes of a tree -/

section

variable {P : Tree → Prop}
variable {file : Text}

/-- A property of nodes that says nothing of nodes other than `if`s and identifiers, and nothing of the
locations of `if`s. -/
structure Selective (P : Tree → Prop) : Prop where
  relocated : ∀ i j s slots, s ≠ .known .identifier → P (.node i s slots) → P (.node j s slots)
  other : ∀ i k slots, k ≠ .ifStatement → k ≠ .identifier → P (.node i (.known k) slots)

theorem Selective.kids (hP : Selective P) {trees kids : List Tree} (h : Kids form trees kids)
    (htrees : ∀ n ∈ contentsOf trees, P n) : ∀ n ∈ kids, P n := by
  cases h with
  | ordered hsub => exact fun n hn => htrees n (hsub.subset hn)
  | shorthand name => simpa [or_imp, forall_and] using htrees
  | declarator kind name =>
    have hname : ∀ n ∈ name.contents, P n := fun n hn => htrees n (by simp [hn])
    simpa [Tree.mk, hP.other, Shape.fields, Kind.layout] using hname

/-- The forms keep such a property, but for the nodes of `if`s that they make. The only form that changes the
location of a node is not given identifiers. -/
theorem Selective.assemble (hP : Selective P) {span : Option Span} {ts : List Tree}
    (h : assemble file form span parts = .ok ts) (hparts : ∀ n ∈ contentsOf (Built.treesOf parts), P n)
    (hif : form = .ifStatement → ∀ i slots,
      ts = [.node i (.known .ifStatement) slots] → P (.node i (.known .ifStatement) slots))
    (hvar : form = .varStatement → ∀ t ∈ Built.treesOf parts, t.is .identifier = false) :
    ∀ n ∈ contentsOf ts, P n := by
  obtain ⟨rfl, -⟩ | ⟨i, s, slots, rfl, -, hkids, hkind⟩ := assemble_cases h
  · exact hparts
  · rw [contentsOf_cons, contentsOf_nil, append_nil, contents_node]
    refine forall_mem_cons.mpr ⟨?_, hP.kids hkids hparts⟩
    obtain ⟨k, hk, rfl⟩ | ⟨rfl, j, hj⟩ := hkind
    · by_cases hform : form = .ifStatement
      · subst hform
        cases hk
        exact hif rfl i slots rfl
      · refine hP.other i k slots ?_ ?_ <;> rintro rfl <;> cases form <;> simp_all [Form.kind?]
    · rw [hj] at hparts hvar
      refine hP.relocated j i s slots ?_ (hparts _ (by simp))
      rintro rfl
      cases hvar rfl _ (.head _)

/-- A word that stands for a name has the property as an identifier. -/
def WordsHave (file : Text) (P : Tree → Prop) (ts : List Token) : Prop :=
  ∀ t ∈ ts, t.terminal ∈ propertyWords → P (.identifier t.text (some (tokenLocation file t)))

theorem Selective.ofToken (hP : Selective P) {t : Token} {ts : List Tree}
    (h : ofToken file t = .ok ts) (hword : WordsHave file P [t]) : ∀ u ∈ contentsOf ts, P u := by
  unfold Script.ofToken at h
  split at h
  case h_1 hident =>
    cases h
    have hname := hword t (.head _) (by rw [hident]; decide)
    simpa [Tree.identifier, Tree.mk, Shape.fields, Kind.layout] using hname
  case h_2 =>
    obtain ⟨v, -, rfl⟩ := map_ok.mp h
    simp [literal, Tree.mk, Shape.fields, Kind.layout, hP.other]
  all_goals cases h
  all_goals simp [literal, Tree.mk, Shape.fields, Kind.layout, hP.other]

theorem holds_nameOfWord {k : Terminal} (hk : k ∈ propertyWords)
    (hds : grammar.DerivesAll [.terminal k] ds ts) (hwords : WordsHave file P ts) :
    ∀ n ∈ contentsOf (nameOfWord file ds), P n := by
  obtain _ | ⟨hd, _ | _⟩ := hds
  cases hd with
  | leaf t =>
    have hname := hwords t (.head _) hk
    simpa [Script.nameOfWord, Tree.identifier, Tree.mk, Shape.fields, Kind.layout] using hname

theorem keyName_rules (hp : p ∈ grammar.productions) (h : p.action = .keyName) :
    ∃ k ∈ propertyWords, p.body = [.terminal k] := by
  have htyped := all_eq_true.mp typed_productions p hp
  unfold typed at htyped
  dsimp only at htyped
  rw [if_neg (by rw [h]; decide), if_pos h] at htyped
  obtain ⟨k, hk, hbody⟩ := any_eq_true.mp htyped
  exact ⟨k, hk, of_decide_eq_true (Bool.and_eq_true_iff.mp hbody).1⟩

theorem varStatement_rules : ∀ p ∈ grammar.productions, p.action = .varStatement →
    p.body = [.nonterminal .varDeclaration, .terminal .semicolon] := by
  decide +kernel

/-- What becomes a statement of variables is no identifier. -/
theorem not_identifier_of_varStatement (hp : p ∈ grammar.productions) (hform : p.action = .varStatement)
    (hts : ∀ t ∈ ts, Spells t.terminal t.text) (hds : grammar.DerivesAll p.body ds ts)
    (hparts : buildAll file ds = .ok parts) : ∀ t ∈ Built.treesOf parts, t.is .identifier = false := by
  have hmade := buildAll_made file hts hds
  rw [hparts, varStatement_rules p hp hform] at hmade
  obtain ⟨us, _, htrees, ⟨t, rfl, hproper⟩, _, _, rfl, rfl, rfl⟩ := holdAll_trees hmade
  rw [htrees]
  cases hproper
  exact forall_mem_singleton.mpr rfl

/-- The `if` that a branch makes has the property. -/
def MakesIf (file : Text) (P : Tree → Prop) (p : Rule)
    (ds : List Deriv) : Prop :=
  p ∈ grammar.productions → p.action = .ifStatement →
    ∀ ts, (∀ t ∈ ts, Spells t.terminal t.text) → grammar.DerivesAll p.body ds ts →
      ∀ parts, buildAll file ds = .ok parts → ∀ span i slots,
        assemble file p.action span parts = .ok [.node i (.known .ifStatement) slots] →
          P (.node i (.known .ifStatement) slots)

mutual

/-- What holds of the words of a derivation and of the `if`s that it makes holds of all nodes. -/
theorem holds_of_build (hP : Selective P) {file : Text} {s : Sym}
    {d : Deriv} {ts : List Token}
    (hts : ∀ t ∈ ts, Spells t.terminal t.text) (hwords : WordsHave file P ts)
    (hifs : ∀ p ds, (Derivation.branch p ds).Within d → MakesIf file P p ds) {b : Built} :
    grammar.Derives s d ts → build file d = .ok b → ∀ n ∈ contentsOf b.trees, P n
  | .leaf t, hb => by
    rw [build] at hb
    obtain ⟨us, hus, hb⟩ := bind_ok.mp hb
    cases hb
    exact hP.ofToken hus hwords
  | .branch (p := p) hp hds, hb => by
    have hchildren := fun d hd q es hwithin => hifs q es (.child (d := d) hd hwithin)
    by_cases hword : p.action = .keyName
    · rw [build_branch_eq, hword] at hb
      obtain ⟨parts, -, hb⟩ := bind_ok.mp hb
      cases hb
      obtain ⟨k, hk, hbody⟩ := keyName_rules hp hword
      exact holds_nameOfWord hk (hbody ▸ hds) hwords
    · obtain ⟨parts, hparts, hassembled⟩ := build_branch_ok hb hword
      refine hP.assemble hassembled (holds_of_buildAll hP hts hwords hchildren hds hparts) ?_
        fun hform => not_identifier_of_varStatement hp hform hts hds hparts
      rintro hform i slots htrees
      rw [htrees] at hassembled
      exact hifs _ _ (.self _) hp hform ts hts hds parts hparts _ i slots hassembled

theorem holds_of_buildAll (hP : Selective P) {file : Text} {ss : List Sym}
    {ds : List Deriv} {ts : List Token}
    (hts : ∀ t ∈ ts, Spells t.terminal t.text) (hwords : WordsHave file P ts)
    (hifs : ∀ d ∈ ds, ∀ p es, (Derivation.branch p es).Within d → MakesIf file P p es)
    {parts : List Built} : grammar.DerivesAll ss ds ts → buildAll file ds = .ok parts →
      ∀ n ∈ contentsOf (Built.treesOf parts), P n
  | .nil, hparts => by
    cases hparts
    exact nofun
  | .cons hd hds, hparts => by
    obtain ⟨hts, hus⟩ := forall_mem_append.mp hts
    obtain ⟨hwords, hwords'⟩ := forall_mem_append.mp hwords
    obtain ⟨hfirst, hrest⟩ := forall_mem_cons.mp hifs
    rw [buildAll] at hparts
    obtain ⟨b, hb, hparts⟩ := bind_ok.mp hparts
    obtain ⟨bs, hbs, hparts⟩ := bind_ok.mp hparts
    cases hparts
    rw [Built.treesOf, flatMap_cons, contentsOf_append]
    exact forall_mem_append.mpr ⟨holds_of_build hP hts hwords hfirst hd hb,
      holds_of_buildAll hP hus hwords' hrest hds hbs⟩

end

/-- What does not depend on numbers holds of the nodes of a tree with any. -/
theorem holds_numbered (hP : ∀ t : Tree, P t.unnumbered ↔ P t) (h : ∀ n ∈ t.nodes, P n) :
    ∀ n ∈ t.numbered.nodes, P n := by
  have hnodes := congrArg Tree.nodes t.unnumbered_numbered
  rw [Tree.unnumbered, Tree.unnumbered, Tree.nodes_mapInfo, Tree.nodes_mapInfo] at hnodes
  intro n hn
  obtain ⟨m, hm, heq⟩ := mem_map.mp (hnodes ▸ mem_map_of_mem hn)
  rw [← hP, Tree.unnumbered, ← heq]
  exact (hP m).mpr (h m hm)

end

/-- An `if` without alternate has no consequent that ends in an `else`. -/
def TakesElse (t : Tree) : Prop :=
  ∀ i test consequent, t = .node i (.known .ifStatement) [test, consequent, .null] →
    ¬ EndsInElse consequent

theorem selective_takesElse : Selective TakesElse where
  relocated i j s slots _ h k test consequent heq := by
    cases heq
    exact h i test consequent rfl
  other i k slots hk _ j test consequent heq := by
    cases heq
    exact absurd rfl hk

/-! ## Scripts -/

theorem mapInfo_eq_null : t.mapInfo f = .null ↔ t = .null := by
  cases t <;> simp [Tree.null]

theorem mapInfo_eq_node {s : Shape} {slots : List Tree} (h : t.mapInfo f = .node i s slots) :
    ∃ j us, t = .node j s us ∧ us.map (Tree.mapInfo f) = slots := by
  cases t with
  | node j s' us =>
    rw [Tree.mapInfo_node] at h
    cases h
    exact ⟨j, us, rfl, rfl⟩
  | list items => rw [Tree.mapInfo_list] at h; cases h
  | scalar | object => cases h

theorem EndsInElse.mapInfo (f : Info → Info) (h : EndsInElse t) : EndsInElse (t.mapInfo f) := by
  induction h with
  | alternate hne => simpa using .alternate (mapInfo_eq_null.not.mpr hne)
  | consequent _ ih => simpa using .consequent ih
  | whileBody _ ih => simpa using .whileBody ih
  | forBody _ ih => simpa using .forBody ih
  | forInBody _ ih => simpa using .forInBody ih

theorem EndsInElse.of_mapInfo (h : EndsInElse (t.mapInfo f)) : EndsInElse t := by
  generalize hu : t.mapInfo f = u at h
  induction h generalizing t with
  | alternate hne =>
    obtain ⟨j, us, rfl, hus⟩ := mapInfo_eq_node hu
    simp only [map_eq_cons_iff, map_eq_nil_iff] at hus
    obtain ⟨_, _, rfl, -, _, _, rfl, -, a, _, rfl, rfl, rfl⟩ := hus
    exact .alternate (mapInfo_eq_null.not.mp hne)
  | consequent _ ih =>
    obtain ⟨j, us, rfl, hus⟩ := mapInfo_eq_node hu
    simp only [map_eq_cons_iff, map_eq_nil_iff] at hus
    obtain ⟨_, _, rfl, -, _, _, rfl, hc, a, _, rfl, ha, rfl⟩ := hus
    obtain rfl := mapInfo_eq_null.mp ha
    exact .consequent (ih hc)
  | whileBody _ ih =>
    obtain ⟨j, us, rfl, hus⟩ := mapInfo_eq_node hu
    simp only [map_eq_cons_iff, map_eq_nil_iff] at hus
    obtain ⟨_, _, rfl, -, _, _, rfl, hb, rfl⟩ := hus
    exact .whileBody (ih hb)
  | forBody _ ih =>
    obtain ⟨j, us, rfl, hus⟩ := mapInfo_eq_node hu
    simp only [map_eq_cons_iff, map_eq_nil_iff] at hus
    obtain ⟨_, _, rfl, -, _, _, rfl, -, _, _, rfl, -, _, _, rfl, hb, rfl⟩ := hus
    exact .forBody (ih hb)
  | forInBody _ ih =>
    obtain ⟨j, us, rfl, hus⟩ := mapInfo_eq_node hu
    simp only [map_eq_cons_iff, map_eq_nil_iff] at hus
    obtain ⟨_, _, rfl, -, _, _, rfl, -, _, _, rfl, hb, rfl⟩ := hus
    exact .forInBody (ih hb)

theorem takesElse_mapInfo (t : Tree) : TakesElse (t.mapInfo f) ↔ TakesElse t := by
  constructor
  · rintro h i test consequent rfl hends
    exact h (f i) (test.mapInfo f) _ (by simp [Tree.null]) (hends.mapInfo f)
  · intro h i test consequent heq hends
    obtain ⟨j, us, rfl, hus⟩ := mapInfo_eq_node heq
    simp only [map_eq_cons_iff, map_eq_nil_iff] at hus
    obtain ⟨_, _, rfl, -, c, _, rfl, rfl, a, _, rfl, ha, rfl⟩ := hus
    obtain rfl := mapInfo_eq_null.mp ha
    exact h j _ _ rfl hends.of_mapInfo

theorem alternate_of_ifElse
    (hparts : List.Forall₂ (fun s b => (madeBy s).Holds b.trees) ifElseRule.body parts) {alternate : Tree}
    (h : assemble file .ifStatement span parts = .ok [.node i (.known .ifStatement) [test, consequent, alternate]]) :
    alternate ≠ .null := by
  obtain ⟨_, _, heq, rfl, _, _, rfl, rfl, _, _, rfl, ⟨test, rfl, -⟩, _, _, rfl, rfl, _, _, rfl,
    ⟨consequent, rfl, -⟩, _, _, rfl, rfl, _, _, rfl, ⟨alternate, rfl, hproper⟩, rfl⟩ := holdAll_trees hparts
  unfold assemble at h
  rw [heq] at h
  cases h
  rintro rfl
  cases hproper with
  | blockStatement h => cases h
  | declarationStatement h => cases h

/-- The consequent of an `if` without alternate does not end in an `else`. -/
theorem not_endsInElse_of_preferred (hp : p ∈ grammar.productions) (hform : p.action = .ifStatement)
    (hts : ∀ t ∈ ts, Spells t.terminal t.text) (hds : grammar.DerivesAll p.body ds ts)
    (hpreferred : grammar.Preferred p ds) (hparts : buildAll file ds = .ok parts)
    (h : assemble file p.action span parts = .ok [.node i (.known .ifStatement) [test, consequent, .null]]) :
    ¬ EndsInElse consequent := by
  intro hends
  rcases open_rules p hp (by rw [hform]; rfl) with rfl | hopen
  · have hmade := buildAll_made file hts hds
    rw [hparts] at hmade
    exact alternate_of_ifElse hmade h rfl
  · obtain rfl : p = ifRule := by
      simp only [openRules, mem_cons, not_mem_nil, or_false] at hopen
      rcases hopen with rfl | rfl | rfl | rfl
      · rfl
      all_goals cases hform
    obtain ⟨fs, d, us, vs, bs, b, last, rfl, rfl, hfs, hd, rfl, hfront, hb, hlast⟩ :=
      last_statement (show ∀ t ∈ ts, _ from hts) (show grammar.DerivesAll (ifFront ++ _) _ _ from hds) hparts
    have hends := endsInElse_last hopen rfl hfront hlast h (.consequent hends)
    exact not_splits_of_preferred hfs hd hpreferred
      (splits_of_endsInElse (forall_mem_append.mp hts).2 hd hb hlast hends)

theorem parse_of_derive (h : derive file source = .ok d) :
    grammar.parse (lex source).tokens = .ok d := by
  unfold derive at h
  dsimp only at h
  split at h
  · cases h
  · cases h
  · cases h
  · next hparse _ =>
    cases h
    exact hparse

/-- What holds of the words of a script and of the `if`s that preferred derivations make holds of all nodes
of its tree. -/
theorem holds_of_parse {P : Tree → Prop} (hP : Selective P)
    (hnumber : ∀ t : Tree, P t.unnumbered ↔ P t)
    (h : parse file source = .ok t) (hwords : WordsHave file P (lex source).tokens)
    (hifs : ∀ p ds, grammar.Preferred p ds → MakesIf file P p ds) : ∀ n ∈ t.nodes, P n := by
  obtain ⟨d, hd, h⟩ := bind_ok.mp h
  have hparse := parse_of_derive hd
  cases hb : build file d with
  | error f =>
    rw [hb] at h
    cases h
  | ok b =>
    rw [hb] at h
    cases h
    have htrees := holds_of_build hP (fun t ht => spells_of_mem_lex ht) hwords
      (fun p ds hwithin => hifs p ds (parse_preferred orderly hparse hwithin)) (derives_of_parse hparse) hb
    refine holds_numbered hnumber fun n hn => ?_
    cases hus : b.trees with
    | nil =>
      rw [hus] at hn
      cases hn
    | cons u us =>
      rw [hus] at hn htrees
      exact htrees n (mem_append_left _ ((nodes_sublist_contents u).subset hn))

/-- **An `else` belongs to the outermost `if` that can take it**: where an `if` has no alternate, its
consequent does not end in an `if` that has one. -/
theorem outermost_else (h : parse file source = .ok t)
    (hif : .node i (.known .ifStatement) [test, consequent, .null] ∈ t.nodes) : ¬ EndsInElse consequent := by
  refine holds_of_parse selective_takesElse takesElse_mapInfo h (fun u _ _ => ?_)
    (fun p ds hpreferred => ?_) _ hif i test consequent rfl
  · intro i test consequent heq
    cases heq
  · intro hp hform us hus hds parts hparts span i slots hassembled j test consequent heq
    cases heq
    exact not_endsInElse_of_preferred hp hform hus hds hpreferred hparts hassembled

theorem exists_of_map {α : Type} {g : Tree → α} {r : Except Fault Tree} {u : α} (h : r.toOption.map g = some u) :
    ∃ t, r = .ok t ∧ g t = u := by
  cases r with
  | error f => cases h
  | ok t => exact ⟨t, rfl, Option.some.inj h⟩

/-- The `else` belongs to the first `if`, though the second is nearer. -/
theorem else_of_first_if : let name (x : Text) : Tree := .node {} (.known .identifier) [.text x]
    let empty : Tree := .node {} (.known .emptyStatement) []
    ∃ t, parse "a.js" "if(a)if(b);else;" = .ok t ∧
      t.bare = .node {} (.known .program) [.list [.node {} (.known .ifStatement)
        [name "a", .node {} (.known .ifStatement) [name "b", empty, .null], empty]]] :=
  exists_of_map (by decide +kernel)

end ArrowFree.Script
