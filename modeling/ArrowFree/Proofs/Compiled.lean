import ArrowFree.Compiler
import ArrowFree.Proofs.Emitted
import ArrowFree.Proofs.LoweredParts
import ArrowFree.Proofs.Making
import ArrowFree.Proofs.Numbering
import ArrowFree.Proofs.Run

/-!
# Compiling

A script that is parsed is a proper program, which can be dumped, analysed, lowered and printed
(`lowerScript_of_parse`). So compiling has two outcomes: code with warnings, or one error of the source
(`compile_cases`). What is said of the emitted code is read off that.
-/

namespace ArrowFree

open Lowering Token
open List hiding lex

variable {K : Kind → Prop} {p : Part} {t : Tree}
variable {source : Text} {o options : CompileOptions} {i : Info} {slots : List Tree}

/-! ## Dumps -/

namespace Sexpr

variable {located : Bool} {ts : List Tree}

theorem areNamed_append (es fs : List Sexpr) :
    areNamed (es ++ fs) = (areNamed es && areNamed fs) := by
  induction es with
  | nil => rfl
  | cons e es ih => rw [cons_append, areNamed, areNamed, ih, Bool.and_assoc]

theorem areNamed_ofLocation (located : Bool) (l : Option Location) :
    areNamed (ofLocation located l) = true := by
  unfold ofLocation
  split <;> rfl

theorem isNamed_ofScalar (s : Scalar) : (ofScalar s).isNamed = true := by
  cases s with
  | bool b => cases b <;> rfl
  | _ => rfl

theorem areNamed_ofItems (h : ∀ t ∈ ts, (ofTree located t).isNamed = true) :
    areNamed (ofItems located ts) = true := by
  induction ts with
  | nil => rfl
  | cons t ts ih =>
    rw [ofItems, areNamed, h t (.head _), ih fun u hu => h u (.tail _ hu)]
    rfl

theorem areNamed_ofSlots {fs : List Field} (h : ∀ t ∈ ts, (ofTree located t).isNamed = true) :
    areNamed (ofSlots located fs ts) = true := by
  induction fs generalizing ts with
  | nil => cases ts <;> rfl
  | cons f fs ih =>
    cases ts with
    | nil => rfl
    | cons t ts =>
      rw [ofSlots, areNamed, areNamed, h t (.head _), ih fun u hu => h u (.tail _ hu)]
      rfl

theorem isNamed_node {k : Kind} (h : ∀ t ∈ slots, (ofTree located t).isNamed = true) :
    (ofTree located (.node i (.known k) slots)).isNamed = true := by
  rw [ofTree, isNamed, areNamed_append, areNamed, areNamed_ofSlots h, areNamed_ofLocation]
  rfl

end Sexpr

/-- What a slot holds: a scalar, or trees with a property. -/
inductive Holding (P : Tree → Prop) : Tree → Prop where
  | scalar (x : Scalar) : Holding P (.scalar x)
  | node {i : Info} {s : Shape} {slots : List Tree} : P (.node i s slots) → Holding P (.node i s slots)
  | list {us : List Tree} : (∀ u ∈ us, P u) → Holding P (.list us)

namespace Formed

theorem shape (h : Formed K p t) {s : Shape} (ht : t = .node i s slots) : ∃ k, s = .known k := by
  induction h with
  | absent => cases ht
  | present _ ih | wordKey _ ih | identifier _ ih | target _ _ ih | blockStatement _ ih
  | declarationStatement _ ih | initialDeclaration _ ih | initialExpression _ ih | iteratedTarget _ ih => exact ih ht
  | _ => cases ht; exact ⟨_, rfl⟩

theorem not_object (h : Formed K p t) (fields : List (Text × Document)) : t ≠ .object fields := by
  induction h with
  | present _ ih | wordKey _ ih | identifier _ ih | target _ _ ih | blockStatement _ ih
  | declarationStatement _ ih | initialDeclaration _ ih | initialExpression _ ih | iteratedTarget _ ih => exact ih
  | _ => nofun

/-- Induction over a proper tree: what a slot of a node holds is a scalar, or proper trees. -/
theorem held_induction {P : Tree → Prop} (scalar : ∀ x, P (.scalar x))
    (node : ∀ p i k slots, Formed K p (.node i (.known k) slots) → (∀ u ∈ slots, Holding P u) →
      P (.node i (.known k) slots)) {p : Part} {t : Tree} (h : Formed K p t) : P t := by
  match t with
  | .scalar x => exact scalar x
  | .object fields => exact absurd rfl (h.not_object fields)
  | .list us => exact absurd rfl (h.not_list us)
  | .node i s slots =>
    obtain ⟨k, rfl⟩ := h.shape rfl
    refine node p i k slots h fun u hu => ?_
    rcases h.held rfl u hu with ⟨x, rfl⟩ | ⟨q, -, hform | ⟨us, rfl, hform⟩⟩
    · exact .scalar x
    · match u with
      | .scalar x => exact .scalar x
      | .object fields => exact absurd rfl (hform.not_object fields)
      | .list us => exact absurd rfl (hform.not_list us)
      | .node i s slots => exact .node (held_induction scalar node hform)
    · exact .list fun v hv => held_induction scalar node (hform v hv)
termination_by sizeOf t
decreasing_by
  · have := sizeOf_lt_of_mem hu
    simp only [Tree.node.sizeOf_spec] at *
    omega
  · have := sizeOf_lt_of_mem hu
    have := sizeOf_lt_of_mem hv
    simp only [Tree.node.sizeOf_spec, Tree.list.sizeOf_spec] at *
    omega

theorem isNamed (h : Formed K p t) (located : Bool) : (Sexpr.ofTree located t).isNamed = true := by
  refine h.held_induction (P := fun t => (Sexpr.ofTree located t).isNamed = true) Sexpr.isNamed_ofScalar
    fun _ i k slots _ hheld => Sexpr.isNamed_node fun u hu => ?_
  cases hheld u hu with
  | scalar x => exact Sexpr.isNamed_ofScalar x
  | node h => exact h
  | list h => exact Sexpr.areNamed_ofItems h

theorem sexpr_ok (h : Formed K p t) : ∃ text, t.sexpr false true = .ok text := by
  unfold Tree.sexpr
  rw [if_pos rfl, if_pos (h.isNamed false)]
  exact ⟨_, rfl⟩

end Formed

/-! ## Printed code -/

namespace Printer

variable {a : Text}

theorem scans_closeLine {ws : List Word} (h : ∀ r, Follows lax r → Scans a ws r) :
    Scans (closeLine a) ws [] := by
  unfold closeLine
  split
  · exact h [] nofun
  · have hend : Scans [CodePoint.newline] [] [] :=
      Scans.blanks (fun c hc => mem_singleton.mp hc ▸ rfl) []
    have := (h [CodePoint.newline] (follows_cons rfl)).append hend
    rwa [append_nil] at this

/-- The printed part can be read back word by word. -/
theorem print_of_writes {indent : Text} (h : Writes (print indent 0 t) a (words t) lax)
    (map : Option SourceMap) : ∃ printed : Printed,
      t.print map indent = .ok printed ∧ (lex printed.code).stray = none ∧
        (lex printed.code).tokens.map Token.word = words t := by
  obtain ⟨ps, hps, rfl, hscans⟩ := h
  unfold Tree.print
  rw [hps]
  exact ⟨_, rfl, (scans_closeLine hscans).lex⟩

end Printer

theorem Formed.print_ok (h : Formed K .program t) (map : Option SourceMap) : ∃ printed : Printed,
    t.print map = .ok printed ∧ (lex printed.code).stray = none ∧
      (lex printed.code).tokens.map Token.word = Printer.words t := by
  have hindent : ∀ c ∈ Printer.defaultIndent, c.isBlank = true := all_eq_true.mp (by decide)
  obtain ⟨a, ha⟩ := h.prints hindent 0
  exact Printer.print_of_writes (ha.mono fun _ _ => rfl) map

/-! ## Scripts -/

theorem severity_warned (r : Report) (us : List Unresolved)
    (h : ∀ d ∈ r.diagnostics, d.severity = .warning) :
    ∀ d ∈ (Session.warned r us).diagnostics, d.severity = .warning := by
  induction us generalizing r with
  | nil => exact h
  | cons u us ih =>
    refine ih _ fun d hd => ?_
    rcases mem_append.mp hd with hd | hd
    · exact h d hd
    · rw [mem_singleton.mp hd]
      rfl

/-- What a script that is parsed is lowered to: a proper program without arrows, with one warning for
each unresolved reference. A strict session makes an error of the first of them instead. -/
structure LoweredTo (file source : Text) (program : Tree) (scopes : ScopeTable) (a : Analysis)
    (u : Tree) : Prop where
  distinct : program.Distinct
  scopes_eq : ScopeTable.ofTree program = .ok scopes
  analysis_eq : analyze scopes program = .ok a
  apply_eq : apply a program = (u, none)
  formed : Formed ArrowFreeKind .program u
  lowers : ∀ s : Session, (s.strict = true → a.unresolved = []) →
    (lowerScript s file source).2 = .ok u ∧
      (lowerScript s file source).1.report = Session.warned s.report a.unresolved
  refuses : ∀ s : Session, s.strict = true → ∀ x xs, a.unresolved = x :: xs →
    (lowerScript s file source).2 = .error (.source (s.unresolvedError x)) ∧
      (lowerScript s file source).1.report = s.report

theorem lowerScript_of_parse {file : Text} {program : Tree}
    (hparse : Script.parse file source = .ok program) :
    ∃ scopes a u, LoweredTo file source program scopes a u := by
  rcases (Script.parse_answers file source).cases with ⟨_, hparse', t, rfl, hform⟩ | ⟨e, hparse'⟩
  · obtain rfl : t.numbered = program := Except.ok.inj (hparse'.symm.trans hparse)
    have hdistinct := Tree.distinct_numbered t
    obtain ⟨scopes, a, u, hscopes, ha, happly, hu⟩ := Formed.lowerable hform hdistinct
    refine ⟨scopes, a, u, hdistinct, hscopes, ha, happly, hu, fun s hres => ?_, fun s hstrict x xs hxs => ?_⟩
    · unfold lowerScript
      rw [hparse]
      obtain ⟨hfault, htree, hreport⟩ := transform_of_lowerable
        (s := s.tell [.parsed file (statementCount t.numbered)])
        (fun _ => ⟨hform.sexpr_ok, hu.sexpr_ok⟩) ⟨hscopes, ha, hres, happly⟩
      simp only [hfault, htree, hreport, Session.tell_report, and_self]
    · unfold lowerScript
      rw [hparse]
      obtain ⟨hfault, hreport⟩ := transform_of_unresolved
        (s := s.tell [.parsed file (statementCount t.numbered)]) (fun _ => hform.sexpr_ok) hscopes ha
        hstrict hxs
      simp only [hfault, hreport, Session.tell_report, and_true]
      rfl
  · cases hparse'.symm.trans hparse

/-- A script is refused with an error of the source and an unchanged report, or it is lowered to a
proper program without arrows, with nothing but warnings. -/
theorem lowerScript_cases (s : Session) (file source : Text) :
    (∃ e, (lowerScript s file source).2 = .error (.source e) ∧
      (lowerScript s file source).1.report = s.report) ∨
    ∃ u us, (lowerScript s file source).2 = .ok u ∧ Formed ArrowFreeKind .program u ∧
      (lowerScript s file source).1.report = Session.warned s.report us := by
  rcases (Script.parse_answers file source).cases with ⟨program, hparse, -⟩ | ⟨e, hparse⟩
  · obtain ⟨scopes, a, u, h⟩ := lowerScript_of_parse hparse
    by_cases hres : s.strict = true → a.unresolved = []
    · obtain ⟨htree, hreport⟩ := h.lowers s hres
      exact .inr ⟨u, a.unresolved, htree, h.formed, hreport⟩
    · obtain ⟨hstrict, hne⟩ := Classical.not_imp.mp hres
      obtain ⟨x, xs, hxs⟩ := exists_cons_of_ne_nil hne
      exact .inl ⟨_, h.refuses s hstrict x xs hxs⟩
  · unfold lowerScript
    rw [hparse]
    exact .inl ⟨e, rfl, rfl⟩

/-- The session that a compilation starts with. -/
def CompileOptions.session (o : CompileOptions) (source : Text) : Session :=
  { strict := o.strict, dump := o.dump, report := { sources := [(o.file, source)] } }

theorem compile_eq (source : Text) (o : CompileOptions) :
    compile source o = match lowerScript (o.session source) o.file source with
      | (s, .error (.source e)) => .ok (.failed s o.file source e)
      | (_, .error f) => .error f
      | (s, .ok tree) => do
        let printed ← tree.print o.map
        return { printed, report := s.report, events := s.events ++ [.printed printed.lines] } := rfl

theorem compile_of_refused {e : SourceError}
    (h : (lowerScript (o.session source) o.file source).2 = .error (.source e)) :
    compile source o =
      .ok (.failed (lowerScript (o.session source) o.file source).1 o.file source e) := by
  rw [compile_eq]
  generalize lowerScript (o.session source) o.file source = r at h
  obtain ⟨s, x⟩ := r
  obtain rfl : x = .error (.source e) := h
  rfl

theorem compile_of_lowered {u : Tree} (h : (lowerScript (o.session source) o.file source).2 = .ok u)
    (hu : Formed ArrowFreeKind .program u) :
    ∃ printed c, u.print o.map = .ok printed ∧ compile source o = .ok c ∧ c.printed = some printed ∧
      c.report = (lowerScript (o.session source) o.file source).1.report ∧ c.succeeded = true := by
  obtain ⟨printed, hprint, -⟩ := hu.print_ok o.map
  rw [compile_eq]
  generalize lowerScript (o.session source) o.file source = r at h
  obtain ⟨s, x⟩ := r
  obtain rfl : x = .ok u := h
  dsimp only
  rw [hprint]
  exact ⟨printed, _, rfl, rfl, rfl, rfl, rfl⟩

theorem compile_cases (source : Text) (options : CompileOptions) :
    ∃ c, compile source options = .ok c ∧
      ((∃ d, c.succeeded = false ∧ c.printed = none ∧ c.report.diagnostics = [d] ∧
          d.severity = .error) ∨
        ∃ u printed, c.succeeded = true ∧ c.printed = some printed ∧
          (∀ d ∈ c.report.diagnostics, d.severity = .warning) ∧
          Formed ArrowFreeKind .program u ∧ u.print options.map = .ok printed) := by
  rcases lowerScript_cases (options.session source) options.file source with
    ⟨e, hrun, hsame⟩ | ⟨u, us, hrun, hu, hwarned⟩
  · refine ⟨_, compile_of_refused hrun, .inl ⟨e.diagnostic, rfl, rfl, ?_, rfl⟩⟩
    rw [Compilation.failed, hsame]
    rfl
  · obtain ⟨printed, c, hprint, hc, hsome, hreport, hok⟩ := compile_of_lowered hrun hu
    refine ⟨c, hc, .inr ⟨u, printed, hok, hsome, ?_, hu, hprint⟩⟩
    rw [hreport, hwarned]
    have hnone : (options.session source).report.diagnostics = [] := rfl
    exact severity_warned _ _ (hnone ▸ forall_mem_nil _)

/-- Code comes from a script that is parsed and lowered, and printed with the map that is asked for. -/
theorem compile_printed {c : Compilation} {printed : Printed}
    (h : compile source o = .ok c) (hprinted : c.printed = some printed) :
    ∃ program scopes a u, Script.parse o.file source = .ok program ∧
      LoweredTo o.file source program scopes a u ∧ u.print o.map = .ok printed := by
  have hrefused (e : SourceError)
      (hrun : (lowerScript (o.session source) o.file source).2 = .error (.source e)) : False := by
    obtain rfl := Except.ok.inj ((compile_of_refused hrun).symm.trans h)
    cases hprinted
  rcases (Script.parse_answers o.file source).cases with ⟨program, hparse, -⟩ | ⟨e, hparse⟩
  · obtain ⟨scopes, a, u, hlowered⟩ := lowerScript_of_parse hparse
    refine ⟨program, scopes, a, u, hparse, hlowered, ?_⟩
    by_cases hres : (o.session source).strict = true → a.unresolved = []
    · obtain ⟨printed', c', hprint, hc, hsome, -⟩ :=
        compile_of_lowered (hlowered.lowers _ hres).1 hlowered.formed
      obtain rfl := Except.ok.inj (hc.symm.trans h)
      rw [hprint, Option.some.inj (hsome.symm.trans hprinted)]
    · obtain ⟨hstrict, hne⟩ := Classical.not_imp.mp hres
      obtain ⟨x, xs, hxs⟩ := exists_cons_of_ne_nil hne
      exact (hrefused _ (hlowered.refuses _ hstrict x xs hxs).1).elim
  · refine (hrefused e ?_).elim
    unfold lowerScript
    rw [hparse]

theorem hasErrors_of_warnings {r : Report} (h : ∀ d ∈ r.diagnostics, d.severity = .warning) :
    r.hasErrors = false := by
  refine any_eq_false.mpr fun d hd => ?_
  simp [h d hd]

/-- **Every script is compiled or refused.** Compiling ends with a compilation and never with a fault
of another kind. It succeeds exactly if there is code, which is exactly if there are no errors. A
script that fails has one diagnostic, an error, and neither code nor map; one that succeeds has only
warnings. -/
theorem compile_succeeds_or_reports (source : Text) (options : CompileOptions) :
    ∃ c, compile source options = .ok c ∧ (c.succeeded = true ↔ c.printed.isSome = true) ∧
      (c.printed.isSome = true ↔ c.hasErrors = false) ∧
      (c.succeeded = false → c.printed = none ∧
        ∃ d, c.report.diagnostics = [d] ∧ d.severity = .error) ∧
      (c.succeeded = true → ∀ d ∈ c.report.diagnostics, d.severity = .warning) := by
  obtain ⟨c, hc, ⟨d, hfail, hnone, hd, herror⟩ | ⟨u, printed, hok, hsome, hwarn, -⟩⟩ :=
    compile_cases source options
  · refine ⟨c, hc, ?_⟩
    simp [Compilation.hasErrors, hfail, hnone, hd, herror]
  · have hno : c.hasErrors = false := by
      rw [Compilation.hasErrors, hok, hasErrors_of_warnings hwarn]
      rfl
    refine ⟨c, hc, ?_⟩
    simp only [hok, hsome, hno, Option.isSome_some, forall_const, Bool.true_eq_false,
      false_implies, true_and]
    exact hwarn

/-! ## The emitted code -/

theorem arrow_of_spells {k : Terminal} {x : Text} (h : Spells k x) (hx : x = "=>") : k = .arrow := by
  subst hx
  have : match? ("=>" : Text) = some (some .arrow, 2) := by decide
  exact Option.some.inj (Prod.mk.inj (Option.some.inj (h.symm.trans this))).1

/-- **Emitted code has no arrows.** With any options, the lexer cuts the code of a compiled script into
tokens up to its end, and none of them is an arrow. -/
theorem emitted_code_arrowless {c : Compilation}
    {printed : Printed} (h : compile source options = .ok c) (hp : c.printed = some printed) :
    (lex printed.code).stray = none ∧
      ∀ t ∈ (lex printed.code).tokens, t.terminal ≠ .arrow ∧ t.text ≠ "=>" := by
  obtain ⟨c', hc', ⟨-, -, hnone, -⟩ | ⟨u, printed', -, hsome, -, hu, hprint⟩⟩ :=
    compile_cases source options
  · rw [h] at hc'
    cases hc'
    rw [hp] at hnone
    cases hnone
  · rw [h] at hc'
    cases hc'
    obtain rfl : printed' = printed := Option.some.inj (hsome.symm.trans hp)
    obtain ⟨printed', hprint', hstray, hwords⟩ := hu.print_ok options.map
    obtain rfl : printed' = _ := Except.ok.inj (hprint'.symm.trans hprint)
    refine ⟨hstray, fun t ht => ?_⟩
    have hmem : t.word ∈ Printer.words u := hwords ▸ List.mem_map_of_mem ht
    have harrow : t.terminal ≠ .arrow := hu.arrowless (by simp [ArrowFreeKind]) _ hmem
    exact ⟨harrow, fun hx => harrow (arrow_of_spells (spells_of_mem_lex ht) hx)⟩

/-- The code that a script is compiled to. -/
def emitted (source : Text) (options : CompileOptions := {}) : Option Text :=
  (compile source options).toOption.bind fun c => c.printed.map (·.code)

theorem emitted_eq_some {code : Text} : emitted source options = some code ↔
      ∃ c printed, compile source options = .ok c ∧ c.printed = some printed ∧
        printed.code = code := by
  unfold emitted
  cases compile source options with
  | error f => simp [Except.toOption]
  | ok c => simp [Except.toOption]

/-- An arrow that returns the text of an arrow. -/
theorem emitted_code_arrowless_quoted : ∃ c printed, compile "x=>'=>'" = .ok c ∧
    c.printed = some printed ∧ printed.code = "(function(x) \x7b\n  return '=>';\n\x7d);\n" ∧
    (lex printed.code).stray = none ∧
      ∀ t ∈ (lex printed.code).tokens, t.terminal ≠ .arrow ∧ t.text ≠ "=>" := by
  have hrun : emitted "x=>'=>'" = some ("(function(x) \x7b\n  return '=>';\n\x7d);\n" : Text) := by
    decide +kernel
  obtain ⟨c, printed, hc, hp, hcode⟩ := emitted_eq_some.mp hrun
  exact ⟨c, printed, hc, hp, hcode, emitted_code_arrowless hc hp⟩

end ArrowFree
