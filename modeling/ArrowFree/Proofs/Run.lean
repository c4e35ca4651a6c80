import ArrowFree.Pipeline
import ArrowFree.Proofs.NoArrow

/-!
# What a run that succeeds has done

The lowering of a tree succeeds when its scopes and its facts are found, no unresolved `arguments` is
an error, and the facts can be applied (`lower_ok`). The whole run adds validation to that
(`transform_ok`), which never stops it: a run ends with the fault that it had before validation.
-/

namespace ArrowFree

open Lowering

variable {t u : Tree} {s : Session} {scopes : ScopeTable} {r : Run} {a : Analysis}
  {us : List Unresolved} {p : Pass}

/-- The run of lowering by an analysis went through: strictness had nothing to refuse. -/
structure Lowerable (strict : Bool) (t : Tree) (scopes : ScopeTable) (a : Analysis) (u : Tree) :
    Prop where
  scopes_eq : ScopeTable.ofTree t = .ok scopes
  analysis_eq : analyze scopes t = .ok a
  resolved : strict = true → a.unresolved = []
  apply_eq : apply a t = (u, none)

/-- What is computed from a tree by analysing it holds of the analysis at hand. -/
theorem Lowerable.computed {strict : Bool} (h : Lowerable strict t scopes a u) {f : ScopeTable → Analysis → Bool}
    (hf : (do let scopes ← ScopeTable.ofTree t let a ← analyze scopes t return f scopes a) = Except.ok true) :
    f scopes a = true := by
  rw [h.scopes_eq] at hf
  change (analyze scopes t >>= _) = _ at hf
  rw [h.analysis_eq] at hf
  exact Except.ok.inj hf

namespace Session

variable {s : Session} {t : Tree} {scopes : ScopeTable}

@[simp] theorem tell_strict (s : Session) (es : List Event) : (s.tell es).strict = s.strict := rfl

@[simp] theorem tell_dump (s : Session) (es : List Event) : (s.tell es).dump = s.dump := rfl

@[simp] theorem tell_report (s : Session) (es : List Event) : (s.tell es).report = s.report := rfl

theorem dump_foldl_warn (us : List Unresolved) (s : Session) : (us.foldl warn s).dump = s.dump := by
  induction us generalizing s with
  | nil => rfl
  | cons u us ih => rw [List.foldl_cons, ih]; rfl

/-- The report after a warning for each of some references. -/
def warned (r : Report) (us : List Unresolved) : Report :=
  us.foldl (fun r u => r.add (unresolvedWarning u)) r

theorem report_foldl_warn (us : List Unresolved) (s : Session) :
    (us.foldl warn s).report = warned s.report us := by
  induction us generalizing s with
  | nil => rfl
  | cons u us ih => rw [List.foldl_cons, ih]; rfl

/-! ## Scope analysis and lowering -/

theorem analyzeScopes_ok (h : (s.analyzeScopes t).fault = none) :
    ∃ scopes, ScopeTable.ofTree t = .ok scopes ∧ (s.analyzeScopes t).session.scopes = some scopes ∧
      (s.analyzeScopes t).session.strict = s.strict ∧ (s.analyzeScopes t).tree = t := by
  unfold analyzeScopes at h ⊢
  cases hs : ScopeTable.ofTree t with
  | error f => rw [hs] at h; cases h
  | ok scopes => exact ⟨scopes, rfl, rfl, rfl, rfl⟩

theorem analyzeScopes_eq (h : ScopeTable.ofTree t = .ok scopes) :
    s.analyzeScopes t = ⟨{ s with scopes := some scopes }.tell [.scoped scopes.size], t, none⟩ := by
  unfold analyzeScopes
  rw [h]

theorem lower_ok (h : (s.lower t).fault = none) :
    ∃ scopes a, s.scopes = some scopes ∧ analyze scopes t = .ok a ∧
      (s.strict = true → a.unresolved = []) ∧ Lowering.apply a t = ((s.lower t).tree, none) := by
  unfold lower at h ⊢
  cases hs : s.scopes with
  | none => rw [hs] at h; cases h
  | some scopes =>
    rw [hs] at h
    cases ha : analyze scopes t with
    | error f => simp only [ha] at h; cases h
    | ok a =>
      simp only [ha] at h ⊢
      refine ⟨scopes, a, rfl, ha, ?_⟩
      cases hstrict : s.strict with
      | false =>
        simp only [tell_strict, hstrict] at h ⊢
        exact ⟨by simp, Prod.ext rfl h⟩
      | true =>
        cases hu : a.unresolved with
        | nil =>
          simp only [tell_strict, hstrict, hu] at h ⊢
          exact ⟨fun _ => trivial, Prod.ext rfl h⟩
        | cons u us => simp [tell_strict, hstrict, hu] at h

theorem lower_eq {u : Tree} (hs : s.scopes = some scopes) (ha : analyze scopes t = .ok a)
    (hu : s.strict = true → a.unresolved = []) (happly : Lowering.apply a t = (u, none)) :
    (s.lower t).fault = none ∧ (s.lower t).tree = u ∧
      (s.lower t).session.report = warned s.report a.unresolved := by
  unfold lower
  rw [hs]
  simp only [ha]
  cases hstrict : s.strict with
  | false =>
    simp only [tell_strict, happly, tell_report, report_foldl_warn, and_self]
  | true =>
    have hnil : a.unresolved = [] := hu hstrict
    simp only [tell_strict, hnil, happly, tell_report, report_foldl_warn, and_self]

/-- A strict session refuses the first unresolved reference and reports nothing. -/
theorem lower_refused {u : Unresolved} (hs : s.scopes = some scopes) (ha : analyze scopes t = .ok a)
    (hstrict : s.strict = true) (hu : a.unresolved = u :: us) :
    (s.lower t).fault = some (.source (s.unresolvedError u)) ∧
      (s.lower t).session.report = s.report := by
  unfold lower
  rw [hs]
  simp only [ha, tell_strict, hstrict, hu]
  exact ⟨rfl, rfl⟩

theorem dump_lower (s : Session) (t : Tree) : (s.lower t).session.dump = s.dump := by
  unfold lower
  cases s.scopes with
  | none => rfl
  | some scopes =>
    cases ha : analyze scopes t with
    | error f => simp only [ha]
    | ok a =>
      simp only [ha]
      split
      · rfl
      · exact dump_foldl_warn _ _

end Session

theorem Pass.dump_run (p : Pass) (s : Session) (t : Tree) : (p.run s t).session.dump = s.dump := by
  cases p with
  | scopes =>
    unfold Pass.run Session.analyzeScopes
    cases ScopeTable.ofTree t <;> rfl
  | lowering => exact Session.dump_lower s t
  | validation =>
    unfold Pass.run Session.validate
    cases validate t <;> rfl

/-! ## The whole run -/

theorem Run.next_of_fault {f : Fault} (h : r.fault = some f) (p : Pass) : r.next p = r := by
  unfold Run.next
  rw [h]

theorem Run.next_of_no_fault (h : r.fault = none) (p : Pass) :
    r.next p = (p.run (r.session.tell [.started p]) r.tree).dumpAfter p := by
  unfold Run.next
  rw [h]

theorem Run.dumpAfter_ok (h : (r.dumpAfter p).fault = none) :
    r.fault = none ∧ (r.dumpAfter p).tree = r.tree ∧
      (r.dumpAfter p).session.scopes = r.session.scopes ∧
      (r.dumpAfter p).session.strict = r.session.strict ∧
      (r.session.dump = true → ∃ text, r.tree.sexpr false true = .ok text) := by
  unfold Run.dumpAfter at h ⊢
  by_cases hd : (r.session.dump && r.fault.isNone) = true
  · rw [if_pos hd] at h ⊢
    cases hx : r.tree.sexpr false true with
    | error f => rw [hx] at h; cases h
    | ok text =>
      rw [hx] at h
      exact ⟨h, rfl, rfl, rfl, fun _ => ⟨text, rfl⟩⟩
  · rw [if_neg hd] at h ⊢
    refine ⟨h, rfl, rfl, rfl, fun hdump => ?_⟩
    rw [hdump, h] at hd
    simp at hd

theorem Run.dump_next (r : Run) (p : Pass) : (r.next p).session.dump = r.session.dump := by
  cases h : r.fault with
  | some f => rw [Run.next_of_fault h]
  | none =>
    rw [Run.next_of_no_fault h]
    refine Eq.trans ?_ (p.dump_run (r.session.tell [.started p]) r.tree)
    unfold Run.dumpAfter
    split
    · split <;> rfl
    · rfl

/-- A dump that can be made changes nothing but the events. -/
theorem Run.dumpAfter_of_sexpr (p : Pass) (h : r.session.dump = true → ∃ text, r.tree.sexpr false true = .ok text) :
    ∃ es, r.dumpAfter p = { r with session := r.session.tell es } := by
  unfold Run.dumpAfter
  by_cases hd : (r.session.dump && r.fault.isNone) = true
  · rw [if_pos hd]
    rw [Bool.and_eq_true] at hd
    obtain ⟨text, htext⟩ := h hd.1
    rw [htext]
    exact ⟨_, rfl⟩
  · rw [if_neg hd]
    refine ⟨[], ?_⟩
    rw [Session.tell, List.append_nil]

/-- A run that has no fault after a pass had none before, and the pass had none itself. -/
theorem Run.next_ok (h : (r.next p).fault = none) :
    r.fault = none ∧ (p.run (r.session.tell [.started p]) r.tree).fault = none ∧
      (r.next p).tree = (p.run (r.session.tell [.started p]) r.tree).tree ∧
      (r.next p).session.scopes = (p.run (r.session.tell [.started p]) r.tree).session.scopes ∧
      (r.next p).session.strict = (p.run (r.session.tell [.started p]) r.tree).session.strict := by
  cases hr : r.fault with
  | some f =>
    rw [Run.next_of_fault hr, hr] at h
    cases h
  | none =>
    rw [Run.next_of_no_fault hr] at h ⊢
    obtain ⟨hrun, htree, hscopes, hstrict, -⟩ := Run.dumpAfter_ok h
    exact ⟨rfl, hrun, htree, hscopes, hstrict⟩

/-- The run up to the lowered tree. -/
def Session.lowered (s : Session) (t : Tree) : Run :=
  ((⟨s, t, none⟩ : Run).next .scopes).next .lowering

theorem transform_eq (s : Session) (t : Tree) :
    s.transform t = (s.lowered t).next .validation := rfl

theorem lowered_ok (h : (s.lowered t).fault = none) :
    ∃ scopes a, Lowerable s.strict t scopes a (s.lowered t).tree := by
  obtain ⟨hfirst, hlower, htree, -, -⟩ := Run.next_ok h
  obtain ⟨-, hscope, hsame, hscopes, hstrict⟩ := Run.next_ok hfirst
  obtain ⟨scopes, hof, hsome, hst, ht⟩ := Session.analyzeScopes_ok hscope
  obtain ⟨scopes', a, hs, ha, hu, happly⟩ := Session.lower_ok hlower
  obtain rfl : scopes = scopes' := Option.some.inj (hsome.symm.trans (hscopes.symm.trans hs))
  rw [hsame.trans ht] at ha happly
  refine ⟨scopes, a, hof, ha, fun hs => hu ((hstrict.trans hst).trans hs), ?_⟩
  show apply a t = ((((⟨s, t, none⟩ : Run).next .scopes).next .lowering).tree, none)
  rw [htree, hsame.trans ht]
  exact happly

theorem noArrow_lowered (h : (s.lowered t).fault = none) : (s.lowered t).tree.NoArrow := by
  obtain ⟨scopes, a, hl⟩ := lowered_ok h
  exact noArrow_of_apply hl.apply_eq

theorem Session.validate_eq (h : t.NoArrow) : s.validate t = ⟨s.tell [.arrowFree], t, none⟩ := by
  unfold Session.validate
  rw [validate_of_noArrow h]

theorem dump_lowered (s : Session) (t : Tree) : (s.lowered t).session.dump = s.dump := by
  unfold Session.lowered
  rw [Run.dump_next, Run.dump_next]

/-- What was dumped after lowering can be dumped again. -/
theorem sexpr_lowered (h : (s.lowered t).fault = none) (hdump : s.dump = true) :
    ∃ text, (s.lowered t).tree.sexpr false true = .ok text := by
  have hfirst := (Run.next_ok h).1
  have hafter : ((⟨s, t, none⟩ : Run).next .scopes).session.dump = true :=
    (Run.dump_next _ _).trans hdump
  unfold Session.lowered at h ⊢
  rw [Run.next_of_no_fault hfirst] at h ⊢
  obtain ⟨-, htree, -, -, hsexpr⟩ := Run.dumpAfter_ok h
  rw [htree]
  exact hsexpr ((Pass.dump_run _ _ _).trans hafter)

theorem validated_ok (h : (s.lowered t).fault = none) :
    (s.transform t).fault = none ∧ (s.transform t).tree = (s.lowered t).tree ∧
      (s.transform t).session.report = (s.lowered t).session.report := by
  have hrun : Pass.validation.run ((s.lowered t).session.tell [.started .validation])
      (s.lowered t).tree = _ := Session.validate_eq (noArrow_lowered h)
  rw [transform_eq, Run.next_of_no_fault h, hrun]
  unfold Run.dumpAfter
  by_cases hdump : (s.lowered t).session.dump = true
  · obtain ⟨text, htext⟩ := sexpr_lowered h ((dump_lowered s t).symm.trans hdump)
    simp [hdump, htext]
  · simp [hdump]

theorem fault_transform (s : Session) (t : Tree) : (s.transform t).fault = (s.lowered t).fault := by
  cases hf : (s.lowered t).fault with
  | some f => rw [transform_eq, Run.next_of_fault hf, hf]
  | none => exact (validated_ok hf).1

/-- **Validation never stops a run.** Once scopes are found and arrows are lowered no arrow is left for
validation to find, and the tree that it returns is the lowered one. A run that fails has failed
before. -/
theorem validation_adds_no_fault (s : Session) (t : Tree) :
    (s.transform t).fault = (s.lowered t).fault ∧ ((s.lowered t).fault = none →
        (∀ n ∈ (s.lowered t).tree.nodes, n.isArrow = false) ∧
        (s.lowered t).session.validate (s.lowered t).tree =
          ⟨(s.lowered t).session.tell [.arrowFree], (s.lowered t).tree, none⟩ ∧
        (s.transform t).tree = (s.lowered t).tree) := by
  refine ⟨fault_transform s t, fun hf => ?_⟩
  have hno := noArrow_lowered hf
  exact ⟨hno, Session.validate_eq hno, (validated_ok hf).2.1⟩

/-- An arrow that returns an arrow, in a node of a type that the library does not know. -/
def curried : Tree :=
  (Tree.node {} (.other (.text "Wrapper") ["value"])
    [.mk .arrowFunctionExpression none
      [.list [.identifier "x" none],
       .mk .arrowFunctionExpression none [.list [], .mk .thisExpression none [], .bool true],
       .bool true]]).numbered

theorem validation_adds_no_fault_curried :
    (Session.lowered {} curried).fault = none ∧ (Session.transform {} curried).fault = none ∧
      ∀ n ∈ (Session.lowered {} curried).tree.nodes, n.isArrow = false := by
  have hfault : (Session.lowered {} curried).fault = none := by decide
  obtain ⟨heq, hrest⟩ := validation_adds_no_fault {} curried
  exact ⟨hfault, heq.trans hfault, (hrest hfault).1⟩

/-- A run without a fault has found the scopes and the facts and has applied them. -/
theorem transform_ok (h : (s.transform t).fault = none) :
    ∃ scopes a, Lowerable s.strict t scopes a (s.transform t).tree := by
  have hf := (fault_transform s t).symm.trans h
  rw [(validated_ok hf).2.1]
  exact lowered_ok hf

theorem scoped_of_ofTree (hd : s.dump = true → ∃ text, t.sexpr false true = .ok text)
    (h : ScopeTable.ofTree t = .ok scopes) : ∃ s' : Session,
      (⟨s, t, none⟩ : Run).next .scopes = ⟨s', t, none⟩ ∧ s'.scopes = some scopes ∧
        s'.strict = s.strict ∧ s'.dump = s.dump ∧ s'.report = s.report := by
  have hrun : Pass.scopes.run (s.tell [.started .scopes]) t = _ := Session.analyzeScopes_eq h
  obtain ⟨es, hfirst⟩ := Run.dumpAfter_of_sexpr (r := Pass.scopes.run (s.tell [.started .scopes]) t)
    .scopes (by rw [hrun]; exact hd)
  rw [Run.next_of_no_fault (r := ⟨s, t, none⟩) rfl, hfirst, hrun]
  exact ⟨_, rfl, rfl, rfl, rfl, rfl⟩

theorem lowered_of_lowerable
    (hd : s.dump = true → (∃ text, t.sexpr false true = .ok text) ∧ ∃ text, u.sexpr false true = .ok text)
    (h : Lowerable s.strict t scopes a u) :
    (s.lowered t).fault = none ∧ (s.lowered t).tree = u ∧
      (s.lowered t).session.report = Session.warned s.report a.unresolved := by
  obtain ⟨s', hfirst, hscopes, hstrict, hdump, hreport⟩ :=
    scoped_of_ofTree (fun hdump => (hd hdump).1) h.scopes_eq
  unfold Session.lowered
  rw [hfirst]
  obtain ⟨hfault, htree, hlreport⟩ := Session.lower_eq
    (s := s'.tell [.started .lowering]) hscopes h.analysis_eq (fun hs => h.resolved (hstrict ▸ hs))
    h.apply_eq
  have hldump : (Pass.lowering.run (s'.tell [.started .lowering]) t).session.dump = s.dump :=
    (Pass.dump_run _ _ _).trans hdump
  obtain ⟨es', hsecond⟩ := Run.dumpAfter_of_sexpr
    (r := Pass.lowering.run (s'.tell [.started .lowering]) t) .lowering
    (fun hd' => htree ▸ (hd (hldump.symm.trans hd')).2)
  rw [Run.next_of_no_fault (r := ⟨s', t, none⟩) rfl, hsecond]
  exact ⟨hfault, htree, hlreport.trans (by rw [Session.tell_report, hreport])⟩

/-- A tree that can be lowered is lowered, with one warning for each unresolved reference, if what is
to be dumped can be. -/
theorem transform_of_lowerable
    (hd : s.dump = true → (∃ text, t.sexpr false true = .ok text) ∧ ∃ text, u.sexpr false true = .ok text)
    (h : Lowerable s.strict t scopes a u) :
    (s.transform t).fault = none ∧ (s.transform t).tree = u ∧
      (s.transform t).session.report = Session.warned s.report a.unresolved := by
  obtain ⟨hfault, htree, hreport⟩ := lowered_of_lowerable hd h
  obtain ⟨hf, ht, hr⟩ := validated_ok hfault
  exact ⟨hf, ht.trans htree, hr.trans hreport⟩

/-- A strict run ends at the first unresolved reference, with an error of the source and no report. -/
theorem transform_of_unresolved {u : Unresolved} (hd : s.dump = true → ∃ text, t.sexpr false true = .ok text)
    (hs : ScopeTable.ofTree t = .ok scopes) (ha : analyze scopes t = .ok a) (hstrict : s.strict = true)
    (hu : a.unresolved = u :: us) :
    (s.transform t).fault = some (.source (s.unresolvedError u)) ∧
      (s.transform t).session.report = s.report := by
  obtain ⟨s', hfirst, hscopes, hst, -, hreport⟩ := scoped_of_ofTree hd hs
  obtain ⟨hfault, hsame⟩ := Session.lower_refused (s := s'.tell [.started .lowering]) hscopes ha
    (hst.trans hstrict) hu
  have hlow : s.lowered t = (s'.tell [.started .lowering]).lower t := by
    unfold Session.lowered
    rw [hfirst, Run.next_of_no_fault rfl]
    unfold Run.dumpAfter
    rw [if_neg (by show ¬ (_ && Option.isNone (Session.lower _ _).fault) = true; simp [hfault])]
    rfl
  have herror : (s'.tell [.started .lowering]).unresolvedError u = s.unresolvedError u := by
    unfold Session.unresolvedError
    rw [Session.tell_report, hreport]
  rw [transform_eq, hlow, Run.next_of_fault hfault]
  exact ⟨herror ▸ hfault, hsame.trans hreport⟩

end ArrowFree
