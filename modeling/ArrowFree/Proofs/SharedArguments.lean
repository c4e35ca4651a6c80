import ArrowFree.Proofs.Capture
import ArrowFree.Proofs.ExplicitDeclarations

/-!
# Which references stay together

Lowering gives a generated name to the references that look past an arrow, and to all references of a
variable that one of them looks for. So two references to the variable `arguments` of a block, of an
arrow or of a `let` are still references to one variable, and so are two references to what a function
provides if both look past an arrow or neither does. The arguments object of a function that declares no
`arguments` is copied: the references from within arrows have the name of the copy, the others keep
theirs, and a reference of the one kind no longer sees what is written through one of the other
(`shared_unless_copied`).
-/

namespace ArrowFree

namespace Lowering

open ArrowFree.Tree ScopeTable

variable {r r' : Resolution} {name : Text} {p p' : Place}

/-- Two identifiers name the same variable: the `arguments` of the same scope, or what is found under
the same name. A name that is declared nowhere is one variable as well. -/
def SameVariable (t : ScopeTable) (m n : Tree) : Prop :=
  ∃ i j name, t.referenceScope m = .ok i ∧ t.referenceScope n = .ok j ∧
    m.name? = some name ∧ n.name? = some name ∧
    if name = argumentsName then
      ∃ r r', resolveFrom t i = .ok r ∧ resolveFrom t j = .ok r' ∧ r.scope = r'.scope
    else t.declaring? i name = t.declaring? j name

theorem SameVariable.name?_eq {t : ScopeTable} {m n : Tree} (h : SameVariable t m n) :
    m.name? = n.name? := by
  obtain ⟨-, -, name, -, -, hm, hn, -⟩ := h
  exact hm.trans hn.symm

/-- A reference to `arguments` at this place that a function or a variable provides. -/
structure ProvidedAt (t : ScopeTable) (a : Analysis) (p : Place) (r : Resolution) : Prop where
  name : p.node.name? = some argumentsName
  resolved : resolve t p.node = .ok r
  provided : p.node.id ∉ a.unresolved.map Unresolved.reference

instance (t : ScopeTable) (a : Analysis) (p : Place) (r : Resolution) : Decidable (ProvidedAt t a p r) :=
  decidable_of_iff (p.node.name? = some argumentsName ∧ resolve t p.node = .ok r ∧
      p.node.id ∉ a.unresolved.map Unresolved.reference)
    ⟨fun ⟨hname, hresolved, hprovided⟩ => ⟨hname, hresolved, hprovided⟩,
      fun ⟨hname, hresolved, hprovided⟩ => ⟨hname, hresolved, hprovided⟩⟩

variable {a : Analysis} {root : Tree} {t t' : ScopeTable} {hosts : List (NodeId × Nat)}
  {hidden : List (Nat × List NodeId)}

/-! ## One reference -/

/-- The reference is carried past an arrow, under the name of the copy that its function keeps. -/
structure CarriedAs (a : Analysis) (t : ScopeTable) (r : Resolution) (s : Scope) (name : Text) : Prop where
  reaches : r.reachesFunction t = true
  arrow : r.arrow.isSome
  function : s.kind = .function
  copy : a.hoistedNames.get? s.node = some name

/-- What a reference has become: it has kept its name and still means the same, or it has a name that
was generated for the scope that it means. -/
inductive Outcome (a : Analysis) (root : Tree) (t t' : ScopeTable) (hidden : List (Nat × List NodeId)) (i : Nat)
    (r : Resolution) : Text → Prop
  | kept (hr : resolveFrom t' i = .ok r) (harrow : r.arrow = none)
      (hvisible : ∀ ids, (r.scope, ids) ∉ hidden) : Outcome a root t t' hidden i r argumentsName
  | generated {name : Text} {s : Scope} (hs : t.scopes[r.scope]? = some s)
      (hname : GeneratedFor root s.node name) (hne : name ≠ argumentsName)
      (hfound : t'.declaring? i name = t'.declaring? r.scope name)
      (hwhy : CarriedAs a t r s name ∨ r.reachesFunction t = false ∧ ∃ ids, (r.scope, ids) ∈ hidden) :
      Outcome a root t t' hidden i r name

section

variable (h : Alongside a root t t' hosts hidden)
include h

theorem Alongside.generated {ref : Reference} (href : ref ∈ t.references)
    (hargs : ref.name = some argumentsName) (hr : resolveFrom t ref.scope = .ok r) {s : Scope}
    (hs : t.scopes[r.scope]? = some s) (hkind : s.kind ≠ .program) (hname : GeneratedFor root s.node name)
    (hwhy : CarriedAs a t r s name ∨ r.reachesFunction t = false ∧ ∃ ids, (r.scope, ids) ∈ hidden) :
    Outcome a root t t' hidden ref.scope r name := by
  refine .generated hs hname ?_ (h.declaring?_past (h.reference_lt href) hr hs hkind hname) hwhy
  -- the reference itself is an identifier in the node that the name is generated for
  obtain ⟨p, hp, -, -, rfl⟩ := h.outlined.references ref href
  obtain ⟨pre, s₁, post, heq, -⟩ := resolveFrom_iff.mp hr
  have hon : (r.scope, s₁) ∈ t.scopesOn (t.enclosing p.path) := by rw [heq]; simp
  obtain rfl : s₁ = s := Option.some.inj ((mem_scopesOn hon).symm.trans hs)
  obtain ⟨n, hn, hid, hin⟩ := h.outlined.node_of_scope hp hon hkind
  exact (GeneratedFor.ne h.distinct (hid ▸ hname) hn hin hargs).symm

/-- **A provided reference after lowering.** -/
theorem Alongside.outcome (hp : p ∈ root.places) (hc : Counterpart a p p') (hprovided : ProvidedAt t a p r) :
    ∃ i name, t'.referenceScope p'.node = .ok i ∧ p'.node.name? = some name ∧
      Outcome a root t t' hidden i r name := by
  obtain ⟨ref, href, hid, hr⟩ := resolve_ok hprovided.resolved
  obtain ⟨q, hq, hident, -, rfl⟩ := h.outlined.references ref href
  obtain rfl : q = p := h.distinct.place_eq hq hp hid
  have hargs := hprovided.name
  obtain ⟨hid', hname'⟩ := identifier_counterpart hc hident
  refine ⟨t.enclosing q.path, (a.replacement? q.node.id).getD argumentsName,
    h.referenceScope href hid', ?_, ?_⟩
  · rw [hname', hargs]
    cases a.replacement? q.node.id <;> rfl
  cases hnew : a.replacement? q.node.id with
  | none =>
    obtain ⟨harrow, hvisible⟩ := h.unreplaced_reference href hargs hnew hprovided.provided hr
    have hsame := h.unreplaced href hnew hprovided.provided hargs
    rw [if_pos rfl] at hsame
    exact .kept (hsame.trans hr) harrow hvisible
  | some name =>
    unfold Analysis.replacement? at hnew
    split at hnew
    · rename_i f hf
      obtain ⟨⟨-, -, R, s, hR, hreach, hs, hkind, rfl, harrow⟩, name', hname, hgenerated⟩ :=
        h.carried_reference href hf
      obtain rfl := Except.ok.inj (hR.symm.trans hr)
      obtain rfl := Option.some.inj (hname.symm.trans hnew)
      exact h.generated href hargs hr hs (by rw [hkind]; nofun) hgenerated
        (Or.inl ⟨hreach, harrow, hkind, hname⟩)
    · obtain ⟨-, R, ids, s, hR, hids, hs, hgenerated⟩ := h.renamed_reference href hnew
      obtain rfl := Except.ok.inj (hR.symm.trans hr)
      obtain ⟨s₁, b, hlex, -⟩ := mem_hidden h.outlined h.hidden_eq hids
      obtain rfl : s₁ = s := Option.some.inj (hlex.scope.symm.trans hs)
      exact h.generated href hargs hr hs hlex.kind hgenerated
        (Or.inr ⟨hlex.not_reaches_of hr rfl, ids, hids⟩)

end

/-! ## Two references -/

/-- A reference with a new name and one without belong to a function, and an arrow is between that
function and only the first. -/
theorem Outcome.apart {i j : Nat} (h : Outcome a root t t' hidden i r argumentsName)
    (h' : Outcome a root t t' hidden j r' name) (hne : name ≠ argumentsName) (hscope : r.scope = r'.scope) :
    r'.reachesFunction t = true ∧ r.arrow.isSome = false ∧ r'.arrow.isSome = true := by
  cases h with
  | generated _ _ hself => exact absurd rfl hself
  | kept hr harrow hvisible =>
    cases h' with
    | kept => exact absurd rfl hne
    | generated _ _ _ _ hwhy =>
      rcases hwhy with hcarried | ⟨-, ids, hids⟩
      · exact ⟨hcarried.reaches, by rw [harrow]; rfl, hcarried.arrow⟩
      · exact absurd (hscope ▸ hids) (hvisible ids)

/-- **Two references to one scope** are references to one variable after lowering, unless a function
provides them and an arrow is between that function and exactly one of them. -/
theorem Alongside.sameVariable_iff (h : Alongside a root t t' hosts hidden) {q q' : Place}
    (hp : p ∈ root.places) (hq : q ∈ root.places) (hcp : Counterpart a p p') (hcq : Counterpart a q q')
    (hr : ProvidedAt t a p r) (hr' : ProvidedAt t a q r') (hscope : r.scope = r'.scope) :
    SameVariable t' p'.node q'.node ↔
      (r.reachesFunction t = true → r.arrow.isSome = r'.arrow.isSome) := by
  obtain ⟨i, m, hi, hm, hout⟩ := h.outcome hp hcp hr
  obtain ⟨j, n, hj, hn, hout'⟩ := h.outcome hq hcq hr'
  have hreaches : r.reachesFunction t = r'.reachesFunction t := by
    obtain ⟨_, -, -, hfrom⟩ := resolve_ok hr.resolved
    obtain ⟨_, -, -, hfrom'⟩ := resolve_ok hr'.resolved
    obtain ⟨s, hs, hb⟩ := resolution_scope hfrom
    obtain ⟨s', hs', hb'⟩ := resolution_scope hfrom'
    rw [hscope] at hs
    obtain rfl : s = s' := Option.some.inj (hs.symm.trans hs')
    exact reaches_congr hscope (hb.trans hb'.symm)
  by_cases hmn : m = n
  · -- the names agree: both have kept theirs, or both have the one generated for the scope
    subst hmn
    cases hout with
    | kept hfrom harrow hvisible =>
      cases hout' with
      | generated _ _ hne => exact absurd rfl hne
      | kept hfrom' harrow' =>
        refine iff_of_true ⟨i, j, _, hi, hj, hm, hn, ?_⟩ fun _ => by rw [harrow, harrow']
        rw [if_pos rfl]
        exact ⟨r, r', hfrom, hfrom', hscope⟩
    | generated hs hname hne hfound hwhy =>
      cases hout' with
      | kept => exact absurd rfl hne
      | generated hs' hname' _ hfound' hwhy' =>
        refine iff_of_true ⟨i, j, _, hi, hj, hm, hn, ?_⟩ fun hreach => ?_
        · rw [if_neg hne, hfound, hfound', hscope]
        · rcases hwhy with hcarried | ⟨hno, -⟩
          · rcases hwhy' with hcarried' | ⟨hno, -⟩
            · rw [hcarried.arrow, hcarried'.arrow]
            · cases hreach.symm.trans (hreaches.trans hno)
          · cases hreach.symm.trans hno
  · refine iff_of_false (fun hsame => hmn ?_) fun hall => ?_
    · exact Option.some.inj (hm.symm.trans (hsame.name?_eq.trans hn))
    by_cases hargs : m = argumentsName
    · subst hargs
      obtain ⟨hreach, harrow, harrow'⟩ := hout.apart hout' (Ne.symm hmn) hscope
      rw [hall (hreaches.trans hreach), harrow'] at harrow
      cases harrow
    · by_cases hargs' : n = argumentsName
      · subst hargs'
        obtain ⟨hreach, harrow', harrow⟩ := hout'.apart hout hmn hscope.symm
        rw [← hall hreach, harrow] at harrow'
        cases harrow'
      · -- a scope has one generated name
        cases hout with
        | kept => exact absurd rfl hargs
        | generated hs hname =>
          cases hout' with
          | kept => exact absurd rfl hargs'
          | generated hs' hname' =>
            rw [hscope, hs'] at hs
            obtain rfl := Option.some.inj hs
            exact hmn (hname.eq h.distinct hname')

/-! ## A function's own arguments -/

/-- Two references to the arguments of one function have come apart: the first has the name of the copy
that the function keeps, the second has kept its name and its meaning. -/
structure Parted (a : Analysis) (t t' : ScopeTable) (r r' : Resolution) (m n : Tree) : Prop where
  copied : ∃ s name, t.scopes[r.scope]? = some s ∧ s.kind = .function ∧
    a.hoistedNames.get? s.node = some name ∧ m.name? = some name
  kept : n.name? = some argumentsName ∧ resolve t' n = .ok r'
  different : ¬ SameVariable t' m n

/-- Where a walk ends without an explicit declaration, a function or the program provides its own
arguments. -/
theorem reaches_of_not_explicit {root : Tree} (h : t.Outlined root.places)
    (hadd : ∀ p ∈ root.places, p.additions = .ok p.added) (hd : root.Distinct) {i : Nat}
    (hr : resolveFrom t i = .ok r) (hnone : t.explicitTypes root r.scope = []) :
    r.reachesFunction t = true := by
  obtain ⟨s, hs, hbinding⟩ := resolution_scope hr
  have hown : s.ownArguments? = none := by
    by_cases hnamed : s.NamedArguments root
    · exact h.ownArguments_named hadd hd hs hnamed
    · have htype := h.ownArguments_explicit hadd hd hs hnamed
      rw [hnone] at htype
      exact Option.map_eq_none_iff.mp htype
  by_contra hreaches
  obtain ⟨_, b, hb, -⟩ := lexical_of_not_reaches hr (Bool.eq_false_iff.mpr hreaches)
  rw [hbinding, hown] at hb
  cases hb

/-- **References to a function's own arguments** come apart if an arrow is between the function and only
one of them. -/
theorem Alongside.parted (h : Alongside a root t t' hosts hidden) {q q' : Place} (hp : p ∈ root.places)
    (hq : q ∈ root.places) (hcp : Counterpart a p p') (hcq : Counterpart a q q') (hr : ProvidedAt t a p r)
    (hr' : ProvidedAt t a q r') (hscope : r.scope = r'.scope) (hnone : t.explicitTypes root r.scope = [])
    (harrow : r.arrow.isSome = true) (harrow' : r'.arrow = none) : Parted a t t' r r' p'.node q'.node := by
  have hreaches {x : Place} {R : Resolution} (hx : ProvidedAt t a x R) (hR : R.scope = r.scope) :
      R.reachesFunction t = true := by
    obtain ⟨_, -, -, hfrom⟩ := resolve_ok hx.resolved
    exact reaches_of_not_explicit h.outlined h.additions h.distinct hfrom (hR ▸ hnone)
  obtain ⟨_, m, -, hm, hout⟩ := h.outcome hp hcp hr
  obtain ⟨j, n, hj, hn, hout'⟩ := h.outcome hq hcq hr'
  cases hout with
  | kept _ hnot =>
    rw [hnot] at harrow
    cases harrow
  | generated hs _ hne _ hwhy =>
    cases hout' with
    | generated _ _ _ _ hwhy' =>
      rcases hwhy' with hcarried | ⟨hno, -⟩
      · have hsome := hcarried.arrow
        rw [harrow'] at hsome
        cases hsome
      · cases (hreaches hr' hscope.symm).symm.trans hno
    | kept hfrom =>
      rcases hwhy with hcarried | ⟨hno, -⟩
      · refine ⟨⟨_, m, hs, hcarried.function, hcarried.copy, hm⟩, ⟨hn, ?_⟩, fun hsame => hne ?_⟩
        · rw [resolve, hj]
          exact hfrom
        · exact Option.some.inj (hm.symm.trans (hsame.name?_eq.trans hn))
      · cases (hreaches hr rfl).symm.trans hno

end Lowering

open Lowering ArrowFree.Tree ScopeTable

/-- **References stay together** unless a function provides them and an arrow is between that function
and exactly one of them. There, if the function declares no `arguments`, the one within the arrow is moved
to the copy that the function keeps of its arguments, and the other is not. -/
theorem shared_unless_copied (s : Session) (t : Tree) (h : (s.transform t.numbered).fault = none) :
    ∃ scopes a scopes', Lowerable s.strict t.numbered scopes a (s.transform t.numbered).tree ∧
      ofTree (s.transform t.numbered).tree = .ok scopes' ∧
      ∀ p ∈ t.numbered.places, ∀ q ∈ t.numbered.places, ∀ r r' : Resolution,
        ProvidedAt scopes a p r → ProvidedAt scopes a q r' → r.scope = r'.scope →
        ∃ p' ∈ (s.transform t.numbered).tree.places, ∃ q' ∈ (s.transform t.numbered).tree.places,
          Counterpart a p p' ∧ Counterpart a q q' ∧
          ((r.reachesFunction scopes = true → r.arrow.isSome = r'.arrow.isSome) →
            SameVariable scopes' p'.node q'.node) ∧
          (scopes.explicitTypes t.numbered r.scope = [] → r.arrow.isSome = true → r'.arrow = none →
            Parted a scopes scopes' r r' p'.node q'.node) := by
  obtain ⟨scopes, a, hl⟩ := transform_ok h
  obtain ⟨scopes', hosts, hidden, hscopes', h⟩ := alongside_of_lowerable (distinct_numbered t) hl
  refine ⟨scopes, a, scopes', hl, hscopes', fun p hp q hq r r' hr hr' hscope => ?_⟩
  obtain ⟨gs, hm, -⟩ := matches_of_apply hl.apply_eq
  obtain ⟨p', hp', hcp⟩ := hm.mem hp
  obtain ⟨q', hq', hcq⟩ := hm.mem hq
  exact ⟨p', hp', q', hq', hcp, hcq, (h.sameVariable_iff hp hq hcp hcq hr hr' hscope).mpr,
    h.parted hp hq hcp hcq hr hr' hscope⟩

/-- A function that writes to its `arguments`, with an arrow that reads them and one that writes to
them. -/
def argumentsWritten : Tree :=
  let name (x : Text) : Tree := .mk .identifier none [.text x]
  let write : Tree := .mk .assignmentExpression none [.text "=", name "arguments", name "x"]
  let arrow (body : Tree) : Tree := .mk .arrowFunctionExpression none [.list [], body, .bool true]
  .mk .functionExpression none [.null, .list [], .mk .blockStatement none [.list [
    .mk .expressionStatement none [write],
    .mk .expressionStatement none [arrow (name "arguments")],
    .mk .expressionStatement none [arrow write]]]]

/-- Both arrows have the copy, and what the function itself writes to is not the copy. -/
theorem shared_unless_copied_arrows :
    (Session.transform {} argumentsWritten.numbered).fault = none ∧
      ∃ scopes a scopes', ofTree (Session.transform {} argumentsWritten.numbered).tree = .ok scopes' ∧
        (∃ p' ∈ (Session.transform {} argumentsWritten.numbered).tree.places,
          ∃ q' ∈ (Session.transform {} argumentsWritten.numbered).tree.places,
            p'.node.id = .renamed (.numbered 8) ∧ q'.node.id = .renamed (.numbered 12) ∧
            SameVariable scopes' p'.node q'.node) ∧
        ∃ p' ∈ (Session.transform {} argumentsWritten.numbered).tree.places,
          ∃ w' ∈ (Session.transform {} argumentsWritten.numbered).tree.places,
            p'.node.id = .renamed (.numbered 8) ∧ w'.node.id = .numbered 4 ∧
            Parted a scopes scopes' ⟨1, none, some (.numbered 7)⟩ ⟨1, none, none⟩ p'.node w'.node := by
  have hfault : (Session.transform {} argumentsWritten.numbered).fault = none := by decide +kernel
  obtain ⟨scopes, a, scopes', hl, hscopes', hshared⟩ := shared_unless_copied {} argumentsWritten hfault
  have hplaces := hl.computed (f := fun scopes a =>
    decide (∃ p ∈ argumentsWritten.numbered.places, ∃ q ∈ argumentsWritten.numbered.places,
      ∃ w ∈ argumentsWritten.numbered.places,
      (p.node.is .identifier ∧ p.node.id = .numbered 8 ∧
        ProvidedAt scopes a p ⟨1, none, some (.numbered 7)⟩) ∧
      (q.node.is .identifier ∧ q.node.id = .numbered 12 ∧
        ProvidedAt scopes a q ⟨1, none, some (.numbered 10)⟩) ∧
      (w.node.is .identifier ∧ w.node.id = .numbered 4 ∧ ProvidedAt scopes a w ⟨1, none, none⟩) ∧
      (a.replacement? (.numbered 8)).isSome ∧ (a.replacement? (.numbered 12)).isSome ∧
      ¬ (a.replacement? (.numbered 4)).isSome ∧
      scopes.explicitTypes argumentsWritten.numbered 1 = []))
    (by decide +kernel)
  obtain ⟨p, hp, q, hq, w, hw, ⟨hpi, hpid, hr⟩, ⟨hqi, hqid, hr'⟩, ⟨hwi, hwid, hrw⟩, hpnew, hqnew, hwold,
    hnone⟩ := of_decide_eq_true hplaces
  have hid {x x' : Place} (hx : Counterpart a x x') (hi : x.node.is .identifier) :=
    (identifier_counterpart hx hi).1
  refine ⟨hfault, scopes, a, scopes', hscopes', ?_, ?_⟩
  · obtain ⟨p', hp', q', hq', hcp, hcq, hsame, -⟩ := hshared p hp q hq _ _ hr hr' rfl
    refine ⟨p', hp', q', hq', ?_, ?_, hsame fun _ => rfl⟩
    · rw [hid hcp hpi, hpid, Analysis.newId, if_pos hpnew]
    · rw [hid hcq hqi, hqid, Analysis.newId, if_pos hqnew]
  · obtain ⟨p', hp', w', hw', hcp, hcw, -, hparted⟩ := hshared p hp w hw _ _ hr hrw rfl
    refine ⟨p', hp', w', hw', ?_, ?_, hparted hnone rfl rfl⟩
    · rw [hid hcp hpi, hpid, Analysis.newId, if_pos hpnew]
    · rw [hid hcw hwi, hwid, Analysis.newId, if_neg hwold]

/-- The fields that hold what is written to. -/
def writtenFields : List (Kind × Text) :=
  [(.assignmentExpression, "left"), (.updateExpression, "argument"), (.forInStatement, "left")]

/-- Whether a reference writes to its variable. -/
def Place.isWrite (p : Place) : Bool :=
  p.path.head?.any fun s => writtenFields.any fun x => s.owner.is x.1 && s.field = x.2

/-- Every reference to a variable that is written through this one is a reference to the same variable
after lowering. -/
def WrittenShared (a : Analysis) (root : Tree) (scopes : ScopeTable) (u : Tree) (scopes' : ScopeTable) :
    Prop :=
  ∀ p ∈ root.places, ∀ q ∈ root.places, p.isWrite → ∀ r r' : Resolution,
    ProvidedAt scopes a p r → ProvidedAt scopes a q r' → r.scope = r'.scope →
    ∃ p' ∈ u.places, ∃ q' ∈ u.places, Counterpart a p p' ∧ Counterpart a q q' ∧
      SameVariable scopes' p'.node q'.node

/-- What the function writes is not what the first arrow reads. -/
theorem written_not_shared : (Session.transform {} argumentsWritten.numbered).fault = none ∧
      ¬ ∃ scopes a scopes', Lowerable false argumentsWritten.numbered scopes a
          (Session.transform {} argumentsWritten.numbered).tree ∧
        ofTree (Session.transform {} argumentsWritten.numbered).tree = .ok scopes' ∧
        WrittenShared a argumentsWritten.numbered scopes
          (Session.transform {} argumentsWritten.numbered).tree scopes' := by
  refine ⟨by decide +kernel, ?_⟩
  rintro ⟨scopes, a, scopes', hl, hscopes', hshared⟩
  have hplaces := hl.computed (f := fun scopes a =>
    decide (∃ p ∈ argumentsWritten.numbered.places, ∃ q ∈ argumentsWritten.numbered.places,
      p.isWrite ∧ ProvidedAt scopes a p ⟨1, none, none⟩ ∧
      ProvidedAt scopes a q ⟨1, none, some (.numbered 7)⟩ ∧
      (⟨1, none, none⟩ : Resolution).reachesFunction scopes = true)) (by decide +kernel)
  obtain ⟨p, hp, q, hq, hwrite, hr, hr', hreach⟩ := of_decide_eq_true hplaces
  obtain ⟨p', -, q', -, hcp, hcq, hsame⟩ := hshared p hp q hq hwrite _ _ hr hr' rfl
  obtain ⟨t', hosts, hidden, ht', h⟩ := alongside_of_lowerable (distinct_numbered argumentsWritten) hl
  obtain rfl := Except.ok.inj (ht'.symm.trans hscopes')
  cases (h.sameVariable_iff hp hq hcp hcq hr hr' rfl).mp hsame hreach

end ArrowFree
