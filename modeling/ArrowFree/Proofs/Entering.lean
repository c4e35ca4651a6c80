import ArrowFree.Proofs.Declarations

/-!
# What a table is after some additions

Scopes are numbered in the order in which they are opened and keep their kind, node and parent
(`Extends`). Additions only give them more declarations: `addAll_bindings` says what the scopes hold
after declarations for one scope, and `addAll_opening` what they hold after a place has opened a scope.
-/

namespace ArrowFree

open List

/-- The scope without its bindings and children: what does not change any more once it is open. -/
def Scope.bare (s : Scope) : Scope := { s with bindings := [], children := [] }

theorem Scope.of_bare {s s' : Scope} (h : s.bare = s'.bare) :
    s.kind = s'.kind ∧ s.node = s'.node ∧ s.parent = s'.parent :=
  ⟨(Scope.mk.inj h).1, (Scope.mk.inj h).2.1, (Scope.mk.inj h).2.2.2.1⟩

/-- What a declaration adds to its scope. -/
def Addition.declaration? : Addition → Option Declaration
  | .binding _ name type node identifier => some ⟨name, type, node, identifier⟩
  | _ => none

/-- What is referred to in a scope. -/
def Addition.reference? (current : Nat) : Addition → Option Reference
  | .reference identifier name => some ⟨identifier, name, current⟩
  | _ => none

namespace ScopeTable

variable {more' more : Nat → List Declaration} {current i : Nat}

/-! ## Numbers of scopes -/

variable {t u : ScopeTable}

/-- The number of the scope of a node, or of the program's scope if the node has none. -/
def number (t : ScopeTable) (id : NodeId) : Nat := (t.scopeOf? id).getD 0

theorem enclosing_cons (t : ScopeTable) (s : Step) (π : Path) : t.enclosing (s :: π) =
      if (Place.opens? ⟨s.owner, π⟩).isSome then t.number s.owner.id else t.enclosing π := rfl

theorem scopeOf?_eq (t : ScopeTable) (id : NodeId) :
    t.scopeOf? id = ((List.range t.scopes.length).zip (t.scopes.map Scope.node)).reverse.findSome?
      fun x => if x.2 = id then some x.1 else none := by
  rw [zip_map_right, ← map_reverse, findSome?_map]
  rfl

theorem scopeOf?_push (t : ScopeTable) (s : Scope) (id : NodeId) :
    (t.push s).scopeOf? id = if s.node = id then some t.scopes.length else t.scopeOf? id := by
  have hnodes : (t.push s).scopes.map Scope.node = t.scopes.map Scope.node ++ [s.node] := by
    rw [push, map_append, map_adopt Scope.node fun _ _ => rfl]
    rfl
  rw [scopeOf?_eq, scopeOf?_eq, hnodes, length_push, range_succ, zip_append (by simp),
    reverse_append]
  by_cases h : s.node = id
  · simp [h]
  · simp [h]

theorem scopeOf?_define (t : ScopeTable) (i : Nat) (name : Text) (type : BindingType)
    (node identifier id : NodeId) :
    (t.define i name type node identifier).scopeOf? id = t.scopeOf? id := by
  have hnodes : (t.define i name type node identifier).scopes.map Scope.node =
      t.scopes.map Scope.node := by
    refine ext_getElem? ?_
    intro j
    rw [getElem?_map, getElem?_map, getElem?_define, Option.map_map]
    refine congrArg (fun f => Option.map f _) (funext fun s => ?_)
    simp only [Function.comp]
    split <;> rfl
  rw [scopeOf?_eq, scopeOf?_eq, hnodes, length_define]

theorem number_define (t : ScopeTable) (i : Nat) (name : Text) (type : BindingType)
    (node identifier id : NodeId) :
    (t.define i name type node identifier).number id = t.number id := by
  rw [number, scopeOf?_define, number]

theorem enclosing_define (t : ScopeTable) (i : Nat) (name : Text) (type : BindingType)
    (node identifier : NodeId) (π : Path) :
    (t.define i name type node identifier).enclosing π = t.enclosing π := by
  induction π with
  | nil => rfl
  | cons s π ih => rw [enclosing_cons, enclosing_cons, ih, number_define]

theorem number_add (t : ScopeTable) (current : Nat) (x : Addition) (id : NodeId) :
    (t.add current x).number id =
      match x with
      | .scope _ node _ => if node = id then t.scopes.length else t.number id
      | _ => t.number id := by
  unfold number
  cases x with
  | scope kind node nodeType =>
    show ((t.push _).scopeOf? id).getD 0 = _
    rw [scopeOf?_push]
    simp only
    split <;> rfl
  | binding reach name type node identifier => exact number_define t _ _ _ _ _ _
  | reference identifier name => rfl

theorem references_addAll (t : ScopeTable) (current : Nat) (xs : List Addition) :
    (t.addAll current xs).references =
      t.references ++ xs.filterMap (Addition.reference? current) := by
  induction xs generalizing t with
  | nil => exact (append_nil _).symm
  | cons x xs ih =>
    show ((t.add current x).addAll current xs).references = _
    rw [ih]
    cases x with
    | scope kind node nodeType => rfl
    | binding reach name type node identifier => rfl
    | reference identifier name => exact append_assoc _ _ _

/-! ## Extending a table -/

/-- The scopes of the first table are in the second, with other bindings perhaps. -/
def Extends (t u : ScopeTable) : Prop :=
  ∀ (i : Nat) (s : Scope), t.scopes[i]? = some s →
    ∃ s', u.scopes[i]? = some s' ∧ s'.bare = s.bare

theorem extends_define (t : ScopeTable) (i : Nat) (name : Text) (type : BindingType)
    (node identifier : NodeId) : t.Extends (t.define i name type node identifier) := by
  intro j s hs
  rw [getElem?_define, hs]
  refine ⟨_, rfl, ?_⟩
  split <;> rfl

/-- The chains of the scopes of a table are the same in an extension of it. -/
theorem Extends.scopesOn (h : t.Extends u) (ht : t.Rooted) (hu : u.Rooted) (hi : i < t.scopes.length) :
    (u.scopesOn i).map (fun x => (x.1, x.2.bare)) =
      (t.scopesOn i).map fun x => (x.1, x.2.bare) := by
  refine ht.induction (P := fun i => (u.scopesOn i).map (fun x => (x.1, x.2.bare)) =
      (t.scopesOn i).map fun x => (x.1, x.2.bare)) ?_ ?_ hi
  · obtain ⟨s, hs, -, hon⟩ := ht.scopesOn_zero
    obtain ⟨s', hs', -, hon'⟩ := hu.scopesOn_zero
    obtain ⟨s'', hs'', hbare⟩ := h _ _ hs
    obtain rfl : s' = s'' := Option.some.inj (hs'.symm.trans hs'')
    rw [hon, hon']
    simp [hbare]
  · intro i p s hs hp ih
    obtain ⟨s', hs', hbare⟩ := h _ _ hs
    have hp' : s'.parent = some p := (congrArg Scope.parent hbare).trans hp
    rw [ht.scopesOn_succ hs hp, hu.scopesOn_succ hs' hp', map_cons, map_cons, ih, hbare]

theorem variableScope?_eq (t : ScopeTable) (i : Nat) :
    t.variableScope? i = (((t.scopesOn i).map fun x => (x.1, x.2.bare)).find? fun x =>
      x.2.kind ≠ .block).map Prod.fst := by
  unfold variableScope?
  rw [find?_map, Option.map_map]
  rfl

theorem Extends.variableScope? (h : t.Extends u) (ht : t.Rooted) (hu : u.Rooted) (hi : i < t.scopes.length) :
    u.variableScope? i = t.variableScope? i := by
  rw [variableScope?_eq, variableScope?_eq, h.scopesOn ht hu hi]

/-! ## Declarations -/

/-- The scopes of the first table are in the second and hold some more declarations. -/
def Grows (t u : ScopeTable) (more : Nat → List Declaration) : Prop :=
  ∀ (i : Nat) (s : Scope), t.scopes[i]? = some s →
    ∃ s', u.scopes[i]? = some s' ∧ s'.bare = s.bare ∧
      ∀ ds, s.Holds ds → s'.Holds (ds ++ more i)

theorem Grows.trans {v : ScopeTable} (h : t.Grows u more) (h' : u.Grows v more') :
    t.Grows v fun i => more i ++ more' i := by
  intro i s hs
  obtain ⟨s', hs', hbare, hholds⟩ := h i s hs
  obtain ⟨s'', hs'', hbare', hholds'⟩ := h' i s' hs'
  refine ⟨s'', hs'', hbare'.trans hbare, fun ds hds => ?_⟩
  rw [← append_assoc]
  exact hholds' _ (hholds ds hds)

theorem Grows.congr (h : t.Grows u more) (heq : ∀ i, more i = more' i) : t.Grows u more' :=
  (funext heq : more = more') ▸ h

theorem grows_self (t : ScopeTable) : t.Grows t fun _ => [] := by
  intro i s hs
  refine ⟨s, hs, rfl, fun ds hds => ?_⟩
  rwa [append_nil]

theorem grows_push (t : ScopeTable) (s : Scope) : t.Grows (t.push s) fun _ => [] := by
  intro i s' hs'
  obtain ⟨children, hpush⟩ := t.getElem?_push_old s hs'
  exact ⟨_, hpush, rfl, fun ds hds => by rwa [append_nil]⟩

theorem grows_define (t : ScopeTable) (i : Nat) (name : Text) (type : BindingType)
    (node identifier : NodeId) :
    t.Grows (t.define i name type node identifier)
      fun j => if i = j then [⟨name, type, node, identifier⟩] else [] := by
  intro j s hs
  rw [getElem?_define, hs]
  refine ⟨_, rfl, by split <;> rfl, fun ds hds => ?_⟩
  simp only
  by_cases h : i = j
  · rw [if_pos h, if_pos h]
    exact hds.define name type node identifier
  · rw [if_neg h, if_neg h, append_nil]
    exact hds

theorem reached_define (ht : t.Rooted) (hc : current < t.scopes.length) (reach : Reach) (i : Nat)
    (name : Text) (type : BindingType) (node identifier : NodeId) :
    (t.define i name type node identifier).reached current reach = t.reached current reach := by
  cases reach with
  | own => simp [reached]
  | innermost => rfl
  | «variable» =>
    unfold reached
    rw [(extends_define t i name type node identifier).variableScope? ht (ht.define _ _ _ _ _) hc]

/-- **Declarations for one scope.** Nothing else changes. -/
theorem addAll_bindings (ht : t.Rooted) (hc : current < t.scopes.length) {reach : Reach}
    {xs : List Addition} (hxs : ∀ x ∈ xs, x.BindsTo reach) :
    (t.addAll current xs).references = t.references ∧
    (t.addAll current xs).scopes.length = t.scopes.length ∧
    (∀ id, (t.addAll current xs).number id = t.number id) ∧
    t.Grows (t.addAll current xs) fun i =>
      if t.reached current reach = i then xs.filterMap Addition.declaration? else [] := by
  induction xs generalizing t with
  | nil =>
    exact ⟨rfl, rfl, fun id => rfl, (grows_self t).congr fun i => by simp⟩
  | cons x xs ih =>
    obtain ⟨name, type, node, identifier, rfl⟩ := hxs x mem_cons_self
    let u := t.define (t.reached current reach) name type node identifier
    have hc' : current < u.scopes.length := by rwa [length_define]
    obtain ⟨hrefs, hlength, hnumber, hgrows⟩ := ih (ht.define _ _ _ _ _ : u.Rooted) hc'
      fun x hx => hxs x (mem_cons_of_mem _ hx)
    refine ⟨hrefs, hlength.trans (length_define ..), fun id => (hnumber id).trans ?_, ?_⟩
    · exact number_add t current (.binding reach name type node identifier) id
    · rw [reached_define ht hc] at hgrows
      refine ((grows_define t _ name type node identifier).trans hgrows).congr ?_
      intro i
      split <;> rfl

/-- **Opening a scope.** The scope comes last and holds what the place declares in it. -/
theorem addAll_opening (ht : t.Rooted) (hc : current < t.scopes.length) {outs ins : List Addition}
    (kind : ScopeKind) (node : NodeId) (nodeType : Scalar) (houts : ∀ x ∈ outs, x.BindsTo .variable)
    (hins : ∀ x ∈ ins, x.BindsTo .own) : let u := t.addAll current (outs ++ .scope kind node nodeType :: ins)
    u.references = t.references ∧ u.scopes.length = t.scopes.length + 1 ∧
    (∀ id, u.number id = if node = id then t.scopes.length else t.number id) ∧
    (t.Grows u fun i =>
      if t.reached current .variable = i then outs.filterMap Addition.declaration? else []) ∧
    ∃ s, u.scopes[t.scopes.length]? = some s ∧ s.bare = ⟨kind, node, nodeType, some current, [], []⟩ ∧
      s.Holds (ins.filterMap Addition.declaration?) := by
  intro u
  let new : Scope := ⟨kind, node, nodeType, some current, [], []⟩
  obtain ⟨hrefs, hlength, hnumber, hgrows⟩ := addAll_bindings ht hc houts
  let v := t.addAll current outs
  have hc' : current < v.scopes.length := by rwa [hlength]
  have hv : v.Rooted := ht.addAll hc outs
  have hlast : (v.push new).scopes.length = t.scopes.length + 1 := by
    rw [length_push, hlength]
  have hw : (v.push new).Rooted := hv.push rfl hc'
  have hown : (v.push new).reached current .own = t.scopes.length := by
    simp only [reached, hlast, Nat.add_sub_cancel]
  obtain ⟨hrefs', hlength', hnumber', hgrows'⟩ :=
    addAll_bindings hw (by omega : current < (v.push new).scopes.length) hins
  have hu : u = (v.push new).addAll current ins := by
    show t.addAll current _ = _
    rw [addAll_append]
    rfl
  rw [hu]
  refine ⟨hrefs'.trans hrefs, hlength'.trans hlast, fun id => ?_, ?_, ?_⟩
  · rw [hnumber' id, ← hnumber id, ← hlength]
    exact number_add v current (.scope kind node nodeType) id
  · intro i s hs
    have hi : i < t.scopes.length := (List.getElem?_eq_some_iff.mp hs).1
    obtain ⟨s', hs', hbare, hholds⟩ := (hgrows.trans ((grows_push v new).trans hgrows')) i s hs
    refine ⟨s', hs', hbare, fun ds hds => ?_⟩
    have hmore := hholds ds hds
    simp only [hown, if_neg (by omega : t.scopes.length ≠ i), append_nil] at hmore
    exact hmore
  · have hnew : (v.push new).scopes[t.scopes.length]? = some new := by
      have hv' : v.scopes.length = t.scopes.length := hlength
      rw [← hv', getElem?_push_new]
    obtain ⟨s, hs, hbare, hholds⟩ := hgrows' _ _ hnew
    refine ⟨s, hs, hbare, ?_⟩
    have hmore := hholds [] rfl
    simp only [hown, if_pos, nil_append] at hmore
    exact hmore

end ScopeTable

end ArrowFree
