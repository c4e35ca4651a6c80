import ArrowFree.Proofs.ExplicitDeclarations
import ArrowFree.Proofs.Nesting

/-!
# The positions of identifiers

By its position an identifier is a reference, a key that is not computed, or a declaration
(`position_cases`), and only one of these. What is declared in a scope is what the declarations among the
places have as their home (`mem_declarationsIn_iff`), and the home is the scope that the form of the declaration
asks for (`DeclaredIn`).
-/

namespace ArrowFree

open ArrowFree.Tree Lowering List

variable {type : BindingType} {root : Tree} {p : Place}

/-- The fields of a kind that hold a list of nodes. -/
def Kind.lists : Kind → List Text
  | .program | .blockStatement => ["body"]
  | .variableDeclaration => ["declarations"]
  | .functionDeclaration | .functionExpression | .arrowFunctionExpression => ["params"]
  | .arrayExpression => ["elements"]
  | .objectExpression => ["properties"]
  | .callExpression | .newExpression => ["arguments"]
  | .sequenceExpression => ["expressions"]
  | _ => []

/-- A field for a single node holds no list. -/
def Tree.SingleFields (t : Tree) : Prop :=
  ∀ n ∈ t.nodes, ∀ k ∈ n.kind?, ∀ o ∈ n.occurrences, o.index.isSome → o.field ∈ k.lists

instance (t : Tree) : Decidable t.SingleFields := by
  unfold Tree.SingleFields
  infer_instance

theorem Tree.lists_of_isFunction {t : Tree} (h : t.isFunction) :
    ∃ k, t.kind? = some k ∧ k.lists = ["params"] := by
  unfold Tree.isFunction at h
  cases hk : t.kind? with
  | none => rw [hk] at h; cases h
  | some k =>
    rw [hk] at h
    refine ⟨k, rfl, ?_⟩
    cases k with
    | functionDeclaration | functionExpression | arrowFunctionExpression => rfl
    | _ => cases h

theorem Kind.declares?_cases (k : Kind) {field : Text} {isVar : Bool}
    (h : k.declares? field isVar = some type) :
    k.isFunction ∧ field = "params" ∨ k = .functionExpression ∧ field = "id" ∨
      k = .functionDeclaration ∧ field = "id" ∨ k = .variableDeclarator ∧ field = "id" ∨
      k = .catchClause ∧ field = "param" := by
  unfold declares? at h
  cases k with
  | functionDeclaration | functionExpression => grind [Kind.isFunction, Kind.isOrdinaryFunction]
  | arrowFunctionExpression => grind [Kind.isFunction, Kind.isArrow]
  | variableDeclarator | catchClause => grind
  | _ => cases h

namespace Place

variable {type : BindingType} {o : Occurrence} {k : Kind}

/-- A name of a member or a key of an object, and not a computed one. -/
def IsKey (p : Place) : Prop :=
  ∃ owner, p.parent? = some owner ∧
    (owner.is .memberExpression ∧ p.field? = some "property" ∨
      owner.is .property ∧ p.field? = some "key") ∧
    ((owner.attribute? "computed").getD .null).truthy = false

variable {p : Place} {as : List Addition}

theorem named_of_declares {t owner : Tree} {reach : Reach}
    (h : (t.declares reach type owner).map ([·]) = .ok as) : ∃ name, t.name? = some name := by
  obtain ⟨d, hd, -⟩ := map_ok.mp h
  obtain ⟨name, -, hname, -⟩ := declares_ok hd
  exact ⟨name, hname⟩

theorem named_of_parameterAdditions {ps : List Tree} (h : parameterAdditions ps = .ok as) {q : Tree}
    (hq : q ∈ ps) (hid : q.is .identifier) : ∃ name, q.name? = some name := by
  induction ps generalizing as with
  | nil => cases hq
  | cons q' ps ih =>
    obtain ⟨here, hhere, h⟩ := bind_ok.mp h
    obtain ⟨rest, hrest, -⟩ := bind_ok.mp h
    rcases mem_cons.mp hq with rfl | hq
    · rw [parameterAddition, if_pos hid] at hhere
      exact named_of_declares hhere
    · exact ih hrest hq

/-- An identifier in such a position declares a name. -/
def DeclaredAt (p : Place) (o : Occurrence) : Prop :=
  (∃ type, p.declaredAs? o = some type) ∧ ∃ name, o.tree.name? = some name

theorem declaredAs?_eq (hk : p.node.kind? = some k) (hid : o.tree.is .identifier)
    (hindex : o.index.isSome = decide (o.field = "params")) :
    p.declaredAs? o = k.declares? o.field p.isVar := by
  rw [declaredAs?, if_pos (by simp [hid, hindex]), hk]
  rfl

theorem declaredAt_params (hfun : p.node.isFunction) (h : p.additions = .ok as) (ho : o ∈ p.node.occurrences)
    (hid : o.tree.is .identifier) (hfield : o.field = "params") : p.DeclaredAt o := by
  obtain ⟨kind, h⟩ := functionAdditions_of_isFunction hfun h
  obtain ⟨_, -, h⟩ := bind_ok.mp h
  obtain ⟨_, -, h⟩ := bind_ok.mp h
  obtain ⟨v, hv, h⟩ := bind_ok.mp h
  obtain ⟨ps, hps, h⟩ := bind_ok.mp h
  obtain ⟨params, hparams, -⟩ := bind_ok.mp h
  obtain ⟨i, k, slots, hnode, hslot⟩ := get_eq_ok hv
  have hk : p.node.kind? = some k := by rw [hnode]; rfl
  have hdeclares : k.declares? "params" p.isVar = some .parameter := by
    rw [hnode] at hfun
    cases k with
    | functionDeclaration | functionExpression | arrowFunctionExpression => rfl
    | _ => cases hfun
  obtain ⟨f, w, hw, how⟩ := attribute?_of_occurrence hk ho
  obtain rfl : w = v := by
    rw [hfield, hnode] at hw
    exact Option.some.inj (hw.symm.trans hslot)
  rcases occurrencesOf_cases how with ⟨-, rfl⟩ | ⟨items, rfl, hindex, hmem, -⟩
  · -- a single node cannot be gone through
    obtain ⟨j, rest, htree⟩ := is_iff.mp hid
    rw [htree] at hps
    cases hps
  · cases hps
    refine ⟨⟨.parameter, ?_⟩, named_of_parameterAdditions hparams hmem hid⟩
    rw [declaredAs?_eq hk hid (by simp [hindex, hfield]), hfield]
    exact hdeclares

theorem attribute?_of_single (hk : p.node.kind? = some k) (ho : o ∈ p.node.occurrences)
    (hindex : o.index = none) : p.node.attribute? o.field = some o.tree := by
  obtain ⟨f, v, hv, hov⟩ := attribute?_of_occurrence hk ho
  rcases occurrencesOf_cases hov with ⟨-, rfl⟩ | ⟨items, -, hsome, -⟩
  · exact hv
  · rw [hindex] at hsome
    cases hsome

/-- A function that can have a name has an identifier or nothing there. -/
theorem name_of_function (hfun : p.node.isFunction) (h : p.additions = .ok as) {name : Tree}
    (hname : p.node.attribute? "id" = some name) :
    (∃ k type, p.node.kind? = some k ∧ k.declares? "id" p.isVar = some type) ∧
      (name = .null ∨ ∃ text, name.name? = some text) := by
  obtain ⟨kind, h⟩ := functionAdditions_of_isFunction hfun h
  obtain ⟨outside, houtside, h⟩ := bind_ok.mp h
  obtain ⟨inside, hinside, h⟩ := bind_ok.mp h
  obtain ⟨v, hv, -⟩ := bind_ok.mp h
  obtain ⟨i, k, slots, hnode, -⟩ := get_eq_ok hv
  have hget : p.node.get "id" = .ok name := by rw [Tree.get, hname]
  rw [hnode] at hfun hname
  cases k with
  | functionDeclaration =>
    refine ⟨⟨_, _, by rw [hnode]; rfl, rfl⟩, .inr ?_⟩
    unfold outerName at houtside
    rw [if_pos (by rw [hnode]; rfl), hget] at houtside
    exact named_of_declares houtside
  | functionExpression =>
    refine ⟨⟨_, _, by rw [hnode]; rfl, rfl⟩, ?_⟩
    unfold innerName at hinside
    rw [if_pos (by rw [hnode]; rfl), hget] at hinside
    change (if name.isNull then _ else _) = _ at hinside
    split at hinside
    · rename_i hnull
      unfold Tree.isNull at hnull
      split at hnull
      · exact .inl rfl
      · cases hnull
    · exact .inr (named_of_declares hinside)
  | arrowFunctionExpression =>
    -- an arrow has no such field
    rcases slots with _ | ⟨_, _ | ⟨_, _ | ⟨_, _⟩⟩⟩ <;> cases hname
  | _ => cases hfun

variable {o : Occurrence} (ho : o ∈ p.node.occurrences) (hid : o.tree.is .identifier)
  (hindex : o.index = none)
include ho hid hindex

theorem declaredAt_name (hfun : p.node.isFunction) (h : p.additions = .ok as) (hfield : o.field = "id") :
    p.DeclaredAt o := by
  obtain ⟨k, hk, -⟩ := lists_of_isFunction hfun
  have hattribute := attribute?_of_single hk ho hindex
  rw [hfield] at hattribute
  obtain ⟨⟨k, type, hk, htype⟩, hname⟩ := name_of_function hfun h hattribute
  have has := declaredAs?_eq hk hid (by rw [hindex, hfield]; rfl)
  rw [hfield, htype] at has
  refine ⟨⟨type, has⟩, hname.resolve_left fun hnull => ?_⟩
  rw [hnull] at hid
  cases hid

theorem declaredAt_declarator (hdeclarator : p.node.is .variableDeclarator) (h : p.additions = .ok as)
    (hfield : o.field = "id") : p.DeclaredAt o := by
  have hk : p.node.kind? = some .variableDeclarator := of_decide_eq_true hdeclarator
  have hattribute := attribute?_of_single hk ho hindex
  have has := declaredAs?_eq hk hid (by rw [hindex, hfield]; rfl)
  rw [hfield] at hattribute has
  refine ⟨⟨_, has⟩, ?_⟩
  have hopens : p.opens? = none := by
    unfold opens? Tree.isArrow Tree.isOrdinaryFunction Tree.is
    rw [hk]
    rfl
  unfold additions at h
  rw [hopens, hattribute, hdeclarator] at h
  change (if true && o.tree.is .identifier then p.declaratorAdditions o.tree else .ok []) = .ok as at h
  rw [hid] at h
  change p.declaratorAdditions o.tree = .ok as at h
  unfold declaratorAdditions at h
  split at h
  · cases h
  · obtain ⟨kind, -, h⟩ := bind_ok.mp h
    split at h <;> exact named_of_declares h

theorem declaredAt_catch (hcatch : p.node.is .catchClause) (h : p.additions = .ok as)
    (hfield : o.field = "param") : p.DeclaredAt o := by
  have hk : p.node.kind? = some .catchClause := of_decide_eq_true hcatch
  have hattribute := attribute?_of_single hk ho hindex
  have has := declaredAs?_eq hk hid (by rw [hindex, hfield]; rfl)
  rw [hfield] at hattribute has
  refine ⟨⟨_, has⟩, ?_⟩
  obtain ⟨v, hv, h⟩ := bind_ok.mp (catchAdditions_of_is hcatch h)
  obtain rfl : o.tree = v := by
    rw [Tree.get, hattribute] at hv
    exact Except.ok.inj hv
  rw [hid] at h
  obtain ⟨d, hd, -⟩ := map_ok.mp h
  obtain ⟨name, -, hname, -⟩ := declares_ok hd
  exact ⟨name, hname⟩

omit ho hid hindex

/-! ## One of three -/

theorem identifier_of_declaredAs? (h : p.declaredAs? o = some type) : o.tree.is .identifier := by
  unfold declaredAs? at h
  split at h
  · rename_i hcond
    exact (Bool.and_eq_true_iff.mp hcond).1
  · cases h

theorem kind_of_declaredAs? (h : p.declaredAs? o = some type) :
    ∃ k, p.node.kind? = some k ∧ k.declares? o.field p.isVar = some type := by
  unfold declaredAs? at h
  split at h
  · exact Option.bind_eq_some_iff.mp h
  · cases h

/-- How the identifier at a place declares its name. -/
def declares? (p : Place) : Option BindingType :=
  match p.path with
  | [] => none
  | s :: π => declaredAs? ⟨s.owner, π⟩ ⟨s.field, s.index, p.node⟩

theorem declares?_cases (h : p.declares? = some type) :
    ∃ x s π, p = ⟨x, s :: π⟩ ∧ x.is .identifier ∧
      (s.owner.isFunction ∧ s.field = "params" ∨ s.owner.is .functionExpression ∧ s.field = "id" ∨
        s.owner.is .functionDeclaration ∧ s.field = "id" ∨
        s.owner.is .variableDeclarator ∧ s.field = "id" ∨ s.owner.is .catchClause ∧ s.field = "param") := by
  obtain ⟨x, path⟩ := p
  cases path with
  | nil => cases h
  | cons s π =>
    refine ⟨x, s, π, rfl, ?_⟩
    refine ⟨identifier_of_declaredAs? h, ?_⟩
    obtain ⟨k, hk, h⟩ := kind_of_declaredAs? h
    unfold Tree.isFunction Tree.is
    rw [hk]
    simpa using k.declares?_cases h

theorem IsKey.not_reference (h : p.IsKey) : p.isReference = false := by
  obtain ⟨owner, hparent, hkind, hcomputed⟩ := h
  unfold isReference reference
  rw [hparent]
  rcases hkind with ⟨hk, hfield⟩ | ⟨hk, hfield⟩
  · rw [hfield]
    simp [hk, hcomputed]
  · rw [hfield]
    simp [hk, hcomputed]

theorem not_reference_of_declares (h : p.declares? = some type) : p.isReference = false := by
  obtain ⟨x, ⟨owner, field, index⟩, π, rfl, -, ⟨hk, hfield⟩ | ⟨hk, rfl⟩ | ⟨hk, rfl⟩ | ⟨hk, rfl⟩ | ⟨hk, rfl⟩⟩ :=
    declares?_cases h
  · exact not_reference_of_function hk (.inr hfield)
  all_goals
    obtain ⟨i, slots, rfl⟩ := is_iff.mp hk
    rfl

theorem not_key_of_declares (h : p.declares? = some type) : ¬ p.IsKey := by
  rintro ⟨owner, hparent, hkind, -⟩
  obtain ⟨x, s, π, rfl, -, hform⟩ := declares?_cases h
  obtain rfl : s.owner = owner := Option.some.inj hparent
  unfold Tree.isFunction Tree.is at hform
  rcases hkind with ⟨hk, -⟩ | ⟨hk, -⟩
  · rw [of_decide_eq_true hk] at hform
    simp [Kind.isFunction, Kind.isOrdinaryFunction, Kind.isArrow] at hform
  · rw [of_decide_eq_true hk] at hform
    simp [Kind.isFunction, Kind.isOrdinaryFunction, Kind.isArrow] at hform

theorem index_of_single (hsingle : root.SingleFields) (hp : p ∈ root.places) (hk : p.node.kind? = some k)
    (ho : o ∈ p.node.occurrences) (hfield : o.field ∉ k.lists) : o.index = none := by
  cases hindex : o.index with
  | none => rfl
  | some n =>
    exact absurd (hsingle p.node (node_mem_nodes hp) k hk o ho (by rw [hindex]; rfl)) hfield

end Place

open Place in
/-- **The position of an identifier.** -/
theorem position_cases (hsingle : root.SingleFields) (hadd : ∀ p ∈ root.places, p.additions = .ok p.added)
    (hp : p ∈ root.places) (hid : p.node.is .identifier) :
    p.isReference ∨ p.IsKey ∨ (∃ type, p.declares? = some type) ∧ ∃ name, p.node.name? = some name := by
  obtain ⟨x, path⟩ := p
  cases path with
  | nil => exact .inl rfl
  | cons s π =>
    obtain ⟨howner, hocc, -⟩ := mem_places_cons.mp hp
    have hok := hadd _ howner
    by_cases hkey : (s.owner.is .memberExpression && s.field = "property") ||
        (s.owner.is .property && s.field = "key")
    · cases hcomputed : ((s.owner.attribute? "computed").getD .null).truthy with
      | true =>
        refine .inl ?_
        show (reference ⟨x, s :: π⟩).truthy
        rw [reference]
        exact (congrArg Tree.truthy (if_pos hkey)).trans hcomputed
      | false =>
        refine .inr (.inl ⟨s.owner, rfl, ?_, hcomputed⟩)
        simpa [field?] using hkey
    by_cases hfun : s.owner.isFunction && (s.field = "id" || s.field = "params")
    · refine .inr (.inr ?_)
      simp only [Bool.and_eq_true, Bool.or_eq_true, decide_eq_true_eq] at hfun
      rcases hfun with ⟨hfun, hfield | hfield⟩
      · obtain ⟨k, hk, hlists⟩ := lists_of_isFunction hfun
        have hnone := index_of_single hsingle howner hk hocc (by simp [hlists, hfield]; decide)
        exact declaredAt_name hocc hid hnone hfun hok hfield
      · exact declaredAt_params hfun hok hocc hid hfield
    by_cases hdeclarator : s.owner.is .variableDeclarator && s.field = "id"
    · refine .inr (.inr ?_)
      rw [Bool.and_eq_true, decide_eq_true_eq] at hdeclarator
      have hk : s.owner.kind? = some .variableDeclarator := of_decide_eq_true hdeclarator.1
      have hnone := index_of_single hsingle howner hk hocc (by simp [Kind.lists])
      exact declaredAt_declarator hocc hid hnone hdeclarator.1 hok hdeclarator.2
    by_cases hcatch : s.owner.is .catchClause && s.field = "param"
    · refine .inr (.inr ?_)
      rw [Bool.and_eq_true, decide_eq_true_eq] at hcatch
      have hk : s.owner.kind? = some .catchClause := of_decide_eq_true hcatch.1
      have hnone := index_of_single hsingle howner hk hocc (by simp [Kind.lists])
      exact declaredAt_catch hocc hid hnone hcatch.1 hok hcatch.2
    · refine .inl ?_
      have hreference : reference ⟨x, s :: π⟩ = .bool true := by
        rw [reference]
        exact (if_neg hkey).trans ((if_neg hfun).trans ((if_neg hdeclarator).trans (if_neg hcatch)))
      rw [isReference, hreference]
      rfl

/-! ## The homes of declarations -/

namespace ScopeTable

/-- The scope in which the form of a declaration puts it: a parameter or the name of a function expression
in that of the function, the parameter of a catch clause in that of the clause, a variable in the innermost
scope, and a `var` or the name of a declared function in the nearest one that is no block. -/
inductive DeclaredIn (t : ScopeTable) : Place → Nat → Prop where
  | parameter {x : Tree} {s : Step} {π : Path} {i : Nat} (hk : s.owner.isFunction)
      (hfield : s.field = "params") (h : t.ScopeFor ⟨s.owner, π⟩ i) : DeclaredIn t ⟨x, s :: π⟩ i
  | functionName {x : Tree} {s : Step} {π : Path} {i : Nat} (hk : s.owner.is .functionExpression)
      (hfield : s.field = "id") (h : t.ScopeFor ⟨s.owner, π⟩ i) : DeclaredIn t ⟨x, s :: π⟩ i
  | catchParameter {x : Tree} {s : Step} {π : Path} {i : Nat} (hk : s.owner.is .catchClause)
      (hfield : s.field = "param") (h : t.ScopeFor ⟨s.owner, π⟩ i) : DeclaredIn t ⟨x, s :: π⟩ i
  | lexical {x : Tree} {s : Step} {π : Path} {i : Nat} (hk : s.owner.is .variableDeclarator)
      (hfield : s.field = "id") (hvar : Place.isVar ⟨s.owner, π⟩ = false)
      (h : t.StandsIn ⟨s.owner, π⟩ i) : DeclaredIn t ⟨x, s :: π⟩ i
  | variable {x : Tree} {s : Step} {π : Path} {i j : Nat} (hk : s.owner.is .variableDeclarator)
      (hfield : s.field = "id") (hvar : Place.isVar ⟨s.owner, π⟩) (h : t.StandsIn ⟨s.owner, π⟩ j)
      (hi : t.variableScope? j = some i) : DeclaredIn t ⟨x, s :: π⟩ i
  | function {x : Tree} {s : Step} {π : Path} {i j : Nat} (hk : s.owner.is .functionDeclaration)
      (hfield : s.field = "id") (h : t.StandsIn ⟨s.owner, π⟩ j) (hi : t.variableScope? j = some i) :
      DeclaredIn t ⟨x, s :: π⟩ i

/-- The scope that the declaration at a place is for. -/
def home (t : ScopeTable) (p : Place) : Nat :=
  match p.path with
  | [] => 0
  | s :: π => t.target ⟨s.owner, π⟩ (Place.reachFrom ⟨s.owner, π⟩ s.field)

variable {t : ScopeTable} {root : Tree}

theorem Outlined.variableScope_target (h : t.Outlined root.places) (p : Place) :
    t.variableScope? (t.enclosing p.path) = some (t.target p .variable) := by
  obtain ⟨i, hi⟩ := Option.isSome_iff_exists.mp
    (h.rooted.variableScope?_isSome (h.rooted.enclosing_lt p.path))
  rw [target, hi]
  rfl

/-- The home is the scope that the form asks for. -/
theorem Outlined.declaredIn_home (h : t.Outlined root.places) (hp : p ∈ root.places)
    (hdecl : p.declares? = some type) : t.DeclaredIn p (t.home p) := by
  obtain ⟨x, s, π, rfl, -, hform⟩ := Place.declares?_cases hdecl
  have howner := (mem_places_cons.mp hp).1
  have hstands := h.standsIn s.owner (h.closed _ howner)
  have hhome : t.home ⟨x, s :: π⟩ = t.target ⟨s.owner, π⟩ (Place.reachFrom ⟨s.owner, π⟩ s.field) := rfl
  rw [hhome]
  rcases hform with ⟨hk, hfield⟩ | ⟨hk, hfield⟩ | ⟨hk, hfield⟩ | ⟨hk, hfield⟩ | ⟨hk, hfield⟩
  · obtain ⟨kind, hopens⟩ : ∃ kind, Place.Opens ⟨s.owner, π⟩ kind := by
      have hk' := hk
      rw [isFunction_eq, Bool.or_eq_true] at hk'
      rcases hk' with hk' | hk'
      · rw [isOrdinaryFunction_eq, Bool.or_eq_true] at hk'
        exact ⟨_, .function hk'⟩
      · rw [isArrow_eq] at hk'
        exact ⟨_, .arrow hk'⟩
    rw [hfield, reachFrom_of_function hk]
    exact .parameter hk hfield (h.scopeFor_number howner hopens)
  · have hreach : Place.reachFrom ⟨s.owner, π⟩ s.field = .own := by
      obtain ⟨i, slots, hnode⟩ := is_iff.mp hk
      rw [Place.reachFrom, hnode]
      rfl
    rw [hreach]
    exact .functionName hk hfield (h.scopeFor_number howner (.function (.inr hk)))
  · have hreach : Place.reachFrom ⟨s.owner, π⟩ s.field = .variable := by
      rw [Place.reachFrom, if_pos (by simp [hk, hfield])]
    rw [hreach]
    exact .function hk hfield hstands (h.variableScope_target ⟨s.owner, π⟩)
  · have hreach : Place.reachFrom ⟨s.owner, π⟩ s.field =
        if Place.isVar ⟨s.owner, π⟩ then .variable else .innermost := by
      obtain ⟨i, slots, hnode⟩ := is_iff.mp hk
      unfold Place.reachFrom Place.isVar
      simp only [decide_eq_true_eq, hnode]
      rfl
    rw [hreach]
    cases hvar : Place.isVar ⟨s.owner, π⟩ with
    | true => exact .variable hk hfield hvar hstands (h.variableScope_target ⟨s.owner, π⟩)
    | false => exact .lexical hk hfield hvar hstands
  · have hreach : Place.reachFrom ⟨s.owner, π⟩ s.field = .own := by
      obtain ⟨i, slots, hnode⟩ := is_iff.mp hk
      rw [Place.reachFrom, hnode]
      rfl
    rw [hreach]
    exact .catchParameter hk hfield (h.scopeFor_number howner (.clause hk))

/-- **The declarations in a scope** are the places that have it as their home. -/
theorem mem_declarationsIn_iff (hadd : ∀ p ∈ root.places, p.additions = .ok p.added) {i : Nat}
    {name : Text} {id : NodeId} :
    (∃ d ∈ t.declarationsIn root.places i, d.name = name ∧ d.identifier = id) ↔
      ∃ p ∈ root.places, (∃ type, p.declares? = some type) ∧ p.node.name? = some name ∧
        p.node.id = id ∧ t.home p = i := by
  constructor
  · rintro ⟨d, hd, rfl, rfl⟩
    obtain ⟨p, hp, hd⟩ := mem_flatMap.mp hd
    rw [declarations_eq_filterMap (hadd p hp)] at hd
    obtain ⟨o, ho, hd⟩ := mem_filterMap.mp hd
    obtain ⟨x, hx, hd⟩ := Option.bind_eq_some_iff.mp hd
    obtain ⟨type, htype, hx⟩ := Option.bind_eq_some_iff.mp hx
    obtain ⟨name, hname, rfl⟩ := Option.map_eq_some_iff.mp hx
    rw [Addition.declarationIn] at hd
    split at hd
    · rename_i hi
      cases hd
      have hnode : o.tree.isNode := by
        obtain ⟨j, slots, htree⟩ := is_iff.mp (Place.identifier_of_declaredAs? htype)
        rw [htree]
        rfl
      exact ⟨⟨o.tree, o.step p.node :: p.path⟩, mem_places_cons.mpr ⟨hp, ho, hnode⟩, ⟨type, htype⟩, hname,
        rfl, hi⟩
    · cases hd
  · rintro ⟨⟨x, path⟩, hp, ⟨type, htype⟩, hname, rfl, rfl⟩
    cases path with
    | nil => cases htype
    | cons s π =>
      obtain ⟨howner, hocc, -⟩ := mem_places_cons.mp hp
      refine ⟨⟨name, type, if type = .parameter then x.id else s.owner.id, x.id⟩,
        mem_flatMap.mpr ⟨_, howner, ?_⟩, rfl, rfl⟩
      rw [declarations_eq_filterMap (hadd _ howner)]
      refine mem_filterMap.mpr ⟨_, hocc, ?_⟩
      have hby : Place.declaredBy? ⟨s.owner, π⟩ ⟨s.field, s.index, x⟩ =
          some (.binding (Place.reachFrom ⟨s.owner, π⟩ s.field) name type
            (if type = .parameter then x.id else s.owner.id) x.id) := by
        rw [Place.declaredBy?, show Place.declaredAs? ⟨s.owner, π⟩ ⟨s.field, s.index, x⟩ = some type from htype,
          Option.bind_some, hname]
        rfl
      rw [hby]
      exact if_pos rfl

end ScopeTable

end ArrowFree
