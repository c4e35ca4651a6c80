import ArrowFree.Proofs.Classification

/-!
# Explicit declarations of `arguments`

An identifier declares its name by its position: as a parameter, as the name of a function, as the name
of a variable or as the parameter of a catch clause (`Place.declaredAs?`). The bindings of a scope are those
of the positions that reach it, in the order in which their nodes are entered (`bindings_added`). A walk
for `arguments` therefore ends at the first scope that is not transparent or that has an explicit declaration,
and the type of the binding is that of the first explicit declaration there. The exception is a function
expression that is itself named `arguments`: its name comes first in the scope, the other declarations join
it, and the walk takes the scope for one that declares nothing (`resolve_explicit`).
-/

namespace ArrowFree

open ArrowFree.Tree Lowering List

variable {o : Occurrence}

/-! ## Declaring positions -/

/-- The declaration around a declarator is a `var`. -/
def Place.isVar (p : Place) : Bool :=
  (p.parent?.bind fun parent => parent.attribute? "kind") = some (.text "var")

/-- How an identifier in a field of a node of this kind declares its name. -/
def Kind.declares? (k : Kind) (field : Text) (isVar : Bool) : Option BindingType :=
  match k with
  | .functionDeclaration =>
    if field = "id" then some .function else if field = "params" then some .parameter else none
  | .functionExpression =>
    if field = "id" then some .functionName else if field = "params" then some .parameter else none
  | .arrowFunctionExpression => if field = "params" then some .parameter else none
  | .variableDeclarator =>
    if field = "id" then some (if isVar then .variable else .lexical) else none
  | .catchClause => if field = "param" then some .catchParameter else none
  | _ => none

/-- How an identifier in a field of the place declares its name. Parameters stand in a list, other
names on their own. -/
def Place.declaredAs? (p : Place) (o : Occurrence) : Option BindingType :=
  if o.tree.is .identifier && o.index.isSome = (o.field = "params") then
    p.node.kind?.bind fun k => k.declares? o.field p.isVar
  else none

/-- The binding of an identifier in a field of the place. -/
def Place.declaredBy? (p : Place) (o : Occurrence) : Option Addition :=
  (p.declaredAs? o).bind fun type => o.tree.name?.map fun name =>
    .binding (p.reachFrom o.field) name type
      (if type = .parameter then o.tree.id else p.node.id) o.tree.id

def Addition.isBinding : Addition → Bool
  | .binding .. => true
  | _ => false

namespace Place

variable {p : Place} {as : List Addition} {k : Kind} (hk : p.node.kind? = some k)
variable {ps : List Tree} {f : Field} {v : Tree} {reach : Reach}

theorem declaredBy?_of_not_identifier (h : o.tree.is .identifier = false) : p.declaredBy? o = none := by
  unfold declaredBy? declaredAs?
  rw [h]
  rfl

theorem filterMap_unnamed (hf : f.name ≠ "params") (hv : v.is .identifier = false) :
    (occurrencesOf f v).filterMap p.declaredBy? = [] := by
  refine filterMap_eq_nil_iff.mpr fun o ho => ?_
  have hfield := field_of_mem_occurrencesOf ho
  unfold occurrencesOf at ho
  split at ho
  · split at ho
    · -- only parameters are declared by the items of a list
      obtain ⟨-, ⟨k, hindex⟩, -⟩ := mem_itemsFrom ho
      rw [declaredBy?, declaredAs?, if_neg (by simp [hindex, hfield, hf])]
      rfl
    · rw [mem_singleton.mp ho]
      exact declaredBy?_of_not_identifier hv
  · cases ho

include hk

theorem filterMap_occurrencesIn {fs : List Field} {ts : List Tree}
    (h : ∀ f ∈ fs, ∀ isVar, k.declares? f.name isVar = none) :
    (occurrencesIn fs ts).filterMap p.declaredBy? = [] := by
  refine filterMap_eq_nil_iff.mpr fun o ho => ?_
  obtain ⟨f, hf, hfield⟩ := field_of_mem_occurrencesIn ho
  rw [declaredBy?, declaredAs?, hfield, hk, Option.bind_some, h f hf, ite_self]
  rfl

theorem filterMap_declares (hf : f.child) (type : BindingType) (hname : f.name ≠ "params")
    (hdecl : k.declares? f.name p.isVar = some type) (htype : type ≠ .parameter)
    (hreach : p.reachFrom f.name = reach) {d : Addition} (h : v.declares reach type p.node = .ok d) :
    (occurrencesOf f v).filterMap p.declaredBy? = [d] := by
  obtain ⟨name, hdeclared, rfl⟩ := map_ok.mp h
  obtain ⟨i, rest, rfl⟩ := declaredName_ok hdeclared
  have has : p.declaredAs? ⟨f.name, none, .node i (.known .identifier) (.text name :: rest)⟩ =
      some type := by
    rw [declaredAs?, if_pos (by simp [hname]; rfl), hk]
    exact hdecl
  rw [occurrencesOf_of_isNode hf rfl, filterMap_cons, filterMap_nil, declaredBy?, has,
    Option.bind_some, hreach, if_neg htype]
  rfl

variable (hdecl : k.declares? "params" p.isVar = some .parameter)
  (hreach : p.reachFrom "params" = .own)
include hdecl hreach

theorem filterMap_itemsFrom (n : Nat) (h : parameterAdditions ps = .ok as) :
    (itemsFrom "params" n ps).filterMap p.declaredBy? = as := by
  induction ps generalizing n as with
  | nil => exact Except.ok.inj h
  | cons q ps ih =>
    obtain ⟨here, hhere, h⟩ := bind_ok.mp h
    obtain ⟨rest, hrest, h⟩ := bind_ok.mp h
    cases h
    rw [itemsFrom, ← singleton_append, filterMap_append, ih (n + 1) hrest]
    congr 1
    unfold parameterAddition at hhere
    split at hhere
    · rename_i hid
      obtain ⟨d, hd, rfl⟩ := map_ok.mp hhere
      obtain ⟨name, hname, rfl⟩ := map_ok.mp hd
      have has : p.declaredAs? ⟨"params", some n, q⟩ = some .parameter := by
        rw [declaredAs?, if_pos (by simp [hid]), hk]
        exact hdecl
      obtain ⟨i, slots, rfl⟩ := declaredName_ok hname
      rw [filterMap_cons, filterMap_nil, declaredBy?, has, Option.bind_some, hreach,
        if_pos rfl]
      rfl
    · rename_i hid
      cases hhere
      rw [filterMap_cons, filterMap_nil, declaredBy?_of_not_identifier (by simpa using hid)]

omit hk hdecl hreach in
theorem parameterAdditions_of_not_identifiers
    (h : ∀ q ∈ ps, q.is .identifier = false) : parameterAdditions ps = .ok [] := by
  induction ps with
  | nil => rfl
  | cons q ps ih =>
    obtain ⟨hq, hps⟩ := forall_mem_cons.mp h
    rw [parameterAdditions, ih hps, parameterAddition, if_neg (by simp [hq])]
    rfl

theorem filterMap_params (hiter : v.iterate = .ok ps) (h : parameterAdditions ps = .ok as) :
    (occurrencesOf (.sub "params") v).filterMap p.declaredBy? = as := by
  -- the items of anything but a list are no identifiers
  have hother (hps : ∀ q ∈ ps, q.is .identifier = false) : as = [] :=
    Except.ok.inj (h.symm.trans (parameterAdditions_of_not_identifiers hps))
  cases v with
  | list items =>
    cases hiter
    exact filterMap_itemsFrom hk hdecl hreach 0 h
  | node i s slots => cases hiter
  | object fields =>
    cases hiter
    obtain rfl := hother fun q hq => by
      obtain ⟨_, -, rfl⟩ := mem_map.mp hq
      rfl
    rfl
  | scalar x =>
    cases x with
    | text t =>
      cases hiter
      obtain rfl := hother fun q hq => by
        obtain ⟨_, -, rfl⟩ := mem_map.mp hq
        rfl
      rfl
    | _ => cases hiter

omit hk hdecl hreach

theorem filter_bindsTo {xs : List Addition} (h : ∀ x ∈ xs, x.BindsTo reach) :
    xs.filter Addition.isBinding = xs := by
  refine filter_eq_self.mpr fun x hx => ?_
  obtain ⟨name, type, node, identifier, rfl⟩ := h x hx
  rfl

theorem filter_function {kind : ScopeKind} (hfun : p.node.isFunction)
    (h : functionAdditions kind p.node = .ok as) :
    as.filter Addition.isBinding = p.node.occurrences.filterMap p.declaredBy? := by
  have hreach := reachFrom_of_function hfun
  obtain ⟨outside, houtside, h⟩ := bind_ok.mp h
  obtain ⟨inside, hinside, h⟩ := bind_ok.mp h
  obtain ⟨v, hv, h⟩ := bind_ok.mp h
  obtain ⟨ps, hps, h⟩ := bind_ok.mp h
  obtain ⟨params, hparams, h⟩ := bind_ok.mp h
  cases h
  rw [filter_append, filter_cons_of_neg (by simp [Addition.isBinding]), filter_append,
    filter_bindsTo (bindsTo_outerName houtside), filter_bindsTo (bindsTo_innerName hinside),
    filter_bindsTo (bindsTo_parameterAdditions hparams)]
  obtain ⟨i, k, slots, hnode, hslot⟩ := get_eq_ok hv
  obtain ⟨node, π⟩ := p
  subst hnode
  cases k with
  | functionDeclaration =>
    match slots with
    | [] => cases hslot
    | [_] => cases hslot
    | name :: w :: rest =>
      obtain rfl : w = v := Option.some.inj hslot
      cases hinside
      obtain ⟨d, hd, rfl⟩ := map_ok.mp
        (show (name.declares .variable .function _).map ([·]) = Except.ok outside from houtside)
      rw [occurrences_node, Shape.fields, Kind.layout, occurrencesIn_cons, occurrencesIn_cons,
        filterMap_append, filterMap_append, filterMap_occurrencesIn rfl (by decide),
        append_nil]
      exact congrArg₂ _ (filterMap_declares rfl rfl .function (by decide) rfl nofun rfl hd).symm
        (filterMap_params rfl rfl hreach hps hparams).symm
  | functionExpression =>
    match slots with
    | [] => cases hslot
    | [_] => cases hslot
    | name :: w :: rest =>
      obtain rfl : w = v := Option.some.inj hslot
      cases houtside
      rw [occurrences_node, Shape.fields, Kind.layout, occurrencesIn_cons, occurrencesIn_cons,
        filterMap_append, filterMap_append, filterMap_occurrencesIn rfl (by decide),
        append_nil, nil_append]
      refine congrArg₂ _ ?_ (filterMap_params rfl rfl hreach hps hparams).symm
      change (if name.isNull then .ok [] else
        (name.declares .own .functionName _).map ([·])) = Except.ok inside at hinside
      split at hinside
      · rename_i hnull
        obtain rfl : name = .null := by
          unfold Tree.isNull at hnull
          split at hnull
          · rfl
          · cases hnull
        exact (Except.ok.inj hinside).symm
      · obtain ⟨d, hd, rfl⟩ := map_ok.mp hinside
        exact (filterMap_declares rfl rfl .functionName (by decide) rfl nofun rfl hd).symm
  | arrowFunctionExpression =>
    match slots with
    | [] => cases hslot
    | w :: rest =>
      obtain rfl : w = v := Option.some.inj hslot
      cases houtside
      cases hinside
      rw [occurrences_node, Shape.fields, Kind.layout, occurrencesIn_cons, filterMap_append,
        filterMap_occurrencesIn rfl (by decide), append_nil]
      exact (filterMap_params rfl rfl hreach hps hparams).symm
  | _ => cases hfun

theorem filter_catch (hcatch : p.node.is .catchClause) (h : catchAdditions p.node = .ok as) :
    as.filter Addition.isBinding = p.node.occurrences.filterMap p.declaredBy? := by
  obtain ⟨v, hv, h⟩ := bind_ok.mp h
  obtain ⟨i, slots, hnode⟩ := is_iff.mp hcatch
  obtain ⟨node, π⟩ := p
  subst hnode
  match slots with
  | [] => cases hv
  | w :: rest =>
    obtain rfl : w = v := Except.ok.inj hv
    rw [occurrences_node, Shape.fields, Kind.layout, occurrencesIn_cons, filterMap_append,
      filterMap_occurrencesIn rfl (by decide), append_nil]
    split at h
    · obtain ⟨d, hd, rfl⟩ := map_ok.mp h
      rw [filterMap_declares rfl rfl .catchParameter (by decide) rfl nofun rfl hd]
      obtain ⟨name, rfl, -⟩ := declares_ok hd
      rfl
    · rename_i hident
      cases h
      exact (filterMap_unnamed (by decide) (by simpa using hident)).symm

theorem filter_declarator (hdeclarator : p.node.is .variableDeclarator) (h : p.additions = .ok as) :
    as.filter Addition.isBinding = p.node.occurrences.filterMap p.declaredBy? := by
  obtain ⟨i, slots, hnode⟩ := is_iff.mp hdeclarator
  obtain ⟨node, π⟩ := p
  subst hnode
  match slots with
  | [] => rw [← Except.ok.inj h]; rfl
  | name :: rest =>
    rw [occurrences_node, Shape.fields, Kind.layout, occurrencesIn_cons, filterMap_append,
      filterMap_occurrencesIn rfl (by decide), append_nil]
    change (if true && name.is .identifier then
      declaratorAdditions ⟨.node i (.known .variableDeclarator) (name :: rest), π⟩ name
      else .ok []) = .ok as at h
    split at h
    · unfold declaratorAdditions at h
      split at h
      · cases h
      · rename_i parent hparent
        obtain ⟨v, hv, h⟩ := bind_ok.mp h
        have hattribute : parent.attribute? "kind" = some v := by
          unfold Tree.get at hv
          split at hv
          · rw [← Except.ok.inj hv]
            assumption
          · cases hv
        have hvar : isVar ⟨.node i (.known .variableDeclarator) (name :: rest), π⟩ =
            decide (v = .text "var") := by
          unfold isVar
          rw [hparent, Option.bind_some, hattribute]
          simp only [Option.some.injEq]
        have hreach : reachFrom ⟨.node i (.known .variableDeclarator) (name :: rest), π⟩ "id" =
            if isVar ⟨.node i (.known .variableDeclarator) (name :: rest), π⟩ then .variable
            else .innermost := by
          unfold reachFrom isVar
          simp only [decide_eq_true_eq]
          rfl
        split at h
        · rename_i hkind
          rw [decide_eq_true hkind] at hvar
          rw [hvar] at hreach
          obtain ⟨d, hd, rfl⟩ := map_ok.mp h
          rw [filterMap_declares rfl rfl .variable (by decide) (by rw [hvar]; rfl) nofun hreach hd]
          obtain ⟨name, rfl, -⟩ := declares_ok hd
          rfl
        · rename_i hkind
          rw [decide_eq_false hkind] at hvar
          rw [hvar] at hreach
          obtain ⟨d, hd, rfl⟩ := map_ok.mp h
          rw [filterMap_declares rfl rfl .lexical (by decide) (by rw [hvar]; rfl) nofun hreach hd]
          obtain ⟨name, rfl, -⟩ := declares_ok hd
          rfl
    · rename_i hident
      cases h
      exact (filterMap_unnamed (by decide) (by simpa using hident)).symm

theorem filterMap_nothing (hfun : p.node.isFunction = false)
    (hcatch : p.node.is .catchClause = false) (hdeclarator : p.node.is .variableDeclarator = false) :
    p.node.occurrences.filterMap p.declaredBy? = [] := by
  have hnone : ∀ field, (p.node.kind?.bind fun k => k.declares? field p.isVar) = none := by
    intro field
    unfold Tree.isFunction at hfun
    unfold Tree.is at hcatch hdeclarator
    cases hk : p.node.kind? with
    | none => rfl
    | some k =>
      rw [hk] at hfun hcatch hdeclarator
      cases k with
      | functionDeclaration | functionExpression | arrowFunctionExpression => cases hfun
      | catchClause => cases hcatch
      | variableDeclarator => cases hdeclarator
      | _ => rfl
  refine filterMap_eq_nil_iff.mpr fun o ho => ?_
  rw [declaredBy?, declaredAs?, hnone, ite_self]
  rfl

theorem functionAdditions_of_isFunction (hfun : p.node.isFunction) (h : p.additions = .ok as) :
    ∃ kind, functionAdditions kind p.node = .ok as := by
  obtain ⟨kind, hopens, hkind⟩ : ∃ kind, p.opens? = some kind ∧ kind ≠ .block := by
    rw [isFunction_eq, Bool.or_eq_true] at hfun
    rcases hfun with hordinary | harrow
    · exact ⟨_, opens?_of_ordinary hordinary p.path, nofun⟩
    · exact ⟨_, if_pos harrow, nofun⟩
  unfold additions at h
  rw [hopens] at h
  cases kind with
  | block => exact absurd rfl hkind
  | program | function | arrow => exact ⟨_, h⟩

theorem catchAdditions_of_is (hcatch : p.node.is .catchClause) (h : p.additions = .ok as) :
    catchAdditions p.node = .ok as := by
  obtain ⟨i, slots, hnode⟩ := is_iff.mp hcatch
  obtain ⟨node, π⟩ := p
  subst hnode
  exact h

/-- **The bindings of a place** are those of its declaring positions. -/
theorem bindings_added (h : p.additions = .ok as) :
    as.filter Addition.isBinding = p.node.occurrences.filterMap p.declaredBy? := by
  cases hdeclarator : p.node.is .variableDeclarator with
  | true => exact filter_declarator hdeclarator h
  | false =>
    cases hcatch : p.node.is .catchClause with
    | true => exact filter_catch hcatch (catchAdditions_of_is hcatch h)
    | false =>
      cases hfun : p.node.isFunction with
      | true =>
        obtain ⟨kind, h⟩ := functionAdditions_of_isFunction hfun h
        exact filter_function hfun h
      | false =>
        rw [filterMap_nothing hfun hcatch hdeclarator]
        unfold additions at h
        rw [hcatch, hdeclarator] at h
        cases ho : p.opens? with
        | none =>
          rw [ho] at h
          simp only [Bool.false_and] at h
          split at h
          · rw [← Except.ok.inj h]
            rfl
          · split at h <;> rw [← Except.ok.inj h] <;> rfl
        | some kind =>
          rw [ho] at h
          rw [isFunction_eq, Bool.or_eq_false_iff] at hfun
          rcases opens?_eq_some ho with ⟨harrow, -⟩ | ⟨hordinary, -⟩ | rfl
          · cases harrow.symm.trans hfun.2
          · cases hordinary.symm.trans hfun.1
          · rw [← Except.ok.inj h]
            rfl

end Place

/-! ## The types of a name in a scope -/

/-- The scope of a function expression that is itself named `arguments`. -/
def Scope.NamedArguments (root : Tree) (s : Scope) : Prop :=
  s.kind = .function ∧ ∃ f ∈ root.nodes, f.id = s.node ∧ f.is .functionExpression ∧
    ∃ v, f.attribute? "id" = some v ∧ v.name? = some argumentsName

namespace ScopeTable

variable {p : Place}

/-- The types with which a name is declared in a scope, position by position. -/
def declaredTypes (t : ScopeTable) (root : Tree) (i : Nat) (name : Text) : List BindingType :=
  root.places.flatMap fun p => (p.node.occurrences.filter fun o =>
    o.tree.name? = some name && t.target p (p.reachFrom o.field) = i).filterMap p.declaredAs?

/-- Those of the declarations that count for `arguments`: the name of a function expression does not. -/
def explicitTypes (t : ScopeTable) (root : Tree) (i : Nat) : List BindingType :=
  (t.declaredTypes root i argumentsName).filter fun type => type ≠ .functionName

theorem declarations_eq_filterMap (hp : p.additions = .ok p.added) (scope : Reach → Nat) (i : Nat) :
    p.declarations scope i =
      p.node.occurrences.filterMap fun o => (p.declaredBy? o).bind (Addition.declarationIn scope i) := by
  have hbindings : p.declarations scope i =
      (p.added.filter Addition.isBinding).filterMap (Addition.declarationIn scope i) := by
    rw [filterMap_filter]
    refine filterMap_congr fun x _ => ?_
    cases x <;> rfl
  rw [hbindings, Place.bindings_added hp, filterMap_filterMap]

theorem declarations_eq (hp : p.additions = .ok p.added) (scope : Reach → Nat) (i : Nat) (name : Text) :
    ((p.declarations scope i).filter fun d => d.name = name).map Declaration.type =
      (p.node.occurrences.filter fun o =>
        o.tree.name? = some name && scope (p.reachFrom o.field) = i).filterMap p.declaredAs? := by
  rw [declarations_eq_filterMap hp, filter_filterMap, map_filterMap, filterMap_filter]
  refine filterMap_congr fun o _ => ?_
  unfold Place.declaredBy?
  cases p.declaredAs? o with
  | none => simp
  | some type =>
    cases o.tree.name? with
    | none => rfl
    | some m =>
      by_cases hi : scope (p.reachFrom o.field) = i <;> by_cases hm : m = name <;>
        simp [Addition.declarationIn, hi, hm]

section

variable {root : Tree} {t : ScopeTable}
variable {s : Scope} {i : Nat} {q : Place} {name : Text}

theorem declaredTypes_eq (hadd : ∀ p ∈ root.places, p.additions = .ok p.added) (i : Nat) (name : Text) :
    t.declaredTypes root i name =
      ((t.declarationsIn root.places i).filter fun d => d.name = name).map Declaration.type := by
  unfold declaredTypes declarationsIn
  rw [filter_flatMap, map_flatMap]
  exact flatMap_congr fun p hp => (declarations_eq (hadd p hp) _ i name).symm

theorem type_merged (ds : List Declaration) :
    (Declaration.merged ds).map Binding.type = (ds.map Declaration.type).head? := by
  cases ds <;> rfl

variable (h : t.Outlined root.places) (hadd : ∀ p ∈ root.places, p.additions = .ok p.added)
include h hadd

/-- **The type of a binding** is that of the first position. -/
theorem Outlined.type_of_binding (hs : t.scopes[i]? = some s) (name : Text) :
    (s.binding? name).map Binding.type = (t.declaredTypes root i name).head? := by
  rw [(h.declared i s hs).binding?, type_merged, declaredTypes_eq hadd]

theorem Outlined.type_of_ownArguments (hs : t.scopes[i]? = some s) :
    s.ownArguments?.map Binding.type =
      (t.declaredTypes root i argumentsName).head?.filter fun type => type ≠ .functionName := by
  rw [← h.type_of_binding hadd hs]
  unfold Scope.ownArguments?
  cases s.binding? argumentsName with
  | none => rfl
  | some b => by_cases hb : b.type = .functionName <;> simp [Option.filter, hb]

/-! ## The name of a function expression -/

omit h hadd in
theorem declares?_functionName {k : Kind} {field : Text} {isVar : Bool}
    (hk : k.declares? field isVar = some .functionName) : k = .functionExpression ∧ field = "id" := by
  unfold Kind.declares? at hk
  cases k with
  | functionExpression | _ => grind

omit h hadd in
/-- The position of the name is the first of the function. -/
theorem position_of_functionName (ho : o ∈ p.node.occurrences) (hname : p.declaredAs? o = some .functionName) :
    ∃ i rest, p.node = .node i (.known .functionExpression) (o.tree :: rest) ∧
      p.node.occurrences = o :: occurrencesIn [.sub "params", .sub "body"] rest ∧ o.field = "id" := by
  unfold Place.declaredAs? at hname
  split at hname
  · rename_i hcond
    obtain ⟨k, hk, hname⟩ := Option.bind_eq_some_iff.mp hname
    obtain ⟨rfl, hfield⟩ := declares?_functionName hname
    obtain ⟨i, slots, hnode⟩ := is_iff.mp (decide_eq_true hk)
    rw [hnode] at ho ⊢
    match slots with
    | [] => cases ho
    | v :: rest =>
      have hsplit : (Tree.node i (.known .functionExpression) (v :: rest)).occurrences =
        occurrencesOf (.sub "id") v ++ occurrencesIn [.sub "params", .sub "body"] rest := rfl
      rw [hsplit] at ho ⊢
      rcases mem_append.mp ho with ho | ho
      · simp only [hfield, Bool.and_eq_true, decide_eq_true_eq, eq_iff_iff] at hcond
        have hv : occurrencesOf (.sub "id") v = [⟨"id", none, v⟩] := by
          cases v with
          | list items =>
            obtain ⟨-, ⟨n, hindex⟩, -⟩ := mem_itemsFrom ho
            rw [hindex] at hcond
            exact absurd (hcond.2.mp rfl) (by decide)
          | _ => rfl
        rw [hv] at ho ⊢
        rw [mem_singleton.mp ho]
        exact ⟨i, rest, rfl, rfl, rfl⟩
      · obtain ⟨f, hf, hsame⟩ := field_of_mem_occurrencesIn ho
        have hfields : ∀ f ∈ [Field.sub "params", Field.sub "body"], f.name ≠ "id" := by decide
        exact absurd (hsame.symm.trans hfield) (hfields f hf)
  · cases hname

omit h hadd in
theorem known_owner {known : List Place} {q ρ : Path} {s : Step} (hk : Path.Known known (q ++ s :: ρ)) :
    ⟨s.owner, ρ⟩ ∈ known := by
  induction q with
  | nil => exact hk.1
  | cons s' q ih => exact ih hk.2

variable (hd : root.Distinct)
include hd

omit h hadd in
/-- What is listed before a node is not within it. -/
theorem not_within_later {ps qs : List Place} (hsplit : root.places = ps ++ p :: qs) (hq : q ∈ ps) :
    q.node ∉ p.node.nodes := by
  intro hin
  have hp : p ∈ root.places := hsplit ▸ by simp
  have hroot : q ∈ root.places := hsplit ▸ mem_append_left _ hq
  have hnodup := hd.nodup
  rw [nodes, map_map, hsplit, map_append, nodup_append] at hnodup
  have hne : ∀ q' ∈ ps, q'.node.id ≠ p.node.id := fun q' hq' =>
    hnodup.2.2 _ (mem_map_of_mem hq') _ (by simp)
  obtain ⟨q', s, ρ, hpath, howner, hplace⟩ := hd.path_through (n := q.node) (π := q.path) hroot
    (node_mem_nodes hp) hin fun heq => hne q hq (congrArg Tree.id heq)
  obtain ⟨before, after, hbefore⟩ := append_of_mem hq
  have horder := ownersFirst_places root
  rw [hsplit, hbefore, append_assoc, ownersFirst_append] at horder
  have hknown := horder.2.1
  rw [hpath] at hknown
  have hmem := known_owner hknown
  rw [howner, nil_append] at hmem
  exact hne ⟨p.node, ρ⟩ (hbefore ▸ mem_append_left _ hmem) rfl

/-- Only what is within the node of a scope declares in it. -/
theorem Outlined.within_of_position (hs : t.scopes[i]? = some s) (hkind : s.kind ≠ .program)
    (hp : p ∈ root.places) (hnode : p.node.id = s.node) (hq : q ∈ root.places) (ho : o ∈ q.node.occurrences)
    (hname : o.tree.name? = some name) (htarget : t.target q (q.reachFrom o.field) = i) {type : BindingType}
    (htype : q.declaredAs? o = some type) : q.node ∈ p.node.nodes := by
  have hby : ∃ x, q.declaredBy? o = some x ∧ x.BindsTo (q.reachFrom o.field) := by
    rw [Place.declaredBy?, htype, hname]
    exact ⟨_, rfl, _, _, _, _, rfl⟩
  obtain ⟨x, hx, hbinds⟩ := hby
  have hadded : x ∈ q.added := by
    refine mem_of_mem_filter (p := Addition.isBinding) ?_
    rw [Place.bindings_added (hadd q hq)]
    exact mem_filterMap.mpr ⟨o, ho, hx⟩
  obtain ⟨n, hn, hid, hin⟩ := h.node_of_target hq (hadd q hq) hadded hbinds (htarget ▸ hs) hkind
  obtain rfl : n = p.node := hd.node_eq hn (node_mem_nodes hp) (hid.trans hnode.symm)
  exact hin

/-- **The name of a function expression** is the first declaration in its scope. -/
theorem Outlined.functionName_first (hs : t.scopes[i]? = some s)
    (hmem : .functionName ∈ t.declaredTypes root i name) :
    (t.declaredTypes root i name).head? = some .functionName ∧ s.kind = .function ∧
      ∃ p ∈ root.places, p.node.id = s.node ∧ p.node.is .functionExpression ∧
        ∃ v, p.node.attribute? "id" = some v ∧ v.name? = some name := by
  obtain ⟨p, hp, hmem⟩ := mem_flatMap.mp hmem
  obtain ⟨o, ho, htype⟩ := mem_filterMap.mp hmem
  obtain ⟨ho, hcond⟩ := mem_filter.mp ho
  obtain ⟨j, rest, hnode, hoccurrences, hfield⟩ := position_of_functionName ho htype
  have hordinary : p.node.isOrdinaryFunction := by rw [hnode]; rfl
  have hexpression : p.node.is .functionExpression := by rw [hnode]; rfl
  have hname : o.tree.name? = some name ∧ t.target p (p.reachFrom o.field) = i := by
    simpa using hcond
  have hnumber : t.number p.node.id = i := by
    have hreach : p.reachFrom o.field = .own := by
      rw [Place.reachFrom, hfield, hnode]
      rfl
    rw [← hname.2, hreach]
    rfl
  obtain ⟨s', hs', hkind, hid, -⟩ := h.opened p hp .function (opens?_of_ordinary hordinary p.path)
  rw [hnumber, hs] at hs'
  cases hs'
  refine ⟨?_, hkind, p, hp, hid.symm, hexpression, o.tree, by rw [hnode]; rfl, hname.1⟩
  obtain ⟨ps, qs, hsplit⟩ := append_of_mem hp
  have hbefore : (ps.flatMap fun q => (q.node.occurrences.filter fun o =>
      o.tree.name? = some name && t.target q (q.reachFrom o.field) = i).filterMap q.declaredAs?) = [] := by
    refine flatMap_eq_nil_iff.mpr fun q hq => filterMap_eq_nil_iff.mpr fun o' ho' => ?_
    obtain ⟨ho', hcond'⟩ := mem_filter.mp ho'
    have hq' : q ∈ root.places := hsplit ▸ mem_append_left _ hq
    cases htype' : q.declaredAs? o' with
    | none => rfl
    | some type =>
      simp only [Bool.and_eq_true, decide_eq_true_eq] at hcond'
      exact absurd (h.within_of_position hadd hd hs (by rw [hkind]; nofun) hp hid.symm hq' ho'
        hcond'.1 hcond'.2 htype') (not_within_later hd hsplit hq)
  rw [declaredTypes, hsplit, flatMap_append, hbefore, nil_append, flatMap_cons,
    hoccurrences, filter_cons_of_pos (by exact hcond), filterMap_cons_some htype]
  rfl

theorem Outlined.namedArguments_iff (hs : t.scopes[i]? = some s) :
    s.NamedArguments root ↔ .functionName ∈ t.declaredTypes root i argumentsName := by
  constructor
  · rintro ⟨hkind, f, hf, hid, hexpression, v, hv, hname⟩
    obtain ⟨p, hp, rfl⟩ := mem_map.mp hf
    obtain ⟨j, slots, hnode⟩ := is_iff.mp hexpression
    have hident : v.is .identifier := by
      by_contra hnot
      rw [Tree.name?, if_neg hnot] at hname
      cases hname
    have hget : p.node.get "id" = .ok v := by rw [Tree.get, hv]
    have hisNode : v.isNode := by
      obtain ⟨_, _, rfl⟩ := is_iff.mp hident
      rfl
    have ho := occurs_of_get hget (.inl rfl) hisNode
    have htarget : t.target p (p.reachFrom "id") = i := by
      have hreach : p.reachFrom "id" = .own := by
        rw [Place.reachFrom, hnode]
        rfl
      rw [hreach, ← h.number_node hs (by simp [hkind]), ← hid]
      rfl
    refine mem_flatMap.mpr ⟨p, hp, mem_filterMap.mpr ⟨⟨"id", none, v⟩,
      mem_filter.mpr ⟨ho, by simp [hname, htarget]⟩, ?_⟩⟩
    rw [Place.declaredAs?, if_pos (by simp [hident]; decide), hnode]
    rfl
  · intro hmem
    obtain ⟨-, hkind, p, hp, hid, hexpression, hname⟩ := h.functionName_first hadd hd hs hmem
    exact ⟨hkind, p.node, node_mem_nodes hp, hid, hexpression, hname⟩

/-- A function expression named `arguments` is taken for one that declares nothing. -/
theorem Outlined.ownArguments_named (hs : t.scopes[i]? = some s)
    (hnamed : s.NamedArguments root) : s.ownArguments? = none := by
  obtain ⟨hfirst, -⟩ :=
    h.functionName_first hadd hd hs ((h.namedArguments_iff hadd hd hs).mp hnamed)
  have htype := h.type_of_ownArguments hadd hs
  rw [hfirst] at htype
  exact Option.map_eq_none_iff.mp (htype.trans (by simp [Option.filter]))

/-- Everywhere else the first explicit declaration gives the type. -/
theorem Outlined.ownArguments_explicit (hs : t.scopes[i]? = some s)
    (hnamed : ¬ s.NamedArguments root) :
    s.ownArguments?.map Binding.type = (t.explicitTypes root i).head? := by
  rw [h.namedArguments_iff hadd hd hs] at hnamed
  have hall : ∀ type ∈ t.declaredTypes root i argumentsName, type ≠ .functionName :=
    fun type htype heq => hnamed (heq ▸ htype)
  have hsame : t.explicitTypes root i = t.declaredTypes root i argumentsName :=
    filter_eq_self.mpr fun type htype => decide_eq_true (hall type htype)
  rw [h.type_of_ownArguments hadd hs, hsame]
  cases hhead : (t.declaredTypes root i argumentsName).head? with
  | none => rfl
  | some type => simp [Option.filter, hall type (mem_of_head? hhead)]

end

end ScopeTable

/-! ## Resolution -/

namespace Lowering

open ScopeTable

/-- **Explicit declarations win.** A walk for `arguments` ends at the first scope that is not transparent
or has an explicit declaration. The binding has the type of the first explicit declaration there, and
there is none without one, unless the scope is that of a function expression named `arguments`: then
there is no binding, whatever the function declares. -/
theorem resolve_explicit {tree : Tree} {t : ScopeTable} (ht : ofTree tree.numbered = .ok t) {n : Tree}
    (hn : n ∈ tree.numbered.nodes) {ref : Reference} (href : t.reference? n.id = some ref) :
    ∃ r pre s post, resolve t n = .ok r ∧ t.scopesOn ref.scope = pre ++ (r.scope, s) :: post ∧
      (∀ x ∈ pre, x.2.isTransparent ∧ t.explicitTypes tree.numbered x.1 = []) ∧
      (s.isTransparent = false ∨ t.explicitTypes tree.numbered r.scope ≠ []) ∧
      (s.NamedArguments tree.numbered → r.binding = none) ∧
      (¬ s.NamedArguments tree.numbered →
        r.binding.map Binding.type = (t.explicitTypes tree.numbered r.scope).head?) := by
  have hd := distinct_numbered tree
  have h := outlined_ofTree hd ht
  have hadd := (ofTree_ok.mp ht).1
  obtain ⟨p, hp, -, -, rfl, hresolve⟩ := resolve_reference h hd (mem_of_find?_eq_some href)
  have hid : p.node.id = n.id := by simpa using find?_some href
  obtain rfl : p.node = n := hd.node_eq (node_mem_nodes hp) hn hid
  obtain ⟨r, hr⟩ := exists_resolveFrom h.rooted (h.rooted.enclosing_lt p.path)
  obtain ⟨pre, s, post, hon, hpre, hstop, hbinding, -⟩ := resolveFrom_iff.mp hr
  have hs : t.scopes[r.scope]? = some s := (scope_of_split hon).1
  have htransparent {x : Scope} (hx : x.isTransparent) : ¬ x.NamedArguments tree.numbered := by
    rintro ⟨hkind, -⟩
    simp [Scope.isTransparent, hkind] at hx
  refine ⟨r, pre, s, post, hresolve.trans hr, hon, fun x hx => ?_, ?_, fun hnamed => ?_, fun hnamed => ?_⟩
  · obtain ⟨hpasses, hnone⟩ := hpre x hx
    have hx : t.scopes[x.1]? = some x.2 :=
      mem_scopesOn (i := t.enclosing p.path) (by rw [hon]; exact mem_append_left _ hx)
    have htype := h.ownArguments_explicit hadd hd hx (htransparent hpasses)
    rw [hnone] at htype
    exact ⟨hpasses, head?_eq_none_iff.mp htype.symm⟩
  · cases hkind : s.isTransparent with
    | false => exact .inl rfl
    | true =>
      refine .inr fun hnone => hstop ⟨hkind, ?_⟩
      have htype := h.ownArguments_explicit hadd hd hs (htransparent hkind)
      rw [hnone] at htype
      exact Option.map_eq_none_iff.mp htype
  · rw [hbinding, h.ownArguments_named hadd hd hs hnamed]
  · rw [hbinding, h.ownArguments_explicit hadd hd hs hnamed]

/-- A function expression named `arguments`, with a parameter of that name that it returns. -/
def namedLikeItsParameter : Tree :=
  let name : Tree := .mk .identifier none [.text "arguments"]
  .mk .program none [.list [.mk .expressionStatement none [.mk .functionExpression none [name,
    .list [name], .mk .blockStatement none [.list [.mk .returnStatement none [name]]]]]]]

theorem parameter_not_found : ∃ t n r, ofTree namedLikeItsParameter.numbered = .ok t ∧
      n ∈ namedLikeItsParameter.numbered.nodes ∧ n.name? = some argumentsName ∧
      resolve t n = .ok r ∧ r.binding = none ∧
      t.explicitTypes namedLikeItsParameter.numbered r.scope = [.parameter] := by
  have hrun : (do
      let t ← ofTree namedLikeItsParameter.numbered
      return decide (∃ n ∈ namedLikeItsParameter.numbered.nodes, n.name? = some argumentsName ∧
        (resolve t n).toOption.any fun r => r.binding = none &&
          t.explicitTypes namedLikeItsParameter.numbered r.scope = [.parameter])) = Except.ok true := by
    decide +kernel
  obtain ⟨t, ht, hrun⟩ := bind_ok.mp hrun
  obtain ⟨n, hn, hname, hany⟩ := of_decide_eq_true (Except.ok.inj hrun)
  cases hr : resolve t n with
  | error f =>
    rw [hr] at hany
    cases hany
  | ok r =>
    rw [hr] at hany
    obtain ⟨hbinding, htypes⟩ := Bool.and_eq_true_iff.mp (show (_ && _) from hany)
    exact ⟨t, n, r, ht, hn, hname, hr, of_decide_eq_true hbinding, of_decide_eq_true htypes⟩

end Lowering

end ArrowFree
