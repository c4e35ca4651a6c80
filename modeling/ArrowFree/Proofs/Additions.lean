import ArrowFree.Scope.Analysis

/-!
# What a place adds to the table of scopes

Entering a place can fail, and it changes the table in a way that depends on the scope around the
place. The two are taken apart here: `Place.additions` says from the node and its slot alone what is
added, or why nothing can be, and `ScopeTable.add` puts one addition into a table. A tree has a table
exactly if every place of it has additions (`ofTree_ok`).
-/

namespace ArrowFree

open List

variable {α β : Type}
variable {x : Except Fault α} {f : α → Except Fault (Option β)} {b : β} {xs : List α} {ys : List β}

theorem bind_ok {f : α → Except Fault β} : x >>= f = .ok b ↔ ∃ v, x = .ok v ∧ f v = .ok b := by
  cases x with
  | error e => exact ⟨nofun, nofun⟩
  | ok v => exact ⟨fun h => ⟨v, rfl, h⟩, fun ⟨_, hv, h⟩ => Except.ok.inj hv ▸ h⟩

theorem bind_error {g : α → Except Fault β} {f : Fault} :
    x >>= g = .error f ↔ x = .error f ∨ ∃ v, x = .ok v ∧ g v = .error f := by
  cases x with
  | error e =>
    refine ⟨fun h => .inl (congrArg _ (Except.error.inj h)), fun h => ?_⟩
    exact congrArg _ (Except.error.inj (h.resolve_right nofun))
  | ok v => exact ⟨fun h => .inr ⟨v, rfl, h⟩, fun h => by
      obtain ⟨_, hv, h⟩ := h.resolve_left nofun
      exact Except.ok.inj hv ▸ h⟩

theorem map_ok {f : α → β} : x.map f = .ok b ↔ ∃ v, x = .ok v ∧ f v = b := by
  cases x with
  | error e => exact ⟨nofun, nofun⟩
  | ok v => exact ⟨fun h => ⟨v, rfl, Except.ok.inj h⟩, fun ⟨_, hv, h⟩ => by cases hv; rw [← h]; rfl⟩

theorem filterMapM_ok (h : xs.filterMapM f = .ok ys) :
    (∀ x ∈ xs, ∃ o, f x = .ok o ∧ ∀ y, o = some y → y ∈ ys) ∧
      ∀ y ∈ ys, ∃ x ∈ xs, f x = .ok (some y) := by
  induction xs generalizing ys with
  | nil =>
    cases h
    simp
  | cons x xs ih =>
    rw [filterMapM_cons] at h
    obtain ⟨o, ho, h⟩ := bind_ok.mp h
    cases o with
    | none =>
      obtain ⟨hin, hout⟩ := ih h
      refine ⟨forall_mem_cons.mpr ⟨⟨none, ho, nofun⟩, hin⟩, fun y hy => ?_⟩
      obtain ⟨z, hz, hfz⟩ := hout y hy
      exact ⟨z, mem_cons_of_mem _ hz, hfz⟩
    | some y₀ =>
      obtain ⟨zs, hzs, h⟩ := bind_ok.mp h
      cases h
      obtain ⟨hin, hout⟩ := ih hzs
      refine ⟨forall_mem_cons.mpr ⟨⟨some y₀, ho, ?_⟩, fun z hz => ?_⟩, fun y hy => ?_⟩
      · rintro y ⟨⟩
        exact mem_cons_self
      · obtain ⟨o, hoz, hmem⟩ := hin z hz
        exact ⟨o, hoz, fun y hy => mem_cons_of_mem _ (hmem y hy)⟩
      · rcases mem_cons.mp hy with rfl | hy
        · exact ⟨x, mem_cons_self, ho⟩
        · obtain ⟨z, hz, hfz⟩ := hout y hy
          exact ⟨z, mem_cons_of_mem _ hz, hfz⟩

theorem exists_filterMapM (h : ∀ x ∈ xs, ∃ o, f x = .ok o) : ∃ ys, xs.filterMapM f = .ok ys := by
  induction xs with
  | nil => exact ⟨_, rfl⟩
  | cons x xs ih =>
    obtain ⟨o, ho⟩ := h x (.head _)
    obtain ⟨ys, hys⟩ := ih fun y hy => h y (.tail _ hy)
    rw [filterMapM_cons]
    cases o with
    | none => exact ⟨_, bind_ok.mpr ⟨_, ho, hys⟩⟩
    | some y => exact ⟨_, bind_ok.mpr ⟨_, ho, bind_ok.mpr ⟨ys, hys, rfl⟩⟩⟩

theorem filterMapM_filter {q : α → Bool} {g : α → β} (h : xs.filterMapM f = .ok ys)
    (hf : ∀ x ∈ xs, ∀ o, f x = .ok o → o = if q x then some (g x) else none) : ys = (xs.filter q).map g := by
  induction xs generalizing ys with
  | nil => exact (Except.ok.inj h).symm
  | cons x xs ih =>
    rw [filterMapM_cons] at h
    obtain ⟨o, ho, h⟩ := bind_ok.mp h
    have hrest : ∀ zs, xs.filterMapM f = .ok zs → zs = (xs.filter q).map g := fun zs h =>
      ih h fun z hz => hf z (.tail _ hz)
    obtain rfl := hf x mem_cons_self o ho
    by_cases hx : q x
    · rw [if_pos hx] at h
      obtain ⟨zs, hzs, h⟩ := bind_ok.mp h
      rw [filter_cons_of_pos hx, map_cons, ← hrest zs hzs]
      exact (Except.ok.inj h).symm
    · rw [if_neg hx] at h
      rw [filter_cons_of_neg hx]
      exact hrest ys h

/-- The scope that a declaration is for, seen from the place that declares. -/
inductive Reach where
  /-- The scope that the place opens itself. -/
  | own
  /-- The innermost scope around the place. -/
  | innermost
  /-- The nearest scope around the place that is no block. -/
  | variable
deriving DecidableEq, Repr

/-- A part of the table. -/
inductive Addition where
  | scope (kind : ScopeKind) (node : NodeId) (nodeType : Scalar)
  | binding (reach : Reach) (name : Text) (type : BindingType) (node identifier : NodeId)
  | reference (identifier : NodeId) (name : Option Text)
deriving DecidableEq, Repr

/-! ## The additions of a place -/

/-- The name that a declaring identifier gives. -/
def Tree.declaredName (identifier : Tree) : Except Fault Text := do
  ScopeTable.asName (← identifier.get "name")

/-- The declaration of an identifier. -/
def Tree.declares (identifier : Tree) (reach : Reach) (type : BindingType) (node : Tree) :
    Except Fault Addition :=
  identifier.declaredName.map fun name => .binding reach name type node.id identifier.id

namespace Place

/-- A parameter that is an identifier is declared. -/
def parameterAddition (p : Tree) : Except Fault (List Addition) :=
  if p.is .identifier then (p.declares .own .parameter p).map ([·]) else .ok []

def parameterAdditions : List Tree → Except Fault (List Addition)
  | [] => .ok []
  | p :: ps => do return (← parameterAddition p) ++ (← parameterAdditions ps)

/-- The name of a function declaration belongs to the scope around it. -/
def outerName (node : Tree) : Except Fault (List Addition) :=
  if node.is .functionDeclaration then do
    ((← node.get "id").declares .variable .function node).map ([·])
  else .ok []

/-- The name of a function expression belongs to the function. -/
def innerName (node : Tree) : Except Fault (List Addition) :=
  if node.is .functionExpression then do
    let name ← node.get "id"
    if name.isNull then .ok [] else (name.declares .own .functionName node).map ([·])
  else .ok []

def functionAdditions (kind : ScopeKind) (node : Tree) : Except Fault (List Addition) := do
  let outside ← outerName node
  let inside ← innerName node
  let params ← parameterAdditions (← (← node.get "params").iterate)
  return outside ++ .scope kind node.id (node.type?.getD .null) :: (inside ++ params)

/-- A parameter that is an identifier is declared. -/
def catchAdditions (node : Tree) : Except Fault (List Addition) := do
  let param ← node.get "param"
  let scope : Addition := .scope .block node.id (node.type?.getD .null)
  if param.is .identifier then (param.declares .own .catchParameter node).map ([scope, ·])
  else .ok [scope]

/-- The declaration around a declarator says in which scope the variable is. -/
def declaratorAdditions (p : Place) (name : Tree) : Except Fault (List Addition) :=
  match p.parent? with
  | none => .error .noAttribute
  | some parent => do
    let kind ← parent.get "kind"
    if kind = .text "var" then (name.declares .variable .variable p.node).map ([·])
    else (name.declares .innermost .lexical p.node).map ([·])

/-- What a place adds to the table, in this order. -/
def additions (p : Place) : Except Fault (List Addition) :=
  match p.opens? with
  | some .block =>
    if p.node.is .catchClause then catchAdditions p.node
    else .ok [.scope .block p.node.id (p.node.type?.getD .null)]
  | some kind => functionAdditions kind p.node
  | none =>
    match p.node.attribute? "id" with
    | some name =>
      if p.node.is .variableDeclarator && name.is .identifier then p.declaratorAdditions name
      else .ok []
    | none =>
      if p.node.is .identifier && p.isReference then .ok [.reference p.node.id p.node.name?]
      else .ok []

/-- The additions of a place that has some. -/
def added (p : Place) : List Addition := p.additions.toOption.getD []

end Place

/-- A declaration for the scope that is reached. -/
def Addition.BindsTo (reach : Reach) (x : Addition) : Prop :=
  ∃ name type node identifier, x = .binding reach name type node identifier

namespace Place

variable {as : List Addition} {t : Tree} {kind : ScopeKind} {p : Place}

theorem bindsTo_of_declares {owner : Tree} {reach : Reach} {type : BindingType}
    (h : (t.declares reach type owner).map ([·]) = .ok as) : ∀ x ∈ as, x.BindsTo reach := by
  obtain ⟨d, hd, rfl⟩ := map_ok.mp h
  obtain ⟨name, -, rfl⟩ := map_ok.mp hd
  intro x hx
  rw [mem_singleton.mp hx]
  exact ⟨_, _, _, _, rfl⟩

theorem bindsTo_parameterAdditions {ps : List Tree} (h : parameterAdditions ps = .ok as) :
    ∀ x ∈ as, x.BindsTo .own := by
  induction ps generalizing as with
  | nil =>
    cases h
    simp
  | cons p ps ih =>
    obtain ⟨here, hhere, h⟩ := bind_ok.mp h
    obtain ⟨rest, hrest, h⟩ := bind_ok.mp h
    cases h
    intro x hx
    rcases mem_append.mp hx with hx | hx
    · unfold parameterAddition at hhere
      split at hhere
      · exact bindsTo_of_declares hhere x hx
      · cases hhere
        simp at hx
    · exact ih hrest x hx

theorem bindsTo_outerName (h : outerName t = .ok as) : ∀ x ∈ as, x.BindsTo .variable := by
  unfold outerName at h
  split at h
  · obtain ⟨id, -, h⟩ := bind_ok.mp h
    exact bindsTo_of_declares h
  · cases h
    simp

theorem bindsTo_innerName (h : innerName t = .ok as) : ∀ x ∈ as, x.BindsTo .own := by
  unfold innerName at h
  split at h
  · obtain ⟨id, -, h⟩ := bind_ok.mp h
    split at h
    · cases h
      simp
    · exact bindsTo_of_declares h
  · cases h
    simp

theorem functionAdditions_ok (h : functionAdditions kind t = .ok as) :
    ∃ outs ins, as = outs ++ .scope kind t.id (t.type?.getD .null) :: ins ∧
      (∀ x ∈ outs, x.BindsTo .variable) ∧ ∀ x ∈ ins, x.BindsTo .own := by
  obtain ⟨outside, houtside, h⟩ := bind_ok.mp h
  obtain ⟨inside, hinside, h⟩ := bind_ok.mp h
  obtain ⟨v, -, h⟩ := bind_ok.mp h
  obtain ⟨ps, -, h⟩ := bind_ok.mp h
  obtain ⟨params, hparams, h⟩ := bind_ok.mp h
  refine ⟨outside, inside ++ params, (Except.ok.inj h).symm, bindsTo_outerName houtside, ?_⟩
  intro x hx
  rcases mem_append.mp hx with hx | hx
  · exact bindsTo_innerName hinside x hx
  · exact bindsTo_parameterAdditions hparams x hx

theorem catchAdditions_ok (h : catchAdditions t = .ok as) :
    ∃ ins, as = .scope .block t.id (t.type?.getD .null) :: ins ∧ ∀ x ∈ ins, x.BindsTo .own := by
  obtain ⟨param, -, h⟩ := bind_ok.mp h
  split at h
  · obtain ⟨d, hd, rfl⟩ := map_ok.mp h
    exact ⟨[d], rfl, bindsTo_of_declares (map_ok.mpr ⟨d, hd, rfl⟩)⟩
  · exact ⟨[], (Except.ok.inj h).symm, by simp⟩

/-- A place that opens a scope declares around it, opens it, and declares in it. -/
theorem additions_opening (ho : p.opens? = some kind) (h : p.additions = .ok as) :
    ∃ outs ins, as = outs ++ .scope kind p.node.id (p.node.type?.getD .null) :: ins ∧
      (∀ x ∈ outs, x.BindsTo .variable) ∧ ∀ x ∈ ins, x.BindsTo .own := by
  unfold additions at h
  rw [ho] at h
  cases kind with
  | block =>
    simp only at h
    split at h
    · obtain ⟨ins, rfl, hins⟩ := catchAdditions_ok h
      exact ⟨[], ins, rfl, by simp, hins⟩
    · exact ⟨[], [], (Except.ok.inj h).symm, by simp, by simp⟩
  | program | function | arrow => exact functionAdditions_ok h

/-- Any other place adds a declaration, a reference or nothing. -/
theorem additions_leaf (ho : p.opens? = none) (h : p.additions = .ok as) :
    as = [] ∨ (∃ x reach, as = [x] ∧ reach ≠ .own ∧ x.BindsTo reach) ∨
      (as = [.reference p.node.id p.node.name?] ∧ p.node.is .identifier ∧ p.isReference) := by
  unfold additions at h
  rw [ho] at h
  simp only at h
  split at h
  · split at h
    · rename_i name _ _
      unfold declaratorAdditions at h
      split at h
      · cases h
      · obtain ⟨kind, -, h⟩ := bind_ok.mp h
        refine Or.inr (Or.inl ?_)
        split at h
        · obtain ⟨d, hd, rfl⟩ := map_ok.mp h
          exact ⟨d, .variable, rfl, by decide,
            bindsTo_of_declares (map_ok.mpr ⟨d, hd, rfl⟩) d (by simp)⟩
        · obtain ⟨d, hd, rfl⟩ := map_ok.mp h
          exact ⟨d, .innermost, rfl, by decide,
            bindsTo_of_declares (map_ok.mpr ⟨d, hd, rfl⟩) d (by simp)⟩
    · exact Or.inl (Except.ok.inj h).symm
  · split at h
    · rename_i href
      rw [Bool.and_eq_true] at href
      exact Or.inr (Or.inr ⟨(Except.ok.inj h).symm, href.1, href.2⟩)
    · exact Or.inl (Except.ok.inj h).symm

end Place

/-! ## Adding to a table -/

namespace ScopeTable

variable {scope : Nat}

/-- The number of the scope that a declaration at a place in the scope `current` is for. A scope that
a place opens is the last one while the place is entered. -/
def reached (t : ScopeTable) (current : Nat) : Reach → Nat
  | .own => t.scopes.length - 1
  | .innermost => current
  | .variable => (t.variableScope? current).getD 0

def add (current : Nat) (t : ScopeTable) : Addition → ScopeTable
  | .scope kind node nodeType => t.push ⟨kind, node, nodeType, some current, [], []⟩
  | .binding reach name type node identifier =>
    t.define (t.reached current reach) name type node identifier
  | .reference identifier name =>
    { t with references := t.references ++ [⟨identifier, name, current⟩] }

/-- The table after the additions of a place in the scope `current`. -/
def addAll (t : ScopeTable) (current : Nat) (as : List Addition) : ScopeTable :=
  as.foldl (add current) t

theorem declare_eq (t : ScopeTable) (scope : Nat) (type : BindingType) (node identifier : Tree) :
    t.declare scope type node identifier =
      identifier.declaredName.map fun name => t.define scope name type node.id identifier.id := by
  unfold declare Tree.declaredName
  cases identifier.get "name" with
  | error f => rfl
  | ok v => cases asName v <;> rfl

@[simp] theorem length_define (t : ScopeTable) (i : Nat) (name : Text) (type : BindingType)
    (node identifier : NodeId) :
    (t.define i name type node identifier).scopes.length = t.scopes.length := by
  simp [define]

@[simp] theorem length_adopt (scopes : List Scope) (child : Nat) (parent : Option Nat) :
    (adopt scopes child parent).length = scopes.length := by
  cases parent <;> simp [adopt]

@[simp] theorem length_push (t : ScopeTable) (s : Scope) :
    (t.push s).scopes.length = t.scopes.length + 1 := by
  simp [push]

theorem declareParameters_eq (current : Nat) (ps : List Tree) (t : ScopeTable)
    (h : scope = t.scopes.length - 1) :
    t.declareParameters scope ps =
      (Place.parameterAdditions ps).map fun as => t.addAll current as := by
  induction ps generalizing t with
  | nil => rfl
  | cons p ps ih =>
    unfold declareParameters Place.parameterAdditions Place.parameterAddition
    by_cases hp : p.is .identifier
    · rw [if_pos hp, if_pos hp, declare_eq, Tree.declares]
      cases p.declaredName with
      | error f => rfl
      | ok name =>
        show declareParameters _ scope ps = _
        rw [ih _ (by simpa using h)]
        subst h
        cases Place.parameterAdditions ps <;> rfl
    · rw [if_neg hp, if_neg hp]
      show declareParameters t scope ps = _
      rw [ih t h]
      cases Place.parameterAdditions ps <;> rfl

theorem addAll_append (t : ScopeTable) (current : Nat) (as bs : List Addition) :
    t.addAll current (as ++ bs) = (t.addAll current as).addAll current bs := foldl_append

/-- The part of entering a function after its scope was opened. -/
def enterInside (t : ScopeTable) (scope : Nat) (node : Tree) : Except Fault ScopeTable := do
  let t ←
    if node.is .functionExpression then do
      let name ← node.get "id"
      if name.isNull then .ok t else t.declare scope .functionName node name
    else .ok t
  let params ← (← node.get "params").iterate
  t.declareParameters scope params

theorem enterFunction_bind (t : ScopeTable) (current : Nat) (kind : ScopeKind) (node : Tree) :
    t.enterFunction current kind node =
      (if node.is .functionDeclaration then do
        t.declare ((t.variableScope? current).getD 0) .function node (← node.get "id")
      else .ok t) >>= fun t =>
        (t.push ⟨kind, node.id, node.type?.getD .null, some current, [], []⟩).enterInside
          t.scopes.length node := by
  unfold enterFunction
  by_cases hd : node.is .functionDeclaration
  · rw [if_pos hd, if_pos hd, bind_assoc]
    rfl
  · rw [if_neg hd, if_neg hd]
    rfl

theorem parameters_eq (t : ScopeTable) (current : Nat) (node : Tree)
    (h : scope = t.scopes.length - 1) :
    (do t.declareParameters scope (← (← node.get "params").iterate)) = (do
      let params ← Place.parameterAdditions (← (← node.get "params").iterate)
      return t.addAll current params) := by
  cases node.get "params" with
  | error f => rfl
  | ok v =>
    show v.iterate >>= _ = v.iterate >>= _
    cases v.iterate with
    | error f => rfl
    | ok ps =>
      show declareParameters _ _ ps = Place.parameterAdditions ps >>= _
      rw [declareParameters_eq current ps _ h]
      cases Place.parameterAdditions ps <;> rfl

theorem enterInside_eq (t : ScopeTable) (current : Nat) (node : Tree)
    (h : scope = t.scopes.length - 1) :
    t.enterInside scope node = (do
      let inside ← Place.innerName node
      let params ← Place.parameterAdditions (← (← node.get "params").iterate)
      return t.addAll current (inside ++ params)) := by
  unfold enterInside Place.innerName
  by_cases he : node.is .functionExpression
  · rw [if_pos he, if_pos he]
    cases node.get "id" with
    | error f => rfl
    | ok id =>
      show (if id.isNull then _ else _) = (if id.isNull then _ else _) >>= _
      by_cases hn : id.isNull
      · rw [if_pos hn, if_pos hn]
        exact parameters_eq t current node h
      · rw [if_neg hn, if_neg hn, declare_eq, Tree.declares]
        cases id.declaredName with
        | error f => rfl
        | ok name =>
          subst h
          exact parameters_eq _ current node (by simp)
  · rw [if_neg he, if_neg he]
    exact parameters_eq t current node h

theorem enterFunction_eq (t : ScopeTable) (current : Nat) (kind : ScopeKind) (node : Tree) :
    t.enterFunction current kind node =
      (Place.functionAdditions kind node).map fun as => t.addAll current as := by
  have inside : ∀ outside, ((t.addAll current outside).push
        ⟨kind, node.id, node.type?.getD .null, some current, [], []⟩).enterInside
          (t.addAll current outside).scopes.length node =
      Except.map (fun as => t.addAll current as) (do
        let inside ← Place.innerName node
        let params ← Place.parameterAdditions (← (← node.get "params").iterate)
        return outside ++ .scope kind node.id (node.type?.getD .null) :: (inside ++ params)) := by
    intro outside
    rw [enterInside_eq _ current node (by simp)]
    cases Place.innerName node with
    | error f => rfl
    | ok inside =>
      cases node.get "params" with
      | error f => rfl
      | ok v =>
        show v.iterate >>= _ = Except.map _ (v.iterate >>= _)
        cases v.iterate with
        | error f => rfl
        | ok ps =>
          show Place.parameterAdditions ps >>= _ = Except.map _ (Place.parameterAdditions ps >>= _)
          cases Place.parameterAdditions ps with
          | error f => rfl
          | ok as =>
            exact congrArg Except.ok (addAll_append t current outside
              (.scope kind node.id (node.type?.getD .null) :: (inside ++ as))).symm
  rw [enterFunction_bind]
  unfold Place.functionAdditions Place.outerName
  by_cases hd : node.is .functionDeclaration
  · rw [if_pos hd, if_pos hd]
    cases node.get "id" with
    | error f => rfl
    | ok id =>
      show t.declare _ _ _ id >>= _ =
        Except.map _ ((id.declares .variable .function node).map ([·]) >>= _)
      rw [declare_eq, Tree.declares]
      cases id.declaredName with
      | error f => rfl
      | ok name => exact inside [.binding .variable name .function node.id id.id]
  · rw [if_neg hd, if_neg hd]
    exact inside []

theorem enterCatch_eq (t : ScopeTable) (current : Nat) (node : Tree) :
    t.enterCatch current node = (Place.catchAdditions node).map fun as => t.addAll current as := by
  unfold enterCatch Place.catchAdditions
  cases node.get "param" with
  | error f => rfl
  | ok param =>
    show (if param.is .identifier then _ else _) =
      Except.map _ (if param.is .identifier then _ else _)
    by_cases hp : param.is .identifier
    · rw [if_pos hp, if_pos hp, declare_eq, Tree.declares]
      cases param.declaredName with
      | error f => rfl
      | ok name => simp [Except.map, addAll, add, reached]
    · rw [if_neg hp, if_neg hp]
      rfl

theorem enterDeclarator_eq (t : ScopeTable) (current : Nat) (p : Place) (name : Tree) :
    t.enterDeclarator current p name =
      (p.declaratorAdditions name).map fun as => t.addAll current as := by
  unfold enterDeclarator Place.declaratorAdditions
  cases p.parent? with
  | none => rfl
  | some parent =>
    cases hk : parent.get "kind" with
    | error f => simp [bind, Except.bind, hk, Except.map]
    | ok kind =>
      simp only [bind, Except.bind, hk]
      by_cases hv : kind = .text "var"
      · rw [if_pos hv, if_pos hv, declare_eq, Tree.declares]
        cases name.declaredName <;> rfl
      · rw [if_neg hv, if_neg hv, declare_eq, Tree.declares]
        cases name.declaredName <;> rfl

/-- **Entering a place.** Whether it succeeds depends neither on the table nor on the scope. -/
theorem enterIn_eq (t : ScopeTable) (current : Nat) (p : Place) :
    t.enterIn current p = p.additions.map fun as => t.addAll current as := by
  unfold enterIn Place.additions
  cases p.opens? with
  | none =>
    simp only
    cases p.node.attribute? "id" with
    | none =>
      simp only
      split <;> rfl
    | some name =>
      simp only
      split
      · exact enterDeclarator_eq t _ p name
      · rfl
  | some kind =>
    cases kind with
    | block =>
      simp only
      split
      · exact enterCatch_eq t _ p.node
      · rfl
    | program | function | arrow => exact enterFunction_eq t _ _ _

theorem enter_eq (t : ScopeTable) (p : Place) :
    t.enter p = p.additions.map fun as => t.addAll (t.enclosing p.path) as := enterIn_eq t _ p

/-- The table after all that some places add. -/
def enterAll (t : ScopeTable) (ps : List Place) : ScopeTable :=
  ps.foldl (fun t p => t.addAll (t.enclosing p.path) p.added) t

theorem foldlM_enter {ps : List Place} {t u : ScopeTable} :
    ps.foldlM enter t = .ok u ↔ (∀ p ∈ ps, p.additions = .ok p.added) ∧ u = t.enterAll ps := by
  induction ps generalizing t with
  | nil => exact ⟨fun h => ⟨by simp, (Except.ok.inj h).symm⟩, fun h => congrArg Except.ok h.2.symm⟩
  | cons p ps ih =>
    rw [foldlM_cons, bind_ok, forall_mem_cons]
    constructor
    · rintro ⟨t', hp, hps⟩
      rw [enter_eq, map_ok] at hp
      obtain ⟨as, has, rfl⟩ := hp
      have hadded : p.added = as := by rw [Place.added, has]; rfl
      obtain ⟨hall, rfl⟩ := ih.mp hps
      rw [← hadded] at has ⊢
      exact ⟨⟨has, hall⟩, rfl⟩
    · rintro ⟨⟨hp, hall⟩, rfl⟩
      refine ⟨t.addAll (t.enclosing p.path) p.added, ?_, ih.mpr ⟨hall, rfl⟩⟩
      rw [enter_eq, hp]
      rfl

/-- A tree has a table exactly if every place has additions, and they make up the table. -/
theorem ofTree_ok {root : Tree} {table : ScopeTable} :
    ofTree root = .ok table ↔ (∀ p ∈ root.places, p.additions = .ok p.added) ∧
      table = (initial root).enterAll root.places := foldlM_enter

end ScopeTable

end ArrowFree
