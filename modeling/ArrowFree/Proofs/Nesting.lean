import ArrowFree.Proofs.Visits

/-!
# Scopes are nested as the nodes that open them

The scopes of a tree mirror it (`Mirrored`): which nodes open a scope is said by their kind and position
alone (`Place.Opens`), the parent of a scope is that of the nearest node around that opens one, and each
scope stands exactly once among the children of its parent. The children are followed through every
addition to the table (`Adopted`), the rest is read off its outline.
-/

namespace ArrowFree

open List

variable {p : Place} {kind : ScopeKind}

/-! ## What opens a scope -/

theorem Tree.isArrow_eq (t : Tree) : t.isArrow = t.is .arrowFunctionExpression := by
  unfold Tree.isArrow Tree.is
  cases t.kind? with
  | none => rfl
  | some k => cases k <;> rfl

theorem Tree.isOrdinaryFunction_eq (t : Tree) :
    t.isOrdinaryFunction = (t.is .functionDeclaration || t.is .functionExpression) := by
  unfold Tree.isOrdinaryFunction Tree.is
  cases t.kind? with
  | none => rfl
  | some k => cases k <;> rfl

namespace Place

/-- A node in the `body` of a function, an arrow or a catch clause. -/
def IsBody (p : Place) : Prop :=
  p.field? = some "body" ∧ ∃ owner, p.parent? = some owner ∧ (owner.isFunction ∨ owner.is .catchClause)

/-- The kind of scope that a node opens. -/
inductive Opens (p : Place) : ScopeKind → Prop where
  | arrow (h : p.node.is .arrowFunctionExpression) : Opens p .arrow
  | function (h : p.node.is .functionDeclaration ∨ p.node.is .functionExpression) : Opens p .function
  | clause (h : p.node.is .catchClause) : Opens p .block
  | loop (h : p.node.is .forStatement ∨ p.node.is .forInStatement) : Opens p .block
  | block (h : p.node.is .blockStatement) (hbody : ¬ p.IsBody) : Opens p .block

theorem isOwnedBody_iff : p.isOwnedBody ↔ p.IsBody := by
  unfold isOwnedBody IsBody
  cases p.parent? with
  | none => simp
  | some owner =>
    cases p.field? with
    | none => simp
    | some field => simp

theorem Opens.opens?_eq (h : p.Opens kind) : p.opens? = some kind := by
  unfold opens? Tree.isArrow Tree.isOrdinaryFunction Tree.is
  cases h with
  | arrow h | clause h => rw [of_decide_eq_true h]; rfl
  | function h | loop h => rcases h with h | h <;> (rw [of_decide_eq_true h]; rfl)
  | block h hbody =>
    have hno : p.isOwnedBody = false := by
      rw [← Bool.not_eq_true, isOwnedBody_iff]
      exact hbody
    rw [of_decide_eq_true h, hno]
    rfl

theorem opens_of_opens? (h : p.opens? = some kind) : p.Opens kind := by
  unfold opens? at h
  rw [Tree.isArrow_eq, Tree.isOrdinaryFunction_eq] at h
  split at h
  · rename_i hk
    cases h
    exact .arrow hk
  split at h
  · rename_i hk
    cases h
    exact .function (Bool.or_eq_true_iff.mp hk)
  split at h
  · rename_i hk
    cases h
    rw [Bool.or_eq_true, Bool.or_eq_true, or_assoc] at hk
    exact hk.elim .clause .loop
  split at h
  · rename_i hk
    cases h
    rw [Bool.and_eq_true, Bool.not_eq_true', ← Bool.not_eq_true, isOwnedBody_iff] at hk
    exact .block hk.1 hk.2
  · cases h

theorem opens?_iff : p.opens? = some kind ↔ p.Opens kind :=
  ⟨opens_of_opens?, Opens.opens?_eq⟩

/-- The places of the nodes around a place, innermost first. -/
def around (p : Place) : List Place := go p.path
where
  go : Path → List Place
    | [] => []
    | s :: π => ⟨s.owner, π⟩ :: go π

end Place

namespace ScopeTable

variable {t : ScopeTable} {i j current : Nat} {s : Scope} {root : Tree} {id : NodeId}

/-- The scope that the node at a place opens; of the program's own scope this says nothing. -/
def ScopeFor (t : ScopeTable) (p : Place) (i : Nat) : Prop :=
  ∃ s, t.scopes[i]? = some s ∧ s.node = p.node.id ∧ p.Opens s.kind

/-- The scope that a place stands in: that of the nearest node around it that opens one, or that of the
program if none does. -/
def StandsIn (t : ScopeTable) (p : Place) (i : Nat) : Prop :=
  (∃ inner q outer, p.around = inner ++ q :: outer ∧ (∀ r ∈ inner, ∀ kind, ¬ r.Opens kind) ∧
    t.ScopeFor q i) ∨
  (∀ r ∈ p.around, ∀ kind, ¬ r.Opens kind) ∧ i = 0

/-- The table mirrors the tree. -/
structure Mirrored (t : ScopeTable) (root : Tree) : Prop where
  /-- The nodes with a scope are the root and those that open one. -/
  registered : ∀ id, (t.scopeOf? id).isSome ↔
    id = root.id ∨ ∃ p ∈ root.places, p.node.id = id ∧ ∃ kind, p.Opens kind
  /-- A node that opens a scope has one scope of its own, under which it is found. -/
  own : ∀ p ∈ root.places, ∀ kind, p.Opens kind →
    ∃ i, t.scopeOf? p.node.id = some i ∧ ∀ j, t.ScopeFor p j ↔ j = i
  /-- The first scope is that of the program. -/
  program : ∃ s, t.scopes[0]? = some s ∧ s.kind = .program ∧ s.node = root.id ∧ s.parent = none
  /-- Any other scope belongs to a node that opens it. Its parent is the scope that the node stands in,
  and among the children of its parent it is found once. -/
  parent : ∀ (i : Nat) (s : Scope), t.scopes[i + 1]? = some s → s.kind ≠ .program ∧
    ∃ p ∈ root.places, t.ScopeFor p (i + 1) ∧
      ∃ j host, s.parent = some j ∧ t.StandsIn p j ∧ t.scopes[j]? = some host ∧
        host.children.count (i + 1) = 1
  /-- The children of a scope are scopes of which it is the parent. -/
  children : ∀ (i : Nat) (s : Scope), t.scopes[i]? = some s → ∀ j ∈ s.children,
    ∃ child : Scope, t.scopes[j]? = some child ∧ child.parent = some i
  references : ∀ r ∈ t.references, ∃ p ∈ root.places, p.node.id = r.identifier ∧ t.StandsIn p r.scope
  /-- From every scope the way outwards ends at the program, past a scope with a `this` of its own and
  past one that is no block. -/
  chain : ∀ i < t.scopes.length, (t.chain i).head? = some i ∧ (t.chain i).getLast? = some 0 ∧
    (t.owner? i).isSome ∧ (t.variableScope? i).isSome

/-! ## Children -/

def parentOf? (t : ScopeTable) (i : Nat) : Option Nat := (t.scopes[i]?).bind Scope.parent

/-- The scopes with a parent, in their order. -/
def withParent (t : ScopeTable) (i : Nat) : List Nat :=
  (List.range t.scopes.length).filter fun j => t.parentOf? j = some i

theorem mem_withParent : j ∈ t.withParent i ↔ ∃ s, t.scopes[j]? = some s ∧ s.parent = some i := by
  unfold withParent parentOf?
  rw [mem_filter, mem_range, decide_eq_true_iff, Option.bind_eq_some_iff, and_iff_right_iff_imp]
  rintro ⟨s, hs, -⟩
  exact (List.getElem?_eq_some_iff.mp hs).1

/-- Every scope has as its children the scopes of which it is the parent. -/
def Adopted (t : ScopeTable) : Prop :=
  ∀ (i : Nat) (s : Scope), t.scopes[i]? = some s → s.children = t.withParent i

theorem adopted_initial (root : Tree) : (initial root).Adopted := by
  intro i s hs
  cases i with
  | zero =>
    obtain rfl := Option.some.inj hs
    rfl
  | succ i => simp [initial] at hs

theorem withParent_define (t : ScopeTable) (i : Nat) (name : Text) (type : BindingType)
    (node identifier : NodeId) :
    (t.define i name type node identifier).withParent = t.withParent := by
  have hparent : (t.define i name type node identifier).parentOf? = t.parentOf? := by
    funext j
    unfold parentOf?
    rw [getElem?_define]
    cases t.scopes[j]? with
    | none => rfl
    | some s =>
      simp only [Option.map_some, Option.bind_some]
      split <;> rfl
  funext j
  unfold withParent
  rw [length_define, hparent]

theorem Adopted.define (h : t.Adopted) (i : Nat) (name : Text) (type : BindingType) (node identifier : NodeId) :
    (t.define i name type node identifier).Adopted := by
  intro j s hs
  rw [withParent_define]
  rw [getElem?_define] at hs
  obtain ⟨s₀, hs₀, rfl⟩ := Option.map_eq_some_iff.mp hs
  rw [← h j s₀ hs₀]
  split <;> rfl

theorem withParent_push (t : ScopeTable) (s : Scope) (i : Nat) :
    (t.push s).withParent i = t.withParent i ++ if s.parent = some i then [t.scopes.length] else [] := by
  have hold : ∀ j ∈ List.range t.scopes.length, (t.push s).parentOf? j = t.parentOf? j := by
    intro j hj
    obtain ⟨children, hpush⟩ := t.getElem?_push_old s (getElem?_eq_getElem (mem_range.mp hj))
    unfold parentOf?
    rw [hpush, getElem?_eq_getElem (mem_range.mp hj)]
    rfl
  have hnew : (t.push s).parentOf? t.scopes.length = s.parent := by
    unfold parentOf?
    rw [getElem?_push_new]
    rfl
  unfold withParent
  rw [length_push, range_succ, filter_append, filter_singleton, hnew]
  congr 1
  · refine filter_congr fun j hj => ?_
    rw [hold j hj]
  · by_cases hp : s.parent = some i <;> simp [hp]

theorem getElem?_push_parent (t : ScopeTable) (s : Scope) {s' : Scope} (h : t.scopes[i]? = some s') :
    (t.push s).scopes[i]? = some { s' with
      children := (s'.children ++ if s.parent = some i then [t.scopes.length] else []) } := by
  have hlt := (List.getElem?_eq_some_iff.mp h).1
  rw [push, getElem?_append_left (by simpa using hlt)]
  cases s.parent with
  | none => simpa [adopt] using h
  | some p =>
    rw [adopt, getElem?_modify, h]
    by_cases hp : p = i <;> simp [hp]

theorem Adopted.push (h : t.Adopted) (ht : t.Rooted) {p : Nat} (hs : s.parent = some p)
    (hp : p < t.scopes.length) (hchildren : s.children = []) : (t.push s).Adopted := by
  intro i s' hs'
  rw [withParent_push]
  by_cases hi : i = t.scopes.length
  · subst hi
    rw [getElem?_push_new] at hs'
    cases hs'
    have hnone : t.withParent t.scopes.length = [] := by
      refine eq_nil_iff_forall_not_mem.mpr fun j hj => ?_
      obtain ⟨c, hc, hparent⟩ := mem_withParent.mp hj
      have hlt := ht.parent_lt hc hparent
      have hj := (List.getElem?_eq_some_iff.mp hc).1
      omega
    rw [hchildren, hnone, if_neg (by rw [hs]; simp; omega)]
    rfl
  · have hlt := (List.getElem?_eq_some_iff.mp hs').1
    rw [length_push] at hlt
    have hs₀ : t.scopes[i]? = some t.scopes[i] := getElem?_eq_getElem (by omega)
    rw [t.getElem?_push_parent s hs₀] at hs'
    cases hs'
    rw [← h i _ hs₀]

theorem Adopted.add (h : t.Adopted) (ht : t.Rooted) (hc : current < t.scopes.length) (x : Addition) :
    (t.add current x).Adopted := by
  cases x with
  | scope kind node nodeType => exact h.push ht rfl hc rfl
  | binding reach name type node identifier => exact h.define _ _ _ _ _
  | reference identifier name => exact h

theorem Adopted.addAll (h : t.Adopted) (ht : t.Rooted) (hc : current < t.scopes.length) (xs : List Addition) :
    (t.addAll current xs).Adopted := by
  induction xs generalizing t with
  | nil => exact h
  | cons x xs ih =>
    exact ih (h.add ht hc x) (ht.add hc x) (Nat.lt_of_lt_of_le hc (t.length_le_add current x))

theorem Adopted.enterAll (h : t.Adopted) (ht : t.Rooted) (ps : List Place) : (t.enterAll ps).Adopted := by
  induction ps generalizing t with
  | nil => exact h
  | cons p ps ih =>
    exact ih (h.addAll ht (ht.enclosing_lt p.path) p.added) (ht.addAll (ht.enclosing_lt p.path) p.added)

theorem adopted_ofTree (h : ofTree root = .ok t) : t.Adopted := by
  obtain ⟨-, rfl⟩ := ofTree_ok.mp h
  exact (adopted_initial root).enterAll (rooted_initial root) _

/-! ## Nearest nodes -/

/-- The innermost scope around a place is the one that the place stands in. -/
theorem Outlined.standsIn {known : List Place} (h : t.Outlined known) (n : Tree) {π : Path} (hπ : π.Known known) :
    t.StandsIn ⟨n, π⟩ (t.enclosing π) := by
  induction π generalizing n with
  | nil => exact .inr ⟨by simp [Place.around, Place.around.go], rfl⟩
  | cons st π ih =>
    have haround : Place.around ⟨n, st :: π⟩ = ⟨st.owner, π⟩ :: Place.around ⟨n, π⟩ := rfl
    rw [enclosing_cons]
    cases ho : Place.opens? ⟨st.owner, π⟩ with
    | some kind =>
      obtain ⟨s, hs, rfl, hnode, -⟩ := h.opened _ hπ.1 kind ho
      exact .inl ⟨[], _, _, haround, by simp, s, hs, hnode, Place.opens?_iff.mp ho⟩
    | none =>
      have hno : ∀ kind, ¬ Place.Opens ⟨st.owner, π⟩ kind := by
        intro kind hk
        rw [hk.opens?_eq] at ho
        cases ho
      rcases ih n hπ.2 with ⟨inner, q, outer, hsplit, hinner, hq⟩ | ⟨hnone, hzero⟩
      · refine .inl ⟨_ :: inner, q, outer, by rw [haround, hsplit, cons_append], ?_, hq⟩
        exact forall_mem_cons.mpr ⟨hno, hinner⟩
      · refine .inr ⟨?_, hzero⟩
        rw [haround]
        exact forall_mem_cons.mpr ⟨hno, hnone⟩

/-! ## The table of a tree -/

theorem mem_zip_range : (i, s) ∈ (List.range t.scopes.length).zip t.scopes ↔ t.scopes[i]? = some s := by
  rw [mem_iff_getElem?]
  constructor
  · rintro ⟨k, hk⟩
    obtain ⟨hi, hs⟩ := getElem?_zip_eq_some.mp hk
    obtain ⟨hlt, hki⟩ := List.getElem?_eq_some_iff.mp hi
    obtain rfl : k = i := by simpa using hki
    exact hs
  · intro hs
    have hi := (List.getElem?_eq_some_iff.mp hs).1
    exact ⟨i, getElem?_zip_eq_some.mpr ⟨by simp [hi], hs⟩⟩

theorem node_of_scopeOf? (h : t.scopeOf? id = some i) : ∃ s, t.scopes[i]? = some s ∧ s.node = id := by
  obtain ⟨⟨j, s⟩, hmem, hj⟩ := exists_of_findSome?_eq_some h
  rw [mem_reverse, mem_zip_range] at hmem
  simp only at hj
  split at hj
  · rename_i hnode
    obtain rfl := Option.some.inj hj
    exact ⟨s, hmem, hnode⟩
  · cases hj

theorem scopeOf?_isSome_iff :
    (t.scopeOf? id).isSome ↔ ∃ (i : Nat) (s : Scope), t.scopes[i]? = some s ∧ s.node = id := by
  constructor
  · intro h
    obtain ⟨i, hi⟩ := Option.isSome_iff_exists.mp h
    exact ⟨i, node_of_scopeOf? hi⟩
  · rintro ⟨i, s, hs, hnode⟩
    rw [scopeOf?, findSome?_isSome_iff]
    exact ⟨(i, s), mem_reverse.mpr (mem_zip_range.mpr hs), by simp [hnode]⟩

section

variable {t : ScopeTable} {root : Tree} (h : t.Outlined root.places)
include h

theorem Outlined.scopeFor_number (hp : p ∈ root.places) (hk : p.Opens kind) :
    t.ScopeFor p (t.number p.node.id) := by
  obtain ⟨s, hs, rfl, hnode, -⟩ := h.opened p hp kind hk.opens?_eq
  exact ⟨s, hs, hnode, hk⟩

theorem Outlined.scopeFor_iff (hp : p ∈ root.places) (hk : p.Opens kind) :
    t.ScopeFor p j ↔ j = t.number p.node.id := by
  constructor
  · rintro ⟨s, hs, hnode, hopens⟩
    have hkind : s.kind ≠ .program := by
      intro heq
      rw [heq] at hopens
      cases hopens
    rw [← hnode, h.number_node hs hkind]
  · rintro rfl
    exact h.scopeFor_number hp hk

theorem Outlined.registered_iff (hprogram : ∃ s, t.scopes[0]? = some s ∧ s.node = root.id)
    (id : NodeId) : (t.scopeOf? id).isSome ↔
      id = root.id ∨ ∃ p ∈ root.places, p.node.id = id ∧ ∃ kind, p.Opens kind := by
  obtain ⟨s₀, hs₀, hroot⟩ := hprogram
  rw [scopeOf?_isSome_iff]
  constructor
  · rintro ⟨i, s, hs, rfl⟩
    cases i with
    | zero =>
      obtain rfl := Option.some.inj (hs₀.symm.trans hs)
      exact .inl hroot
    | succ i =>
      obtain ⟨p, hp, ho, hi⟩ := h.scopes i s hs
      obtain ⟨s', hs', -, hnode, -⟩ := h.opened p hp _ ho
      rw [hi, hs] at hs'
      obtain rfl := Option.some.inj hs'
      exact .inr ⟨p, hp, hnode.symm, _, Place.opens?_iff.mp ho⟩
  · rintro (rfl | ⟨p, hp, rfl, kind, hk⟩)
    · exact ⟨0, s₀, hs₀, hroot⟩
    · obtain ⟨s, hs, hnode, -⟩ := h.scopeFor_number hp hk
      exact ⟨_, s, hs, hnode⟩

/-- A scope that is not the first belongs to a node and is counted once by its parent. -/
theorem Outlined.parent_of_scope (hadopted : t.Adopted) {i : Nat} (hs : t.scopes[i + 1]? = some s) :
    s.kind ≠ .program ∧ ∃ p ∈ root.places, t.ScopeFor p (i + 1) ∧
      ∃ j host, s.parent = some j ∧ t.StandsIn p j ∧ t.scopes[j]? = some host ∧
        host.children.count (i + 1) = 1 := by
  obtain ⟨p, hp, ho, hi⟩ := h.scopes i s hs
  have hk := Place.opens?_iff.mp ho
  obtain ⟨s', hs', -, hnode, hparent⟩ := h.opened p hp _ ho
  rw [hi, hs] at hs'
  obtain rfl := Option.some.inj hs'
  obtain ⟨host, hhost⟩ : ∃ host, t.scopes[t.enclosing p.path]? = some host :=
    ⟨_, getElem?_eq_getElem (h.rooted.enclosing_lt p.path)⟩
  refine ⟨?_, p, hp, ⟨s, hs, hnode, hk⟩, _, _, hparent, h.standsIn p.node (h.closed p hp), hhost, ?_⟩
  · intro heq
    rw [heq] at hk
    cases hk
  · rw [hadopted _ _ hhost]
    exact count_eq_one_of_mem (nodup_range.filter _) (mem_withParent.mpr ⟨s, hs, hparent⟩)

end

theorem node_of_program (h : ofTree root = .ok t) :
    ∃ s, t.scopes[0]? = some s ∧ s.kind = .program ∧ s.node = root.id ∧ s.parent = none := by
  obtain ⟨hadded, rfl⟩ := ofTree_ok.mp h
  obtain ⟨s, hs, hbare⟩ := extends_enterAll (rooted_initial root) hadded 0 _ rfl
  obtain ⟨hkind, hnode, hparent⟩ := Scope.of_bare hbare
  exact ⟨s, hs, hkind, hnode, hparent⟩

/-- **The scopes of a tree** mirror it, and one visit with a stack of open scopes finds them. -/
theorem scopes_mirror_nodes (tree : Tree) (t : ScopeTable) (h : ofTree tree.numbered = .ok t) :
    ofVisit tree.numbered = .ok t ∧ t.Mirrored tree.numbered := by
  have hd := Tree.distinct_numbered tree
  have ho := outlined_ofTree hd h
  have hadopted := adopted_ofTree h
  obtain ⟨s₀, hs₀, hkind₀, hnode₀, hparent₀⟩ := node_of_program h
  refine ⟨(ofVisit_eq hd).trans h, ?_⟩
  exact {
    registered := ho.registered_iff ⟨s₀, hs₀, hnode₀⟩
    own := by
      intro p hp kind hk
      have hsome := (ho.registered_iff ⟨s₀, hs₀, hnode₀⟩ p.node.id).mpr (.inr ⟨p, hp, rfl, kind, hk⟩)
      obtain ⟨i, hi⟩ := Option.isSome_iff_exists.mp hsome
      have hnumber : t.number p.node.id = i := by rw [number, hi]; rfl
      exact ⟨i, hi, fun j => hnumber ▸ ho.scopeFor_iff hp hk⟩
    program := ⟨s₀, hs₀, hkind₀, hnode₀, hparent₀⟩
    parent := fun i s hs => ho.parent_of_scope hadopted hs
    children := fun i s hs j hj => mem_withParent.mp (hadopted i s hs ▸ hj)
    references := by
      intro r hr
      obtain ⟨p, hp, -, -, rfl⟩ := ho.references r hr
      exact ⟨p, hp, rfl, ho.standsIn p.node (ho.closed p hp)⟩
    chain := by
      intro i hi
      refine ⟨?_, ho.rooted.getLast?_chain hi, ho.rooted.owner?_isSome hi,
        ho.rooted.variableScope?_isSome hi⟩
      simp [ScopeTable.chain, chainFrom, List.getElem?_eq_getElem hi] }

/-- A block with a node of another type in it, which holds a function that catches what it throws. -/
def blockRoot : Tree :=
  let name : Tree := .mk .identifier none [.text "a"]
  let block (statements : List Tree) : Tree := .mk .blockStatement none [.list statements]
  block [.node {} (.other (.text "Wrapper") ["inner"]) [.mk .functionExpression none [.null,
    .list [name], block [.mk .tryStatement none [block [],
      .mk .catchClause none [name, block [block [.mk .expressionStatement none [name]]]], .null]]]]]

/-- The root has two scopes, and the bodies of the function and of the catch clause have none. -/
theorem scopes_mirror_nodes_blockRoot :
    ∃ t, ofTree blockRoot.numbered = .ok t ∧ t.Mirrored blockRoot.numbered ∧
      t.scopes.map (fun s => (s.node, s.parent, s.children)) =
        [(.numbered 0, none, [1]), (.numbered 0, some 0, [2]), (.numbered 2, some 1, [3, 4]),
          (.numbered 6, some 2, []), (.numbered 7, some 2, [5]), (.numbered 10, some 4, [])] ∧
      t.references = [⟨.numbered 12, some "a", 5⟩] := by
  have hrun : (do
      let t ← ofTree blockRoot.numbered
      return decide (t.scopes.map (fun s => (s.node, s.parent, s.children)) =
          [(.numbered 0, none, [1]), (.numbered 0, some 0, [2]), (.numbered 2, some 1, [3, 4]),
            (.numbered 6, some 2, []), (.numbered 7, some 2, [5]), (.numbered 10, some 4, [])] ∧
        t.references = [⟨.numbered 12, some "a", 5⟩])) = Except.ok true := by decide
  obtain ⟨t, ht, hrun⟩ := bind_ok.mp hrun
  obtain ⟨hscopes, hreferences⟩ := of_decide_eq_true (Except.ok.inj hrun)
  exact ⟨t, ht, (scopes_mirror_nodes blockRoot t ht).2, hscopes, hreferences⟩

end ScopeTable

end ArrowFree
