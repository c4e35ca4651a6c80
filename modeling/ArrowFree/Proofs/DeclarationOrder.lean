import ArrowFree.Proofs.Positions
import ArrowFree.Proofs.PreOrder

/-!
# The order of declarations

The declarations of a tree come in pre-order, but for one case: the parameters of a function are declared
when it is entered, and so a parameter comes before whatever is declared within the parameters in front
of it (`declarations_pairwise`).
-/

namespace ArrowFree

open ArrowFree.Tree Lowering List

variable {field field' : Text} {o o' : Occurrence} {type : BindingType} {root : Tree}

/-! ## Pairs in a list -/

section

variable {α : Type} {l : List α} {x y : α}

theorem sublist_pair_of_mem (hx : x ∈ l) (hy : y ∈ l) :
    x = y ∨ [x, y].Sublist l ∨ [y, x].Sublist l := by
  obtain ⟨l₁, l₂, rfl⟩ := append_of_mem hx
  rcases mem_append.mp hy with hy | hy
  · exact .inr (.inr ((singleton_sublist.mpr hy).append
      (singleton_sublist.mpr mem_cons_self)))
  · rcases mem_cons.mp hy with rfl | hy
    · exact .inl rfl
    · exact .inr (.inl (((singleton_sublist.mpr hy).cons_cons x).trans
        (sublist_append_right l₁ _)))

theorem not_sublist_pair_swap (hl : l.Nodup) (h : [x, y].Sublist l) : ¬ [y, x].Sublist l := by
  induction l with
  | nil => cases h
  | cons c l ih =>
    intro h'
    obtain ⟨hc, hl⟩ := nodup_cons.mp hl
    cases h with
    | cons _ h =>
      cases h' with
      | cons _ h' => exact ih hl h h'
      | cons_cons _ h' => exact hc (h.subset (by simp))
    | cons_cons _ h =>
      cases h' with
      | cons _ h' => exact hc (h'.subset (by simp))
      | cons_cons _ h' => exact hc (h'.subset (by simp))

theorem ne_of_sublist_pair (hl : l.Nodup) (h : [x, y].Sublist l) : x ≠ y := by
  rintro rfl
  exact not_sublist_pair_swap hl h h

theorem filterMap_sublist {β : Type} {f : α → Option β} {keep : α → Bool} {read : α → β} (l : List α)
    (h : ∀ a b, f a = some b → keep a ∧ read a = b) :
    (l.filterMap f).Sublist ((l.filter keep).map read) := by
  induction l with
  | nil => exact .slnil
  | cons a l ih =>
    cases hf : f a with
    | none =>
      rw [filterMap_cons_none hf, filter_cons]
      split
      · exact ih.cons _
      · exact ih
    | some b =>
      obtain ⟨hkeep, rfl⟩ := h a b hf
      rw [filterMap_cons_some hf, filter_cons_of_pos hkeep, map_cons]
      exact ih.cons_cons _

end

/-! ## The order of occurrences -/

/-- Two items of one list, the first of them with the smaller index. -/
def Occurrence.InFrontOf (o o' : Occurrence) : Prop :=
  o.field = o'.field ∧ ∃ i j, o.index = some i ∧ o'.index = some j ∧ i < j

namespace Tree

variable {t : Tree}

theorem index_of_mem_itemsFrom {n : Nat} {ts : List Tree} (h : o ∈ itemsFrom field n ts) :
    ∃ i, o.index = some i ∧ n ≤ i := by
  induction ts generalizing n with
  | nil => cases h
  | cons t ts ih =>
    rcases mem_cons.mp h with rfl | h
    · exact ⟨n, rfl, Nat.le_refl n⟩
    · obtain ⟨i, hi, hle⟩ := ih h
      exact ⟨i, hi, Nat.le_of_succ_le hle⟩

theorem pairwise_itemsFrom (field : Text) (n : Nat) (ts : List Tree) :
    (itemsFrom field n ts).Pairwise Occurrence.InFrontOf := by
  induction ts generalizing n with
  | nil => exact .nil
  | cons t ts ih =>
    refine pairwise_cons.mpr ⟨fun o ho => ?_, ih (n + 1)⟩
    obtain ⟨i, hi, hle⟩ := index_of_mem_itemsFrom ho
    exact ⟨(mem_itemsFrom ho).1.symm, n, i, rfl, hi, hle⟩

theorem pairwise_occurrencesOf (f : Field) (v : Tree) :
    (occurrencesOf f v).Pairwise Occurrence.InFrontOf := by
  unfold occurrencesOf
  split
  · split
    · exact pairwise_itemsFrom _ _ _
    · exact pairwise_singleton _ _
  · exact .nil

/-- What occurs in a node comes in the order of the fields, and in one field in that of the items. -/
theorem pairwise_occurrencesIn (fs : List Field) (ts : List Tree) :
    (occurrencesIn fs ts).Pairwise fun o o' =>
      o.InFrontOf o' ∨ [o.field, o'.field].Sublist (fs.map (·.name)) := by
  induction fs generalizing ts with
  | nil => simp
  | cons f fs ih =>
    cases ts with
    | nil => simp
    | cons t ts =>
      rw [occurrencesIn_cons, pairwise_append, map_cons]
      refine ⟨(pairwise_occurrencesOf f t).imp .inl, (ih ts).imp (Or.imp_right fun h => h.cons _), ?_⟩
      intro o ho o' ho'
      obtain ⟨g, hg, hfield⟩ := field_of_mem_occurrencesIn ho'
      rw [field_of_mem_occurrencesOf ho, hfield]
      exact .inr ((singleton_sublist.mpr (mem_map_of_mem hg)).cons_cons _)

theorem occurrences_of_identifier (h : t.is .identifier) : t.occurrences = [] := by
  obtain ⟨i, slots, rfl⟩ := is_iff.mp h
  exact occurrences_identifier i slots

theorem nodes_of_identifier (h : t.is .identifier) : t.nodes = [t] := by
  obtain ⟨i, slots, rfl⟩ := is_iff.mp h
  exact nodes_identifier i slots

end Tree

/-! ## What stands in front of a declaration -/

theorem not_sublist_head {fields : List Text} (hnodup : (field :: fields).Nodup) :
    ¬ [field', field].Sublist (field :: fields) := by
  intro h
  have hmem : field ∈ fields := by
    cases h with
    | cons _ h => exact h.subset (by simp)
    | cons_cons _ h => exact singleton_sublist.mp h
  exact (nodup_cons.mp hnodup).1 hmem

/-- The field of a declaration is the first of its node, but for parameters, which follow the name. -/
theorem Kind.in_front_of_declares {k : Kind} {isVar : Bool} (h : k.declares? field isVar = some type)
    (hsub : [field', field].Sublist (k.layout.map (·.name))) : k.isFunction ∧ field' = "id" := by
  have hnodup := k.names_layout
  rcases k.declares?_cases h with ⟨hfun, rfl⟩ | ⟨rfl, rfl⟩ | ⟨rfl, rfl⟩ | ⟨rfl, rfl⟩ | ⟨rfl, rfl⟩
  · refine ⟨hfun, ?_⟩
    cases k with
    | functionDeclaration | functionExpression =>
      cases hsub with
      | cons _ h => exact absurd h (not_sublist_head (nodup_cons.mp hnodup).2)
      | cons_cons _ h => rfl
    | arrowFunctionExpression => exact absurd hsub (not_sublist_head hnodup)
    | _ => cases hfun
  all_goals exact absurd hsub (not_sublist_head hnodup)

namespace Place

variable {p : Place} (hp : p.additions = .ok p.added)
include hp

/-- In the field for the name of a function stands nothing that has nodes within it. -/
theorem name_is_leaf (hfun : p.node.isFunction) (ho : o ∈ p.node.occurrences) (hfield : o.field = "id") :
    ∀ n ∈ o.tree.nodes, n.occurrences = [] := by
  obtain ⟨k, hk, -⟩ := lists_of_isFunction hfun
  obtain ⟨f, v, hv, ho⟩ := attribute?_of_occurrence hk ho
  rw [hfield] at hv
  intro n hn
  obtain ⟨-, rfl | ⟨text, hname⟩⟩ := name_of_function hfun hp hv
  · rcases occurrencesOf_cases ho with ⟨-, hnull⟩ | ⟨items, hlist, -⟩
    · rw [← hnull] at hn
      cases hn
    · cases hlist
  · have hid : v.is .identifier := by
      by_contra hnot
      rw [Tree.name?, if_neg hnot] at hname
      cases hname
    rcases occurrencesOf_cases ho with ⟨-, rfl⟩ | ⟨items, rfl, -⟩
    · rw [nodes_of_identifier hid, mem_singleton] at hn
      rw [hn]
      exact occurrences_of_identifier hid
    · cases hid

omit hp in
/-- Of declarations only parameters stand in a list. -/
theorem field_of_index (htype : p.declaredAs? o = some type) (hindex : o.index.isSome) :
    p.node.isFunction ∧ o.field = "params" := by
  have hfield : o.field = "params" := by
    unfold declaredAs? at htype
    split at htype
    · rename_i hcond
      simpa [hindex] using (Bool.and_eq_true_iff.mp hcond).2
    · cases htype
  obtain ⟨k, hk, hdecl⟩ := kind_of_declaredAs? htype
  rw [hfield] at hdecl
  refine ⟨?_, hfield⟩
  unfold Tree.isFunction
  rw [hk]
  rcases k.declares?_cases hdecl with ⟨hfun, -⟩ | ⟨-, h⟩ | ⟨-, h⟩ | ⟨-, h⟩ | ⟨-, h⟩
  · exact hfun
  all_goals exact absurd h (by decide)

/-- In front of a declaration stand nodes that have nothing within them, and, if it is a parameter, the
parameters before it. -/
theorem in_front_of_declared (h : [o', o].Sublist p.node.occurrences) (htype : p.declaredAs? o = some type) :
    (∀ n ∈ o'.tree.nodes, n.occurrences = []) ∨
      p.node.isFunction ∧ o.field = "params" ∧ o'.InFrontOf o := by
  obtain ⟨k, hk, hdecl⟩ := kind_of_declaredAs? htype
  obtain ⟨i, slots, hnode⟩ := is_iff.mp (decide_eq_true hk : p.node.is k = true)
  have horder : o'.InFrontOf o ∨ [o'.field, o.field].Sublist (k.layout.map (·.name)) := by
    rw [hnode] at h
    exact pairwise_iff_forall_sublist.mp (pairwise_occurrencesIn _ slots) h
  rcases horder with hfront | hsub
  · obtain ⟨_, j, -, hj, -⟩ := hfront.2
    obtain ⟨hfun, hfield⟩ := field_of_index htype (by rw [hj]; rfl)
    exact .inr ⟨hfun, hfield, hfront⟩
  · obtain ⟨hfun, hname⟩ := Kind.in_front_of_declares hdecl hsub
    refine .inl (name_is_leaf hp ?_ (h.subset mem_cons_self) hname)
    rw [Tree.isFunction, hk]
    exact hfun

end Place

/-! ## The order -/

/-- One identity comes before another in pre-order. -/
def Tree.Earlier (root : Tree) (x y : NodeId) : Prop := [x, y].Sublist (root.nodes.map Tree.id)

/-- A parameter of a function, and a node somewhere within a parameter in front of it. -/
def Tree.FollowsAsParameter (root : Tree) (x y : NodeId) : Prop :=
  ∃ f ∈ root.nodes, f.isFunction ∧ ∃ o ∈ f.occurrences, ∃ o' ∈ f.occurrences,
    o.field = "params" ∧ o.tree.is .identifier ∧ o.tree.id = x ∧ o'.InFrontOf o ∧
      ∃ n ∈ o'.tree.nodes, n ≠ o'.tree ∧ n.id = y

/-- The order of declarations: that of the tree, but a parameter is ahead of what is declared within those
in front of it. -/
def Tree.DeclaredBefore (root : Tree) (x y : NodeId) : Prop :=
  root.FollowsAsParameter x y ∨ root.Earlier x y ∧ ¬ root.FollowsAsParameter y x

namespace Tree

variable {root : Tree} (hd : root.Distinct)
include hd

theorem Distinct.owner_within {x q : Tree} {s : Step} {π : Path} (hx : ⟨x, s :: π⟩ ∈ root.places)
    (hq : q ∈ root.nodes) (hin : x ∈ q.nodes) (hne : x ≠ q) : s.owner ∈ q.nodes := by
  obtain ⟨q', s', ρ, hpath, rfl, -⟩ := hd.path_through hx hq hin hne
  cases q' with
  | nil =>
    obtain ⟨rfl, rfl⟩ := List.cons.inj hpath
    exact self_mem_nodes (isNode_of_mem_places (mem_places_cons.mp hx).1)
  | cons s'' q'' =>
    obtain ⟨rfl, rfl⟩ := List.cons.inj hpath
    exact node_mem_owner_nodes (p := ⟨s.owner, _⟩) (mem_places_cons.mp hx).1 (by simp)

theorem Distinct.nodup_nodes : root.nodes.Nodup := hd.nodup.of_map _

omit hd in
theorem precedes_within {f : Tree} (hf : f ∈ root.nodes) (ho : o ∈ f.occurrences) {n : Tree}
    (hn : n ∈ o.tree.nodes) : root.Precedes f n := by
  refine Precedes.of_mem ?_ hf
  rcases f.eq_node_or_not_node with ⟨i, s, slots, rfl⟩ | hnot
  · rw [Precedes, nodes_node]
    exact (singleton_sublist.mpr (mem_flatMap.mpr ⟨o, ho, hn⟩)).cons_cons _
  · rw [occurrences_of_not_node hnot] at ho
    cases ho

/-- What is declared at an earlier place, or at the same one, is not within a parameter in front of what is
declared at the later one. -/
theorem Distinct.not_followsAsParameter {a b : Place} (ha : a ∈ root.places) (hb : b ∈ root.places)
    (hab : a = b ∨ root.Precedes a.node b.node) (ho : o ∈ a.node.occurrences) (ho' : o' ∈ b.node.occurrences)
    (hnode : o.tree.isNode) (hnode' : o'.tree.isNode) : ¬ root.FollowsAsParameter o'.tree.id o.tree.id := by
  rintro ⟨f, hf, -, o₁, ho₁, o₂, ho₂, -, hid₁, hsame, -, n, hn, hne, hid⟩
  obtain ⟨⟨f, ρ⟩, hplace, rfl⟩ := mem_map.mp hf
  have hx : ⟨o.tree, o.step a.node :: a.path⟩ ∈ root.places := mem_places_cons.mpr ⟨ha, ho, hnode⟩
  have hy : ⟨o'.tree, o'.step b.node :: b.path⟩ ∈ root.places := mem_places_cons.mpr ⟨hb, ho', hnode'⟩
  have hq : o₂.tree ∈ root.nodes := by
    refine nodes_trans hf (mem_nodes_iff.mpr (.inr ⟨o₂, ho₂, self_mem_nodes ?_⟩))
    by_contra hnot
    rw [nodes_of_not_node (by simpa using hnot)] at hn
    cases hn
  -- the function is the node at the later place
  obtain rfl : b.node = f := by
    have hnode₁ : o₁.tree.isNode := by
      obtain ⟨i, slots, htree⟩ := is_iff.mp hid₁
      rw [htree]
      rfl
    have hz : ⟨o₁.tree, o₁.step f :: ρ⟩ ∈ root.places := mem_places_cons.mpr ⟨hplace, ho₁, hnode₁⟩
    have hpath := congrArg Place.path (hd.place_eq hy hz hsame.symm)
    exact congrArg Step.owner (List.cons.inj hpath).1
  obtain rfl : n = o.tree := hd.node_eq (nodes_trans hq hn) (node_mem_nodes hx) hid
  have hwithin := precedes_within hf ho₂ (hd.owner_within hx hq hn hne)
  rcases hab with rfl | hab
  · exact ne_of_sublist_pair hd.nodup_nodes hwithin rfl
  · exact not_sublist_pair_swap hd.nodup_nodes hab hwithin

end Tree

namespace Place

variable {p : Place}

/-- What declares in the fields of a place. -/
def declaring (p : Place) : List Occurrence := p.node.occurrences.filter fun o => (p.declaredAs? o).isSome

theorem mem_declaring : o ∈ p.declaring ↔ o ∈ p.node.occurrences ∧ ∃ type, p.declaredAs? o = some type := by
  rw [declaring, mem_filter, Option.isSome_iff_exists]

theorem isNode_of_mem_declaring (h : o ∈ p.declaring) : o.tree.isNode := by
  obtain ⟨-, type, htype⟩ := mem_declaring.mp h
  obtain ⟨i, slots, hnode⟩ := is_iff.mp (identifier_of_declaredAs? htype)
  rw [hnode]
  rfl

end Place

section

variable {root : Tree} (hd : root.Distinct) {a b : Place} (ha : a ∈ root.places) (hb : b ∈ root.places)
  {o o' : Occurrence} (ho : o ∈ a.declaring) (ho' : o' ∈ b.declaring)
include hd ha hb ho ho'

theorem declaredBefore_of_precedes (hab : a = b ∨ root.Precedes a.node b.node)
    (h : root.Precedes o.tree o'.tree) :
    o.tree.id ≠ o'.tree.id ∧ root.DeclaredBefore o.tree.id o'.tree.id :=
  ⟨ne_of_sublist_pair hd.nodup (h.map Tree.id), .inr ⟨h.map Tree.id, hd.not_followsAsParameter ha hb hab
    (Place.mem_declaring.mp ho).1 (Place.mem_declaring.mp ho').1 (Place.isNode_of_mem_declaring ho)
    (Place.isNode_of_mem_declaring ho')⟩⟩

theorem declaredBefore_of_places (hok : a.additions = .ok a.added) (hab : [a, b].Sublist root.places) :
    o.tree.id ≠ o'.tree.id ∧ root.DeclaredBefore o.tree.id o'.tree.id := by
  have hnodes : root.Precedes a.node b.node := hab.map Place.node
  have hself := self_mem_nodes (Place.isNode_of_mem_declaring ho)
  have hself' := self_mem_nodes (Place.isNode_of_mem_declaring ho')
  obtain ⟨hocc, type, htype⟩ := Place.mem_declaring.mp ho
  obtain ⟨hocc', type', htype'⟩ := Place.mem_declaring.mp ho'
  have hin : o'.tree ∈ b.node.nodes := mem_nodes_iff.mpr (.inr ⟨o', hocc', hself'⟩)
  rcases pairwise_iff_forall_sublist.mp (nodes_pairwise root) hnodes with ⟨o₁, ho₁, hb₁⟩ | hafter
  · -- the later place is within an occurrence `o₁` of the earlier one
    rcases sublist_pair_of_mem hocc ho₁ with rfl | hsub | hsub
    · rw [nodes_of_identifier (Place.identifier_of_declaredAs? htype), mem_singleton] at hb₁
      rw [hb₁, occurrences_of_identifier (Place.identifier_of_declaredAs? htype)] at hocc'
      cases hocc'
    · exact declaredBefore_of_precedes hd ha hb ho ho' (.inr hnodes)
        ((precedes_of_occurrences hsub hself (nodes_trans hb₁ hin)).of_mem (node_mem_nodes ha))
    · rcases Place.in_front_of_declared hok hsub htype with hleaf | ⟨hfun, hfield, hfront⟩
      · rw [hleaf b.node hb₁] at hocc'
        cases hocc'
      · have hback : root.Precedes o'.tree o.tree :=
          (precedes_of_occurrences hsub (nodes_trans hb₁ hin) hself).of_mem (node_mem_nodes ha)
        have hne : o'.tree ≠ o₁.tree := by
          intro heq
          rw [← heq, nodes_of_identifier (Place.identifier_of_declaredAs? htype'), mem_singleton] at hb₁
          rw [hb₁, occurrences_of_identifier (Place.identifier_of_declaredAs? htype')] at hocc'
          cases hocc'
        exact ⟨(ne_of_sublist_pair hd.nodup (hback.map Tree.id)).symm, .inl ⟨a.node, node_mem_nodes ha, hfun,
          o, hocc, o₁, ho₁, hfield, Place.identifier_of_declaredAs? htype, rfl, hfront, o'.tree,
          nodes_trans hb₁ hin, hne, rfl⟩⟩
  · exact declaredBefore_of_precedes hd ha hb ho ho' (.inr hnodes)
      (hafter _ (mem_nodes_iff.mpr (.inr ⟨o, hocc, hself⟩)) _ hin)

end

/-- **The order of declarations.** -/
theorem declaring_pairwise (hd : root.Distinct) (hadd : ∀ p ∈ root.places, p.additions = .ok p.added) :
    (root.places.flatMap fun p => p.declaring.map fun o => o.tree.id).Pairwise fun x y =>
      x ≠ y ∧ root.DeclaredBefore x y := by
  rw [pairwise_flatMap]
  refine ⟨fun p hp => ?_, pairwise_iff_forall_sublist.mpr fun {a b} hab x hx y hy => ?_⟩
  · rw [pairwise_map, pairwise_iff_forall_sublist]
    intro o o' hsub
    have ho := hsub.subset mem_cons_self
    have ho' : o' ∈ p.declaring := hsub.subset (by simp)
    exact declaredBefore_of_precedes hd hp hp ho ho' (.inl rfl)
      ((precedes_of_occurrences (hsub.trans filter_sublist)
        (self_mem_nodes (Place.isNode_of_mem_declaring ho))
        (self_mem_nodes (Place.isNode_of_mem_declaring ho'))).of_mem (node_mem_nodes hp))
  · obtain ⟨o, ho, rfl⟩ := mem_map.mp hx
    obtain ⟨o', ho', rfl⟩ := mem_map.mp hy
    have ha : a ∈ root.places := hab.subset mem_cons_self
    have hb : b ∈ root.places := hab.subset (by simp)
    exact declaredBefore_of_places hd ha hb ho ho' (hadd a ha) hab

namespace ScopeTable

/-- The identifiers declared in a scope come in the order of declarations. -/
theorem declarations_pairwise (hd : root.Distinct) (hadd : ∀ p ∈ root.places, p.additions = .ok p.added)
    (t : ScopeTable) (i : Nat) :
    ((t.declarationsIn root.places i).map Declaration.identifier).Pairwise fun x y =>
      x ≠ y ∧ root.DeclaredBefore x y := by
  refine (declaring_pairwise hd hadd).sublist ?_
  rw [declarationsIn, map_flatMap]
  refine List.Sublist.flatMap_right _ fun p hp => ?_
  rw [declarations_eq_filterMap (hadd p hp), map_filterMap]
  refine filterMap_sublist _ fun o x hx => ?_
  obtain ⟨d, hd, rfl⟩ := Option.map_eq_some_iff.mp hx
  obtain ⟨x, hx, hd⟩ := Option.bind_eq_some_iff.mp hd
  obtain ⟨type, htype, hx⟩ := Option.bind_eq_some_iff.mp hx
  obtain ⟨name, hname, rfl⟩ := Option.map_eq_some_iff.mp hx
  rw [Addition.declarationIn] at hd
  split at hd
  · obtain rfl := Option.some.inj hd
    exact ⟨by rw [htype]; rfl, rfl⟩
  · cases hd

end ScopeTable

end ArrowFree
