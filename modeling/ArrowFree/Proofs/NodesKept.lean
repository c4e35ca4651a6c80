import ArrowFree.Proofs.Modularity
import ArrowFree.Proofs.Positions

/-!
# Nodes that lowering keeps

What lowering does to a tree is seen in the pre-order list of its nodes: arrows go, made nodes come, and the
rest stay in their order with their frames (`lowered_nodes_kept`). New names go to references and to identifiers
that declare a variable, so that no key of an object and no name of a member gets one.
-/

namespace ArrowFree

open ArrowFree.Tree Lowering

namespace Lowering

variable {a : Analysis}

namespace Analyzed

variable {root : Tree} {t : ScopeTable} {hidden : List (Nat × List NodeId)}
  (h : Analyzed a root t hidden) {p : Place}
include h

theorem reference_ne_key (hp : p ∈ root.places) (hkey : p.IsKey) {ref : Reference} (href : ref ∈ t.references) :
    ref.identifier ≠ p.node.id := by
  intro hid
  obtain ⟨q, hq, -, hreference, rfl⟩ := h.outlined.references ref href
  obtain rfl := h.distinct.place_eq hq hp hid
  rw [hkey.not_reference] at hreference
  cases hreference

/-- Keys keep their names: an identifier with a new one is a reference or declares a variable. -/
theorem replacement?_key (ha : analyze t root = .ok a) (hp : p ∈ root.places) (hkey : p.IsKey) :
    a.replacement? p.node.id = none := by
  rw [Option.eq_none_iff_forall_ne_some]
  intro name hname
  unfold Analysis.replacement? at hname
  split at hname
  · rename_i f htarget
    obtain ⟨ref, hid, href, -⟩ := (h.argumentTargets_iff ha).mp htarget
    exact h.reference_ne_key hp hkey href hid
  · obtain ⟨i, s, b, ⟨hlexical, -⟩, hnames, -⟩ := h.renamed_iff.mp hname
    rcases hnames with hdeclared | ⟨ref, href, -, hid, -⟩
    · obtain ⟨d, hd, hargs, hid⟩ := (hlexical.mem_identifiers h.outlined _).mp hdeclared
      obtain ⟨q, hq, ⟨type, htype⟩, -, hid', -⟩ :=
        (ScopeTable.mem_declarationsIn_iff h.additions).mp ⟨d, hd, hargs, hid⟩
      obtain rfl := h.distinct.place_eq hq hp hid'
      exact Place.not_key_of_declares htype hkey
    · exact h.reference_ne_key hp hkey href hid

theorem replacement?_isSome_iff (id : NodeId) :
    (a.replacement? id).isSome ↔ (a.argumentTargets.get? id).isSome ∨ (a.renamed.get? id).isSome := by
  unfold Analysis.replacement?
  cases htarget : a.argumentTargets.get? id with
  | none => simp
  | some f =>
    obtain ⟨ref, -, -, hname⟩ := h.recorded.provided.targets id f htarget
    simp [hname]

end Analyzed

end Lowering

/-- **Lowering changes nothing else.** Without the nodes that lowering makes, the nodes of the lowered tree are
in pre-order those of the tree without its arrows, with the same frames but for new names and short forms. The
nodes that it makes are those of its arrows and of the functions that keep their arguments. New names go to
the carried references and to the identifiers of hidden variables, and no key gets one. -/
theorem lowered_nodes_kept {t u : Tree} {strict : Bool} (h : t.numbered.withoutArrows strict = .ok u) :
    ∃ scopes a, Lowerable strict t.numbered scopes a u ∧
      (u.nodes.filter fun n => ! n.id.isMade).map frame =
        (t.numbered.nodes.filter fun n => ! n.isArrow).map (frameAfter a) ∧
      ((u.nodes.filter fun n => n.id.isMade).map Tree.id).Perm (t.numbered.nodes.flatMap (creations a)) ∧
      (∀ n ∈ u.nodes, ∀ role origin, n.id = .made role origin → n.kind? = some (kindFor role)) ∧
      (∀ n : Tree, n.is .identifier → ((newName? a n).isSome ↔
        (a.argumentTargets.get? n.id).isSome ∨ (a.renamed.get? n.id).isSome)) ∧
      ∀ p ∈ t.numbered.places, p.IsKey → p.node.is .property = false → frameAfter a p.node = p.node.frame := by
  obtain ⟨hfault, rfl⟩ := Tree.withoutArrows_ok h
  obtain ⟨scopes, a, hl⟩ := transform_ok hfault
  have hd := distinct_numbered t
  obtain ⟨hidden, hanalyzed⟩ := analyzed hd hl.scopes_eq hl.analysis_eq
  obtain ⟨cs, hwoven, hperm⟩ := woven_of_distinct hd hl.apply_eq
  refine ⟨scopes, a, hl, hwoven.frames_eq, hwoven.made_eq.symm ▸ hperm,
    fun n hn role origin => hwoven.kind_of_made hn, fun n hn => ?_, fun p hp hkey hproperty => ?_⟩
  · unfold newName?
    rw [if_pos hn]
    exact hanalyzed.replacement?_isSome_iff n.id
  · refine frameAfter_of_not_property ?_ hproperty
    unfold newName?
    rw [hanalyzed.replacement?_key hl.analysis_eq hp hkey, ite_self]

/-- `function () { "d"; () => ({ arguments, arguments: this }); }` -/
def shortForms : Tree :=
  let property (value : Tree) (short : Bool) : Tree :=
    .mk .property none [.identifier "arguments" none, value, .bool false, .bool short, .text "init"]
  .mk .functionExpression none [.null, .list [], .mk .blockStatement none [.list
    [.mk .expressionStatement none [.mk .literal none [.text "d", .null]],
     .mk .expressionStatement none [.mk .arrowFunctionExpression none [.list [],
       .mk .objectExpression none [.list [property (.identifier "arguments" none) true,
         property (.mk .thisExpression none []) false]],
       .bool true]]]]]

/-- The value of the short form gets a new name, and its key and the other key do not. -/
theorem lowered_nodes_kept_shortForms : ∃ u scopes a, shortForms.numbered.withoutArrows = .ok u ∧
      Lowerable false shortForms.numbered scopes a u ∧
      (u.nodes.filter fun n => ! n.id.isMade).map frame =
        (shortForms.numbered.nodes.filter fun n => ! n.isArrow).map (frameAfter a) ∧
      (shortForms.numbered.nodes.filter fun n => (newName? a n).isSome).map Tree.id = [.numbered 9] ∧
      (shortForms.numbered.nodes.filter (writesOut a)).map Tree.id = [.numbered 7] ∧
      (u.nodes.filter fun n => n.id.isMade).map kind? =
        [some .variableDeclaration, some .variableDeclarator, some .identifier, some .identifier,
         some .callExpression, some .memberExpression, some .functionExpression, some .blockStatement,
         some .returnStatement, some .identifier, some .thisExpression] := by
  have hu := Tree.withoutArrows_eq shortForms.numbered false (by decide +kernel)
  obtain ⟨scopes, a, hl, hframes, -⟩ := lowered_nodes_kept hu
  have hcomputed := hl.computed (f := fun _ a => decide
    ((shortForms.numbered.nodes.filter fun n => (newName? a n).isSome).map Tree.id = [.numbered 9] ∧
      (shortForms.numbered.nodes.filter (writesOut a)).map Tree.id = [.numbered 7])) (by decide +kernel)
  obtain ⟨hnew, hout⟩ := of_decide_eq_true hcomputed
  exact ⟨_, scopes, a, hu, hl, hframes, hnew, hout, by decide +kernel⟩

/-- `function () { () => ({ [arguments]: 1 }); }`, with the property marked as in short form. -/
def shortComputed : Tree :=
  .mk .functionExpression none [.null, .list [], .mk .blockStatement none [.list
    [.mk .expressionStatement none [.mk .arrowFunctionExpression none [.list [],
       .mk .objectExpression none [.list [.mk .property none [.identifier "arguments" none,
         .mk .literal none [.scalar (.int 1), .null], .bool true, .bool true, .text "init"]]],
       .bool true]]]]]

/-- The short form is also lost where the value stays and the key gets a new name. -/
theorem shorthand_lost_shortComputed :
    ∃ u p q, shortComputed.numbered.withoutArrows = .ok u ∧ p ∈ shortComputed.numbered.nodes ∧ q ∈ u.nodes ∧
      p.is .property ∧ q.id = p.id ∧ q.attribute? "value" = p.attribute? "value" ∧
      p.attribute? "shorthand" = some (.bool true) ∧ q.attribute? "shorthand" = some (.bool false) := by
  have hu := Tree.withoutArrows_eq shortComputed.numbered false (by decide +kernel)
  have hpair : ∃ p ∈ shortComputed.numbered.nodes,
      ∃ q ∈ (Session.transform { strict := false } shortComputed.numbered).tree.nodes,
        p.is .property ∧ q.id = p.id ∧ q.attribute? "value" = p.attribute? "value" ∧
        p.attribute? "shorthand" = some (.bool true) ∧ q.attribute? "shorthand" = some (.bool false) := by
    decide +kernel
  obtain ⟨p, hp, q, hq, hrest⟩ := hpair
  exact ⟨_, p, q, hu, hp, hq, hrest⟩

end ArrowFree
