import ArrowFree.Proofs.Lowered

/-!
# No arrow survives

A tree that lowering has gone through holds no arrow that a traversal reaches, whatever the analysis
says and wherever the arrows stood (`noArrow_of_apply`). Validation finds nothing in such a tree.
-/

namespace ArrowFree

open ArrowFree.Tree List

/-- No node that a traversal reaches is an arrow. -/
def Tree.NoArrow (t : Tree) : Prop := ∀ n ∈ t.nodes, n.isArrow = false

namespace Lowering

variable {a : Analysis}
variable {t body : Tree} {origin : NodeId} {i : Info} {slots : List Tree}
  {location : Option Location}

theorem noArrow_of_not_node (h : t.isNode = false) : t.NoArrow := by
  intro n hn
  rw [nodes_of_not_node h] at hn
  simp at hn

theorem noArrow_node {s : Shape} : (Tree.node i s slots).NoArrow ↔
      (Tree.node i s slots).isArrow = false ∧ ∀ o ∈ occurrencesIn s.fields slots, o.tree.NoArrow := by
  unfold Tree.NoArrow
  rw [nodes_node]
  simp only [mem_cons, mem_flatMap, forall_eq_or_imp]
  constructor
  · rintro ⟨hself, hocc⟩
    exact ⟨hself, fun o ho n hn => hocc n ⟨o, ho, hn⟩⟩
  · rintro ⟨hself, hocc⟩
    exact ⟨hself, fun n ⟨o, ho, hn⟩ => hocc o ho n hn⟩

/-- A node that lowering makes, of a kind that is no arrow, around values without arrows. -/
theorem noArrow_made {role : Role} {k : Kind} (hk : k.isArrow = false)
    (h : ∀ o ∈ (made role origin k location slots).occurrences, o.tree.NoArrow) :
    (made role origin k location slots).NoArrow :=
  noArrow_node.mpr ⟨hk, h⟩

theorem noArrow_bindingDeclaration (origin : NodeId) (name : Text) :
    (bindingDeclaration origin name).NoArrow := by
  refine noArrow_made rfl ?_
  intro o ho
  obtain rfl : o = _ := mem_singleton.mp ho
  refine noArrow_made rfl ?_
  intro o ho
  rcases mem_cons.mp ho with rfl | ho
  · exact noArrow_made rfl (by simp [made, occurrencesOf, Kind.layout, Field.attr, Shape.fields])
  · obtain rfl : o = _ := mem_singleton.mp ho
    exact noArrow_made rfl (by simp [made, occurrencesOf, Kind.layout, Field.attr, Shape.fields])

theorem noArrow_blockFor (hnode : body.isNode) (h : body.NoArrow) : (blockFor origin body).NoArrow := by
  unfold blockFor
  split
  · exact h
  · refine noArrow_made rfl ?_
    intro o ho
    change o ∈ (returning origin body).occurrences at ho
    rw [occurrences_returning, mem_singleton] at ho
    subst ho
    refine noArrow_made rfl ?_
    intro o ho
    change o ∈ (returnFor origin body).occurrences at ho
    rw [occurrences_returnFor hnode, mem_singleton] at ho
    subst ho
    exact h

theorem noArrow_functionFor {params : Tree} (hnode : body.isNode)
    (hparams : ∀ o ∈ occurrencesOf (.sub "params") params, o.tree.NoArrow) (hbody : body.NoArrow) :
    (functionFor i params body).NoArrow := by
  refine noArrow_made rfl ?_
  intro o ho
  change o ∈ (functionFor i params body).occurrences at ho
  rw [occurrences_functionFor hnode, mem_cons, mem_append, mem_singleton] at ho
  rcases ho with rfl | ho | rfl
  · exact noArrow_of_not_node rfl
  · exact hparams o ho
  · exact noArrow_blockFor hnode hbody

theorem noArrow_bound {function : Tree} (hnode : function.isNode) (h : function.NoArrow) :
    (bound origin location function).NoArrow := by
  refine noArrow_made rfl ?_
  intro o ho
  change o ∈ (bound origin location function).occurrences at ho
  rw [occurrences_bound, mem_cons, mem_singleton] at ho
  rcases ho with rfl | rfl
  · refine noArrow_made rfl ?_
    intro o ho
    change o ∈ (bindMember origin location function).occurrences at ho
    rw [occurrences_bindMember _ _ hnode, mem_cons, mem_singleton] at ho
    rcases ho with rfl | rfl
    · exact h
    · exact noArrow_made rfl (by simp [made, occurrencesOf, Kind.layout, Field.attr, Shape.fields])
  · exact noArrow_made rfl (by simp [made, Kind.layout, Shape.fields])

theorem noArrow_carried {os os' : List Occurrence} (hc : List.Forall₂ (Carried a) os os')
    (h : ∀ o ∈ os, ∀ u, apply a o.tree = (u, none) → u.NoArrow) : ∀ o' ∈ os', o'.tree.NoArrow := by
  intro o' ho'
  obtain ⟨o, ho, hoo'⟩ := origin_of_carried hc ho'
  exact h o ho _ hoo'.tree

/-- **No arrow survives lowering.** Children are lowered before the node around them, so that an arrow
is taken apart when nothing in it is an arrow any more. -/
theorem noArrow_of_apply {u : Tree} (h : apply a t = (u, none)) : u.NoArrow := by
  induction t using deep_induction generalizing u with
  | h t ih ih' =>
    cases lowers_of_apply h with
    | value ht => exact noArrow_of_not_node ht
    | renamed hname =>
      exact noArrow_node.mpr ⟨rfl, by simp [occurrencesOf, Kind.layout, Field.attr, Shape.fields]⟩
    | @kept i s slots slots' hname harrow hfun hslots =>
      refine noArrow_node.mpr ⟨isArrow_node i i s _ _ ▸ harrow, ?_⟩
      rw [occurrencesIn_written]
      exact noArrow_carried (carried_slots hslots) fun o ho u hu => ih o ho hu
    | @arrow i params body params' body' rest hparams hbody hnode =>
      have hbodyNode : body.isNode := (isNode_apply hbody).symm.trans hnode
      rw [occurrences_arrow i params rest hbodyNode] at ih
      have hin : ∀ o ∈ occurrencesOf (.sub "params") params', o.tree.NoArrow :=
        noArrow_carried (carried_slot hparams) fun o ho u hu =>
          ih o (mem_append_left _ ho) hu
      have hfunction : (functionFor i params' body').NoArrow :=
        noArrow_functionFor hnode hin (ih ⟨"body", none, body⟩ (by simp) hbody)
      unfold standIn
      split
      · exact noArrow_bound rfl hfunction
      · exact hfunction
    | @hoisted i ib k kb id params id' params' name bslots bslots' rest ss hk hname hid hparams
        hbname hbarrow hbfun hslots hss =>
      rw [occurrences_function i hk id params rest rfl] at ih ih'
      have hbody : (Tree.node ib (.known kb) (setSlot "body"
          (.list (insertStatement (bindingDeclaration i.id name) ss)) kb.layout
            (written a (.known kb) bslots bslots'))).NoArrow := by
        refine noArrow_node.mpr ⟨isArrow_node ib ib _ _ _ ▸ hbarrow, fun o ho => ?_⟩
        rcases origin_of_statement hslots hss ho with ⟨-, hd⟩ | ⟨o₀, ho₀, -, happly⟩
        · exact hd ▸ noArrow_bindingDeclaration _ _
        · exact ih' ⟨"body", none, .node ib (.known kb) bslots⟩ (by simp) o₀ ho₀ happly
      have hcases : k.isArrow = false := by
        cases k <;> first | rfl | cases hk
      refine noArrow_node.mpr ⟨hcases, fun o ho => ?_⟩
      rw [← occurrences_node i, occurrences_function i hk id' params' rest rfl] at ho
      simp only [mem_append, mem_singleton] at ho
      rcases ho with ho | ho | rfl
      · exact noArrow_carried (carried_slot hid)
          (fun o ho u hu => ih o (mem_append_left _ ho) hu) o ho
      · exact noArrow_carried (carried_slot hparams) (fun o ho u hu => ih o (by simp [ho]) hu) o ho
      · exact hbody

theorem validate_of_noArrow (h : t.NoArrow) : validate t = .ok () := by
  have hnone : t.nodes.find? Tree.isArrow = none :=
    find?_eq_none.mpr fun n hn => by simp [h n hn]
  unfold validate
  rw [hnone]

end Lowering

end ArrowFree
