import ArrowFree.Proofs.Places
import Mathlib.Data.List.Flatten

/-!
# Pre-order

Of two nodes in pre-order the later one is within the earlier one, or all of it comes after all of the
earlier one (`nodes_pairwise`).
-/

namespace ArrowFree.Tree

open List

variable {t x y : Tree} {o : Occurrence}

/-- One node of a tree comes before another in pre-order. -/
def Precedes (t x y : Tree) : Prop := [x, y].Sublist t.nodes

theorem Precedes.of_mem {n : Tree} (h : n.Precedes x y) (hn : n ∈ t.nodes) : t.Precedes x y :=
  List.Sublist.trans h (nodes_sublist hn)

theorem Precedes.of_occurrence (h : o.tree.Precedes x y) (ho : o ∈ t.occurrences) : t.Precedes x y :=
  List.Sublist.trans h (nodes_sublist_of_occurrence ho)

theorem precedes_of_occurrences {o' : Occurrence} (h : [o, o'].Sublist t.occurrences) (hx : x ∈ o.tree.nodes)
    (hy : y ∈ o'.tree.nodes) : t.Precedes x y := by
  rcases t.eq_node_or_not_node with ⟨i, s, slots, rfl⟩ | ht
  · have hpair : [x, y].Sublist ([o, o'].flatMap fun o => o.tree.nodes) := by
      rw [flatMap_cons, flatMap_singleton]
      exact (singleton_sublist.mpr hx).append (singleton_sublist.mpr hy)
    rw [Precedes, nodes_node]
    exact (hpair.trans (h.flatMap _)).cons _
  · rw [occurrences_of_not_node ht] at h
    cases h

/-- The later of two nodes is within the earlier, or it is wholly after it. -/
theorem nodes_pairwise (t : Tree) : t.nodes.Pairwise fun a b =>
    (∃ o ∈ a.occurrences, b ∈ o.tree.nodes) ∨ ∀ x ∈ a.nodes, ∀ y ∈ b.nodes, t.Precedes x y := by
  induction t using occurrence_induction with
  | h t ih =>
    rcases t.eq_node_or_not_node with ⟨i, s, slots, rfl⟩ | ht
    · rw [nodes_node, pairwise_cons, pairwise_flatMap]
      refine ⟨fun b hb => .inl (mem_flatMap.mp hb), fun o ho => ?_, ?_⟩
      · refine (ih o ho).imp fun hab => hab.imp_right fun hlater x hx y hy => ?_
        exact (hlater x hx y hy).of_occurrence ho
      · rw [pairwise_iff_forall_sublist]
        intro o o' hsub a ha b hb
        exact .inr fun x hx y hy => precedes_of_occurrences hsub (nodes_trans ha hx) (nodes_trans hb hy)
    · rw [nodes_of_not_node ht]
      exact .nil

end ArrowFree.Tree
