import ArrowFree.Tree.Place
import Mathlib.Data.List.Basic

/-!
# The places of a tree

The places of a tree are the root and, for each occurrence, the places of what occurs there with one
more step to them (`places_node`). Seen from the inside, a place is the root or an occurrence in
the owner of its last step (`mem_places_cons`).
-/

namespace ArrowFree

open List

variable {π : Path} {known : List Place}

theorem Kind.names_layout (k : Kind) : (k.layout.map (·.name)).Nodup := by
  cases k <;> decide

/-- The place seen from further out: more steps lead to the root. -/
def Place.under (p : Place) (path : Path) : Place := ⟨p.node, p.path ++ path⟩

namespace Tree

variable {f : Field} {field : Text} {P : Tree → Prop} {skip : Tree → Bool} {q : Path}

/-! ## Occurrences -/

variable {t n : Tree} {o : Occurrence} {p : Place} {ts : List Tree} {s : Step} {path : Path}

@[simp] theorem occurrences_node (i : Info) (s : Shape) (slots : List Tree) :
    (node i s slots).occurrences = occurrencesIn s.fields slots := rfl

@[simp] theorem occurrencesIn_cons (f : Field) (fs : List Field) (t : Tree) (ts : List Tree) :
    occurrencesIn (f :: fs) (t :: ts) = occurrencesOf f t ++ occurrencesIn fs ts := rfl

@[simp] theorem occurrencesIn_nil_left (ts : List Tree) : occurrencesIn [] ts = [] := rfl

@[simp] theorem occurrencesIn_nil_right (fs : List Field) : occurrencesIn fs [] = [] := by
  cases fs <;> rfl

theorem occurrencesOf_of_isNode (hf : f.child) (h : t.isNode) : occurrencesOf f t = [⟨f.name, none, t⟩] := by
  unfold occurrencesOf
  rw [if_pos hf]
  cases t with
  | node i s slots => rfl
  | scalar | list | object => cases h

theorem eq_node_or_not_node (t : Tree) : (∃ i s slots, t = node i s slots) ∨ t.isNode = false := by
  cases t with
  | node i s slots => exact Or.inl ⟨i, s, slots, rfl⟩
  | scalar | list | object => exact Or.inr rfl

theorem occurrences_of_not_node (h : t.isNode = false) : t.occurrences = [] := by
  cases t with
  | node i s slots => simp [isNode] at h
  | scalar | list | object => rfl

theorem isNode_of_mem_occurrences (h : o ∈ t.occurrences) : t.isNode := by
  rcases t.eq_node_or_not_node with ⟨i, s, slots, rfl⟩ | ht
  · rfl
  · simp [occurrences_of_not_node ht] at h

theorem occurrences_identifier (i : Info) (slots : List Tree) :
    (node i (.known .identifier) slots).occurrences = [] := by
  cases slots with
  | nil => rfl
  | cons t ts => exact occurrencesIn_nil_left ts

theorem itemsFrom_append (field : Text) (n : Nat) (ts us : List Tree) :
    itemsFrom field n (ts ++ us) = itemsFrom field n ts ++ itemsFrom field (n + ts.length) us := by
  induction ts generalizing n with
  | nil => rfl
  | cons t ts ih =>
    rw [cons_append, itemsFrom, ih, itemsFrom, cons_append, length_cons,
      Nat.add_right_comm, Nat.add_assoc]

theorem mem_itemsFrom {n : Nat} (h : o ∈ itemsFrom field n ts) :
    o.field = field ∧ (∃ k, o.index = some k) ∧ o.tree ∈ ts := by
  induction ts generalizing n with
  | nil => simp [itemsFrom] at h
  | cons t ts ih =>
    rw [itemsFrom, mem_cons] at h
    rcases h with rfl | h
    · exact ⟨rfl, ⟨n, rfl⟩, mem_cons_self⟩
    · obtain ⟨hf, hk, ht⟩ := ih h
      exact ⟨hf, hk, mem_cons_of_mem _ ht⟩

theorem exists_mem_itemsFrom (field : Text) (n : Nat) (h : t ∈ ts) :
    ∃ k, ⟨field, some k, t⟩ ∈ itemsFrom field n ts := by
  induction ts generalizing n with
  | nil => simp at h
  | cons u ts ih =>
    rcases mem_cons.mp h with rfl | h
    · exact ⟨n, mem_cons_self⟩
    · obtain ⟨k, hk⟩ := ih (n + 1) h
      exact ⟨k, mem_cons_of_mem _ hk⟩

theorem sizeOf_lt_of_mem_itemsFrom {n : Nat} (h : o ∈ itemsFrom field n ts) : sizeOf o.tree < sizeOf ts :=
  sizeOf_lt_of_mem (mem_itemsFrom h).2.2

theorem sizeOf_le_of_mem_occurrencesOf (h : o ∈ occurrencesOf f t) : sizeOf o.tree ≤ sizeOf t := by
  unfold occurrencesOf at h
  split at h
  · split at h
    · have := sizeOf_lt_of_mem_itemsFrom h
      simp only [list.sizeOf_spec]
      omega
    · rw [mem_singleton] at h
      subst h
      exact Nat.le_refl _
  · simp at h

theorem sizeOf_lt_of_mem_occurrencesIn {fs : List Field} (h : o ∈ occurrencesIn fs ts) :
    sizeOf o.tree < sizeOf ts := by
  induction fs generalizing ts with
  | nil => simp at h
  | cons f fs ih =>
    cases ts with
    | nil => simp at h
    | cons t ts =>
      rw [occurrencesIn_cons, mem_append] at h
      rw [cons.sizeOf_spec]
      rcases h with h | h
      · have := sizeOf_le_of_mem_occurrencesOf h
        omega
      · have := ih h
        omega

theorem sizeOf_lt_of_mem_occurrences (h : o ∈ t.occurrences) : sizeOf o.tree < sizeOf t := by
  rcases t.eq_node_or_not_node with ⟨i, s, slots, rfl⟩ | ht
  · have := sizeOf_lt_of_mem_occurrencesIn h
    simp only [node.sizeOf_spec]
    omega
  · simp [occurrences_of_not_node ht] at h

/-- Induction along occurrences: what holds of a tree when it holds of whatever occurs in it, holds
of every tree. -/
theorem occurrence_induction (h : ∀ t : Tree, (∀ o ∈ t.occurrences, P o.tree) → P t) (t : Tree) : P t :=
  h t fun o _ => occurrence_induction h o.tree
termination_by sizeOf t
decreasing_by exact sizeOf_lt_of_mem_occurrences (by assumption)

/-- The same with the occurrences in what occurs at hand as well. -/
theorem deep_induction
    (h : ∀ t : Tree, (∀ o ∈ t.occurrences, P o.tree) →
      (∀ o ∈ t.occurrences, ∀ o' ∈ o.tree.occurrences, P o'.tree) → P t)
    (t : Tree) : P t := by
  have both : P t ∧ ∀ o ∈ t.occurrences, P o.tree := by
    induction t using occurrence_induction with
    | h t ih =>
      have here : ∀ o ∈ t.occurrences, P o.tree := fun o ho => (ih o ho).1
      exact ⟨h t here fun o ho => (ih o ho).2, here⟩
  exact both.1

/-! ## Places through occurrences -/

theorem placesInItems_eq (skip : Tree → Bool) (owner : Tree) (path : Path) (field : Text) (n : Nat)
    (ts : List Tree) :
    placesInItems skip owner path field n ts =
      (itemsFrom field n ts).flatMap fun o => o.tree.placesAt skip (o.step owner :: path) := by
  induction ts generalizing n with
  | nil => simp only [placesInItems, itemsFrom, flatMap_nil]
  | cons t ts ih =>
    simp only [placesInItems, itemsFrom, flatMap_cons, ih]
    rfl

theorem placesInSlots_eq (skip : Tree → Bool) (owner : Tree) (path : Path) (fs : List Field)
    (ts : List Tree) :
    placesInSlots skip owner path fs ts =
      (occurrencesIn fs ts).flatMap fun o => o.tree.placesAt skip (o.step owner :: path) := by
  induction fs generalizing ts with
  | nil => cases ts <;> simp only [placesInSlots, occurrencesIn_nil_left, flatMap_nil]
  | cons f fs ih =>
    cases ts with
    | nil => simp only [placesInSlots, occurrencesIn_nil_right, flatMap_nil]
    | cons t ts =>
      rw [occurrencesIn_cons, flatMap_append, ← ih]
      by_cases hf : f.child
      · cases t <;>
          simp [placesInSlots, occurrencesOf, hf, placesInItems_eq, Occurrence.step]
      · cases t <;> simp [placesInSlots, occurrencesOf, hf]

/-- A node to be skipped has only its own place; any other has those of its occurrences too. -/
theorem placesAt_node (skip : Tree → Bool) (path : Path) (i : Info) (s : Shape)
    (slots : List Tree) :
    (node i s slots).placesAt skip path = ⟨node i s slots, path⟩ :: if skip (node i s slots) then []
        else (occurrencesIn s.fields slots).flatMap fun o =>
          o.tree.placesAt skip (o.step (node i s slots) :: path) := by
  rw [placesAt, placesInSlots_eq]

theorem placesAt_of_isNode (h : t.isNode) (path : Path) : t.placesAt (fun _ => false) path =
      ⟨t, path⟩ :: t.occurrences.flatMap fun o =>
        o.tree.placesAt (fun _ => false) (o.step t :: path) := by
  cases t with
  | node i s slots => rw [placesAt_node, if_neg (by simp), occurrences_node]
  | scalar | list | object => cases h

theorem placesAt_of_not_node (h : t.isNode = false) : t.placesAt skip path = [] := by
  cases t with
  | node i s slots => simp [isNode] at h
  | scalar | list | object => rfl

/-- The path to a tree does not change what is found in it. -/
theorem placesAt_append (skip : Tree → Bool) (t : Tree) (path outer : Path) :
    t.placesAt skip (path ++ outer) = (t.placesAt skip path).map fun p => p.under outer := by
  induction t using occurrence_induction generalizing path with
  | h t ih =>
    rcases t.eq_node_or_not_node with ⟨i, s, slots, rfl⟩ | ht
    · rw [placesAt_node, placesAt_node, map_cons]
      congr 1
      by_cases hs : skip (node i s slots)
      · rw [if_pos hs, if_pos hs, map_nil]
      · rw [if_neg hs, if_neg hs, map_flatMap]
        refine flatMap_congr ?_
        intro o ho
        rw [← cons_append]
        exact ih o ho _
    · rw [placesAt_of_not_node ht, placesAt_of_not_node ht, map_nil]

theorem placesAt_eq_map (skip : Tree → Bool) (t : Tree) (path : Path) :
    t.placesAt skip path = (t.placesAt skip []).map fun p => p.under path :=
  placesAt_append skip t [] path

theorem places_node (i : Info) (s : Shape) (slots : List Tree) : (node i s slots).places =
      ⟨node i s slots, []⟩ :: (occurrencesIn s.fields slots).flatMap fun o =>
        o.tree.places.map fun p => p.under [o.step (node i s slots)] := by
  unfold places
  rw [placesAt_of_isNode rfl]
  congr 1
  exact flatMap_congr fun o _ => placesAt_eq_map _ _ _

theorem places_of_not_node (h : t.isNode = false) : t.places = [] := placesAt_of_not_node h

theorem mem_places_iff : p ∈ t.places ↔ (t.isNode ∧ p = ⟨t, []⟩) ∨
      ∃ o ∈ t.occurrences, ∃ q ∈ o.tree.places, p = q.under [o.step t] := by
  rcases t.eq_node_or_not_node with ⟨i, s, slots, rfl⟩ | ht
  · rw [places_node, mem_cons, mem_flatMap]
    simp [isNode, eq_comm]
  · simp [places_of_not_node ht, occurrences_of_not_node ht, ht]

theorem isNode_of_mem_places (h : p ∈ t.places) : p.node.isNode := by
  induction t using occurrence_induction generalizing p with
  | h t ih =>
    rcases mem_places_iff.mp h with ⟨ht, rfl⟩ | ⟨o, ho, q, hq, rfl⟩
    · exact ht
    · exact ih o ho (p := q) hq

theorem mem_places_nil : ⟨n, []⟩ ∈ t.places ↔ n = t ∧ t.isNode := by
  rw [mem_places_iff]
  constructor
  · rintro (⟨ht, h⟩ | ⟨o, -, q, -, h⟩)
    · exact ⟨congrArg Place.node h, ht⟩
    · have := congrArg Place.path h
      simp [Place.under] at this
  · rintro ⟨rfl, hn⟩
    exact Or.inl ⟨hn, rfl⟩

theorem mem_places_cons : ⟨n, s :: path⟩ ∈ t.places ↔
      ⟨s.owner, path⟩ ∈ t.places ∧ ⟨s.field, s.index, n⟩ ∈ s.owner.occurrences ∧ n.isNode := by
  induction t using occurrence_induction generalizing n s path with
  | h t ih =>
    constructor
    · intro h
      rcases mem_places_iff.mp h with ⟨-, h⟩ | ⟨o, ho, ⟨m, q⟩, hq, h⟩
      · have := congrArg Place.path h
        simp at this
      · have hn : n = m := congrArg Place.node h
        have hpath : s :: path = q ++ [o.step t] := congrArg Place.path h
        subst hn
        cases q with
        | nil =>
          rw [nil_append, cons.injEq] at hpath
          obtain ⟨rfl, rfl⟩ := hpath
          obtain ⟨rfl, hm⟩ := mem_places_nil.mp hq
          exact ⟨mem_places_nil.mpr ⟨rfl, isNode_of_mem_occurrences ho⟩, ho, hm⟩
        | cons s' q =>
          rw [cons_append, cons.injEq] at hpath
          obtain ⟨rfl, rfl⟩ := hpath
          obtain ⟨hown, hocc, hm⟩ := (ih o ho).mp hq
          exact ⟨mem_places_iff.mpr (Or.inr ⟨o, ho, _, hown, rfl⟩), hocc, hm⟩
    · rintro ⟨hown, hocc, hn⟩
      rcases mem_places_iff.mp hown with ⟨ht, h⟩ | ⟨o, ho, ⟨m, q⟩, hq, h⟩
      · have hs : s.owner = t := congrArg Place.node h
        have hpath : path = [] := congrArg Place.path h
        subst hpath
        rw [hs] at hocc
        refine mem_places_iff.mpr (Or.inr ⟨_, hocc, ⟨n, []⟩, mem_places_nil.mpr ⟨rfl, hn⟩, ?_⟩)
        rw [← hs]
        rfl
      · have hs : s.owner = m := congrArg Place.node h
        have hpath : path = q ++ [o.step t] := congrArg Place.path h
        subst hpath
        rw [← hs] at hq
        have := (ih o ho).mpr ⟨hq, hocc, hn⟩
        exact mem_places_iff.mpr (Or.inr ⟨o, ho, _, this, rfl⟩)

/-! ## Nodes -/

theorem nodes_node (i : Info) (s : Shape) (slots : List Tree) : (node i s slots).nodes =
      node i s slots :: (occurrencesIn s.fields slots).flatMap fun o => o.tree.nodes := by
  unfold nodes
  rw [places_node, map_cons, map_flatMap]
  congr 1
  refine flatMap_congr ?_
  intro o _
  rw [map_map]
  rfl

theorem nodes_identifier (i : Info) (slots : List Tree) :
    (node i (.known .identifier) slots).nodes = [node i (.known .identifier) slots] := by
  rw [nodes_node, ← occurrences_node i, occurrences_identifier, flatMap_nil]

theorem nodes_of_not_node (h : t.isNode = false) : t.nodes = [] := by
  rw [nodes, places_of_not_node h, map_nil]

theorem mem_nodes_iff : n ∈ t.nodes ↔ (t.isNode ∧ n = t) ∨ ∃ o ∈ t.occurrences, n ∈ o.tree.nodes := by
  rcases t.eq_node_or_not_node with ⟨i, s, slots, rfl⟩ | ht
  · rw [nodes_node, mem_cons, mem_flatMap]
    simp [isNode]
  · simp [nodes_of_not_node ht, occurrences_of_not_node ht, ht]

theorem self_mem_nodes (h : t.isNode) : t ∈ t.nodes := by
  rw [mem_nodes_iff]
  exact Or.inl ⟨h, rfl⟩

theorem node_mem_nodes (h : p ∈ t.places) : p.node ∈ t.nodes := mem_map.mpr ⟨p, h, rfl⟩

theorem nodes_trans {m : Tree} (hm : m ∈ t.nodes) (hn : n ∈ m.nodes) : n ∈ t.nodes := by
  induction t using occurrence_induction with
  | h t ih =>
    rw [mem_nodes_iff] at hm
    rcases hm with ⟨-, rfl⟩ | ⟨o, ho, hm⟩
    · exact hn
    · rw [mem_nodes_iff]
      exact Or.inr ⟨o, ho, ih o ho hm⟩

/-- The nodes of a node come in one piece among those of the tree, in their order. -/
theorem nodes_sublist (h : n ∈ t.nodes) : n.nodes.Sublist t.nodes := by
  induction t using occurrence_induction with
  | h t ih =>
    rcases t.eq_node_or_not_node with ⟨i, s, slots, rfl⟩ | ht
    · rw [mem_nodes_iff] at h
      rcases h with ⟨-, rfl⟩ | ⟨o, ho, h⟩
      · exact List.Sublist.refl _
      · obtain ⟨pre, post, hsplit⟩ := append_of_mem ho
        rw [occurrences_node] at hsplit
        rw [nodes_node, hsplit, flatMap_append, flatMap_cons]
        refine ((ih o ho h).trans ?_).cons _
        exact (sublist_append_left _ _).trans (sublist_append_right _ _)
    · rw [nodes_of_not_node ht] at h
      cases h

theorem nodes_sublist_of_occurrence (h : o ∈ t.occurrences) : o.tree.nodes.Sublist t.nodes := by
  cases ho : o.tree.isNode with
  | true => exact nodes_sublist (mem_nodes_iff.mpr (.inr ⟨o, h, self_mem_nodes ho⟩))
  | false =>
    rw [nodes_of_not_node ho]
    exact nil_sublist _

/-- The owner of every step on the way to a place holds the node at that place. -/
theorem node_mem_owner_nodes (h : p ∈ t.places) (hs : s ∈ p.path) : p.node ∈ s.owner.nodes := by
  obtain ⟨n, path⟩ := p
  induction path generalizing n with
  | nil => simp at hs
  | cons s' path ih =>
    rw [mem_places_cons] at h
    obtain ⟨hown, hocc, hn⟩ := h
    have hin : n ∈ s'.owner.nodes := by
      rw [mem_nodes_iff]
      exact Or.inr ⟨_, hocc, self_mem_nodes hn⟩
    rcases mem_cons.mp hs with rfl | hs
    · exact hin
    · exact nodes_trans (ih _ hown hs) hin

/-- Every owner on the way to a place stands at a place of its own. -/
theorem owner_mem_places (h : ⟨n, q ++ s :: path⟩ ∈ t.places) : ⟨s.owner, path⟩ ∈ t.places := by
  induction q generalizing n with
  | nil =>
    rw [nil_append, mem_places_cons] at h
    exact h.1
  | cons s' q ih =>
    rw [cons_append, mem_places_cons] at h
    exact ih h.1

/-- A place seen from one of the nodes around it. -/
theorem mem_owner_places (h : ⟨n, q ++ s :: π⟩ ∈ t.places) : ⟨n, q ++ [s]⟩ ∈ s.owner.places := by
  induction q generalizing n with
  | nil =>
    rw [nil_append, mem_places_cons] at h
    rw [nil_append, mem_places_cons, mem_places_nil]
    exact ⟨⟨rfl, isNode_of_mem_places h.1⟩, h.2⟩
  | cons s' q ih =>
    rw [cons_append, mem_places_cons] at h ⊢
    exact ⟨ih h.1, h.2⟩

theorem under_mem_places {q : Place} (hp : p ∈ t.places) (hq : q ∈ p.node.places) : q.under p.path ∈ t.places := by
  obtain ⟨n, π⟩ := q
  induction π generalizing n with
  | nil =>
    rw [mem_places_nil] at hq
    obtain ⟨rfl, -⟩ := hq
    exact hp
  | cons s π ih =>
    rw [mem_places_cons] at hq
    rw [Place.under, cons_append, mem_places_cons]
    exact ⟨ih _ hq.1, hq.2⟩

/-! ## Skipping -/

/-- The places that are left when nodes are skipped are those with no skipped node around them. -/
theorem placesAt_skip (skip : Tree → Bool) (t : Tree) :
    t.placesAt skip [] = t.places.filter fun p => p.path.all fun s => ! skip s.owner := by
  induction t using occurrence_induction with
  | h t ih =>
    rcases t.eq_node_or_not_node with ⟨i, s, slots, rfl⟩ | ht
    · rw [placesAt_node, places_node, filter_cons_of_pos rfl, filter_flatMap]
      congr 1
      by_cases hskip : skip (node i s slots)
      · rw [if_pos hskip]
        refine (flatMap_eq_nil_iff.mpr fun o _ => filter_eq_nil_iff.mpr fun p hp => ?_).symm
        obtain ⟨q, -, rfl⟩ := mem_map.mp hp
        simp [Place.under, Occurrence.step, hskip]
      · rw [if_neg hskip]
        refine flatMap_congr fun o ho => ?_
        rw [placesAt_eq_map, ih o ho, filter_map]
        refine congrArg _ (filter_congr fun p _ => ?_)
        simp [Place.under, Occurrence.step, hskip]
    · rw [placesAt_of_not_node ht, places_of_not_node ht, filter_nil]

theorem mem_placesAt_skip : p ∈ t.placesAt skip [] ↔ p ∈ t.places ∧ ∀ s ∈ p.path, skip s.owner = false := by
  rw [placesAt_skip, mem_filter, all_eq_true]
  simp only [Bool.not_eq_true']

end Tree

/-! ## Order -/

/-- The nodes on the way to a place are among these places. -/
def Path.Known (known : List Place) : Path → Prop
  | [] => True
  | s :: π => ⟨s.owner, π⟩ ∈ known ∧ Known known π

/-- Each place comes after the nodes around it, where some places have gone before. -/
def OwnersFirst (known : List Place) : List Place → Prop
  | [] => True
  | p :: ps => p.path.Known known ∧ OwnersFirst (known ++ [p]) ps

theorem Path.Known.mono {known' : List Place} (hsub : known ⊆ known') (h : π.Known known) :
    π.Known known' := by
  induction π with
  | nil => trivial
  | cons s π ih => exact ⟨hsub h.1, ih h.2⟩

theorem ownersFirst_append {ps qs : List Place} :
    OwnersFirst known (ps ++ qs) ↔ OwnersFirst known ps ∧ OwnersFirst (known ++ ps) qs := by
  induction ps generalizing known with
  | nil => simp [OwnersFirst]
  | cons p ps ih =>
    rw [cons_append, OwnersFirst, OwnersFirst, ih, and_assoc, append_assoc,
      singleton_append]

theorem ownersFirst_flatMap {os : List Occurrence} {f : Occurrence → List Place}
    (h : ∀ o ∈ os, ∀ known', known ⊆ known' → OwnersFirst known' (f o)) :
    OwnersFirst known (os.flatMap f) := by
  induction os generalizing known with
  | nil => trivial
  | cons o os ih =>
    rw [flatMap_cons, ownersFirst_append]
    refine ⟨h o mem_cons_self known (List.Subset.refl _), ih fun o' ho' known' hsub => ?_⟩
    exact h o' (mem_cons_of_mem _ ho') known'
      (List.Subset.trans (subset_append_left _ _) hsub)

theorem ownersFirst_placesAt (t : Tree) (h : π.Known known) :
    OwnersFirst known (t.placesAt (fun _ => false) π) := by
  induction t using Tree.occurrence_induction generalizing known π with
  | h t ih =>
    cases ht : t.isNode with
    | false =>
      rw [Tree.placesAt_of_not_node ht]
      trivial
    | true =>
      rw [Tree.placesAt_of_isNode ht]
      refine ⟨h, ownersFirst_flatMap fun o ho known' hsub => ih o ho ⟨hsub (by simp [Occurrence.step]), ?_⟩⟩
      exact h.mono (List.Subset.trans (subset_append_left _ _) hsub)

/-- **Pre-order.** Every place of a tree is listed after the nodes around it. -/
theorem Tree.ownersFirst_places (t : Tree) : OwnersFirst [] t.places :=
  ownersFirst_placesAt t (π := []) trivial

end ArrowFree
