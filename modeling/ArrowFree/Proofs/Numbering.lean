import ArrowFree.Proofs.Places
import Mathlib.Data.List.Nodup

/-!
# Numbered trees

Numbering gives the nodes of a tree consecutive numbers in pre-order (`ids_numberFrom`). In a numbered
tree a node is found by its identity, and no identity is one that lowering makes.
-/

namespace ArrowFree.Tree

open List

variable {n : Nat} {ids : List NodeId} {ts : List Tree} {t : Tree} {fs : List Field}
  {f : Info → Info}

/-- The numbers that a tree was given, from `n` up to the next free one. -/
def NumberedFrom (n : Nat) (ids : List NodeId) (next : Nat) : Prop :=
  n ≤ next ∧ ids = (List.range' n (next - n)).map .numbered

theorem NumberedFrom.nil (n : Nat) : NumberedFrom n [] n := ⟨Nat.le_refl n, by simp⟩

theorem NumberedFrom.append {l m : Nat} {ids' : List NodeId} (h : NumberedFrom l ids m)
    (h' : NumberedFrom m ids' n) : NumberedFrom l (ids ++ ids') n := by
  obtain ⟨hlm, rfl⟩ := h
  obtain ⟨hmn, rfl⟩ := h'
  refine ⟨Nat.le_trans hlm hmn, ?_⟩
  rw [← map_append]
  have hsplit := range'_append_1 (s := l) (m := m - l) (n := n - m)
  rw [Nat.add_sub_cancel' hlm] at hsplit
  rw [hsplit]
  congr 2
  omega

theorem NumberedFrom.cons {next : Nat} (h : NumberedFrom (n + 1) ids next) :
    NumberedFrom n (.numbered n :: ids) next := by
  have hone : NumberedFrom n [.numbered n] (n + 1) := ⟨by omega, by simp⟩
  exact hone.append h

/-- The identities of all nodes in some occurrences. -/
def idsIn (os : List Occurrence) : List NodeId := os.flatMap fun o => o.tree.nodes.map id

theorem idsIn_append (os os' : List Occurrence) : idsIn (os ++ os') = idsIn os ++ idsIn os' :=
  flatMap_append

theorem numbered_items {field : Text} {k : Nat}
    (ih : ∀ t ∈ ts, ∀ n, NumberedFrom n ((t.numberFrom n).1.nodes.map id) (t.numberFrom n).2) :
    NumberedFrom n (idsIn (itemsFrom field k (numberItems n ts).1)) (numberItems n ts).2 := by
  induction ts generalizing n k with
  | nil => exact .nil n
  | cons t ts ihs =>
    have hhead := ih t mem_cons_self n
    have htail := ihs (k := k + 1) (n := (t.numberFrom n).2) fun u hu => ih u (mem_cons_of_mem _ hu)
    exact hhead.append htail

/-- The numbering of one slot. -/
def numberSlot (n : Nat) (f : Field) (t : Tree) : Tree × Nat :=
  if f.child then
    match t with
    | .list items => (.list (numberItems n items).1, (numberItems n items).2)
    | t => t.numberFrom n
  else (t, n)

theorem numberSlots_cons (n : Nat) (f : Field) (fs : List Field) (t : Tree) (ts : List Tree) :
    numberSlots n (f :: fs) (t :: ts) =
      ((numberSlot n f t).1 :: (numberSlots (numberSlot n f t).2 fs ts).1,
        (numberSlots (numberSlot n f t).2 fs ts).2) := by
  unfold numberSlot
  cases t <;> by_cases hf : f.child = true <;> simp [numberSlots, hf]

theorem isNode_numberFrom (t : Tree) (n : Nat) : (t.numberFrom n).1.isNode = t.isNode := by
  cases t <;> simp [numberFrom, isNode]

theorem numberFrom_of_not_node (h : t.isNode = false) (n : Nat) : t.numberFrom n = (t, n) := by
  cases t with
  | node i s slots => cases h
  | scalar s => simp [numberFrom]
  | list items => simp [numberFrom]
  | object fields => simp [numberFrom]

theorem numbered_slot {f : Field}
    (ih : ∀ o ∈ occurrencesOf f t, ∀ n, NumberedFrom n ((o.tree.numberFrom n).1.nodes.map id) (o.tree.numberFrom n).2) :
    NumberedFrom n (idsIn (occurrencesOf f (numberSlot n f t).1)) (numberSlot n f t).2 := by
  unfold numberSlot
  by_cases hf : f.child = true
  · rw [if_pos hf]
    rcases t.eq_node_or_not_node with ⟨i, s, slots, rfl⟩ | ht
    · have hnode : ((node i s slots).numberFrom n).1.isNode := isNode_numberFrom _ n
      rw [occurrencesOf_of_isNode hf hnode, idsIn, flatMap_singleton]
      rw [occurrencesOf_of_isNode hf rfl] at ih
      exact ih _ mem_cons_self n
    · cases t with
      | node i s slots => cases ht
      | list items =>
        unfold occurrencesOf at ih ⊢
        rw [if_pos hf] at ih ⊢
        refine numbered_items ?_
        intro t ht
        obtain ⟨k, hk⟩ := exists_mem_itemsFrom f.name 0 ht
        exact ih _ hk
      | scalar x =>
        have hids : idsIn (occurrencesOf f (.scalar x)) = [] := by
          simp [occurrencesOf, hf, idsIn, nodes_of_not_node (t := .scalar x) rfl]
        simp only [numberFrom, hids]
        exact .nil n
      | object fields =>
        have hids : idsIn (occurrencesOf f (.object fields)) = [] := by
          simp [occurrencesOf, hf, idsIn, nodes_of_not_node (t := .object fields) rfl]
        simp only [numberFrom, hids]
        exact .nil n
  · rw [if_neg hf]
    have hids : idsIn (occurrencesOf f t) = [] := by simp [occurrencesOf, hf, idsIn]
    rw [hids]
    exact .nil n

theorem numbered_slots
    (ih : ∀ o ∈ occurrencesIn fs ts, ∀ n,
      NumberedFrom n ((o.tree.numberFrom n).1.nodes.map id) (o.tree.numberFrom n).2) :
    NumberedFrom n (idsIn (occurrencesIn fs (numberSlots n fs ts).1)) (numberSlots n fs ts).2 := by
  induction fs generalizing n ts with
  | nil => cases ts <;> exact .nil n
  | cons f fs ihs =>
    cases ts with
    | nil => exact .nil n
    | cons t ts =>
      rw [occurrencesIn_cons] at ih
      rw [numberSlots_cons, occurrencesIn_cons, idsIn_append]
      exact (numbered_slot fun o ho => ih o (mem_append_left _ ho)).append
        (ihs fun o ho => ih o (mem_append_right _ ho))

theorem ids_numberFrom (t : Tree) (n : Nat) :
    NumberedFrom n ((t.numberFrom n).1.nodes.map id) (t.numberFrom n).2 := by
  induction t using occurrence_induction generalizing n with
  | h t ih =>
    rcases t.eq_node_or_not_node with ⟨i, s, slots, rfl⟩ | ht
    · rw [numberFrom, nodes_node, map_cons, map_flatMap]
      exact (numbered_slots ih).cons
    · rw [numberFrom_of_not_node ht, nodes_of_not_node ht]
      exact .nil n

/-! ## Trees with other infos -/

mutual

/-- The tree with another info at each of its nodes, those in attributes and nested lists included. -/
def mapInfo (f : Info → Info) : Tree → Tree
  | .node i s slots => .node (f i) s (mapInfoItems f slots)
  | .list items => .list (mapInfoItems f items)
  | t => t

def mapInfoItems (f : Info → Info) : List Tree → List Tree
  | [] => []
  | t :: ts => mapInfo f t :: mapInfoItems f ts

end

section

variable {f : Info → Info}

theorem mapInfoItems_eq_map (ts : List Tree) : mapInfoItems f ts = ts.map (mapInfo f) := by
  induction ts with
  | nil => rfl
  | cons t ts ih => rw [mapInfoItems, ih, map_cons]

@[simp] theorem mapInfo_node (i : Info) (s : Shape) (slots : List Tree) :
    (node i s slots).mapInfo f = node (f i) s (slots.map (mapInfo f)) := by
  rw [mapInfo, mapInfoItems_eq_map]

@[simp] theorem mapInfo_list (items : List Tree) :
    (list items).mapInfo f = list (items.map (mapInfo f)) := by
  rw [mapInfo, mapInfoItems_eq_map]

@[simp] theorem mapInfo_scalar (s : Scalar) : (scalar s).mapInfo f = scalar s := rfl

@[simp] theorem mapInfo_object (fields : List (Text × Document)) :
    (object fields).mapInfo f = object fields := rfl

end

/-- Induction over the trees in all slots and lists, whether or not a traversal enters them. -/
theorem part_induction {P : Tree → Prop} (scalar : ∀ s, P (.scalar s))
    (object : ∀ fields, P (.object fields)) (list : ∀ items, (∀ t ∈ items, P t) → P (.list items))
    (node : ∀ i s slots, (∀ t ∈ slots, P t) → P (.node i s slots)) (t : Tree) : P t :=
  match t with
  | .scalar s => scalar s
  | .object fields => object fields
  | .list items => list items fun t _ => part_induction scalar object list node t
  | .node i s slots => node i s slots fun t _ => part_induction scalar object list node t

/-- Numbering changes nothing but identities. -/
theorem mapInfo_number (hf : ∀ i k, f { i with id := k } = f i) (t : Tree) :
    (∀ n, (t.numberFrom n).1.mapInfo f = t.mapInfo f) ∧
      ∀ x n, (numberSlot n x t).1.mapInfo f = t.mapInfo f := by
  induction t using part_induction with
  | scalar _ | object _ =>
    refine ⟨fun n => by simp [numberFrom], fun x n => ?_⟩
    cases hx : x.child <;> simp [numberSlot, hx, numberFrom]
  | list items ih =>
    have hitems (n : Nat) : (numberItems n items).1.map (mapInfo f) = items.map (mapInfo f) := by
      induction items generalizing n with
      | nil => rfl
      | cons t ts ihs =>
        obtain ⟨ht, hts⟩ := forall_mem_cons.mp ih
        rw [numberItems, map_cons, map_cons, ht.1, ihs hts]
    refine ⟨fun n => by simp [numberFrom], fun x n => ?_⟩
    cases hx : x.child <;> simp [numberSlot, hx, hitems]
  | node i s slots ih =>
    have hslots (fs : List Field) (n : Nat) :
        (numberSlots n fs slots).1.map (mapInfo f) = slots.map (mapInfo f) := by
      induction slots generalizing fs n with
      | nil => cases fs <;> simp [numberSlots]
      | cons t ts ihs =>
        obtain ⟨ht, hts⟩ := forall_mem_cons.mp ih
        cases fs with
        | nil => simp [numberSlots]
        | cons x fs => rw [numberSlots_cons, map_cons, map_cons, ht.2, ihs hts]
    have hnode (n : Nat) : ((node i s slots).numberFrom n).1.mapInfo f = (node i s slots).mapInfo f := by
      simp [numberFrom, hslots, hf]
    refine ⟨hnode, fun x n => ?_⟩
    have hnumbered := hnode n
    rw [mapInfo_node] at hnumbered
    cases hx : x.child <;> simp [numberSlot, hx, hnumbered]

theorem mapInfo_numberFrom (hf : ∀ i k, f { i with id := k } = f i) (t : Tree) (n : Nat) :
    (t.numberFrom n).1.mapInfo f = t.mapInfo f :=
  (mapInfo_number hf t).1 n

/-! ## Numbering and a change of every node -/

section

variable {φ ψ : Tree → Tree}

/-- What becomes of the tree is numbered as the tree is. -/
def NumberedAlike (φ ψ : Tree → Tree) (t : Tree) : Prop :=
  ∀ n, (φ t).numberFrom n = (ψ (t.numberFrom n).1, (t.numberFrom n).2)

def SlotNumberedAlike (φ ψ : Tree → Tree) (x : Field) (t : Tree) : Prop :=
  ∀ n, numberSlot n x (φ t) = (ψ (numberSlot n x t).1, (numberSlot n x t).2)

theorem numberItems_map (h : ∀ t ∈ ts, NumberedAlike φ ψ t) (n : Nat) :
    numberItems n (ts.map φ) = ((numberItems n ts).1.map ψ, (numberItems n ts).2) := by
  induction ts generalizing n with
  | nil => rfl
  | cons t ts ih =>
    obtain ⟨ht, hts⟩ := forall_mem_cons.mp h
    simp only [map_cons, numberItems, ht n, ih hts]

theorem numberSlots_map (h : ∀ x t, (x, t) ∈ fs.zip ts → SlotNumberedAlike φ ψ x t)
    (hrest : ∀ t ∈ ts.drop fs.length, φ t = ψ t) (n : Nat) :
    numberSlots n fs (ts.map φ) = ((numberSlots n fs ts).1.map ψ, (numberSlots n fs ts).2) := by
  induction fs generalizing ts n with
  | nil => simpa [numberSlots] using hrest
  | cons x fs ih =>
    cases ts with
    | nil => simp [numberSlots]
    | cons t ts =>
      rw [map_cons, numberSlots_cons, numberSlots_cons, h x t mem_cons_self n,
        ih (fun y u hyu => h y u (mem_cons_of_mem _ hyu)) hrest]
      rfl

end

/-! ## Identities in a numbered tree -/

theorem filter_eq_of_nodup_map {α β : Type} [DecidableEq β] {f : α → β} {l : List α} (h : (l.map f).Nodup)
    {x : α} (hx : x ∈ l) : l.filter (fun y => f y = f x) = [x] := by
  obtain ⟨ys, zs, rfl⟩ := append_of_mem hx
  rw [map_append, map_cons, nodup_append, nodup_cons] at h
  obtain ⟨-, ⟨hafter, -⟩, hbefore⟩ := h
  have hys : ys.filter (fun y => f y = f x) = [] :=
    filter_eq_nil_iff.mpr fun y hy => by
      simpa using hbefore (f y) (mem_map_of_mem hy) (f x) mem_cons_self
  have hzs : zs.filter (fun y => f y = f x) = [] :=
    filter_eq_nil_iff.mpr fun y hy heq => hafter (mem_map.mpr ⟨y, hy, of_decide_eq_true heq⟩)
  rw [filter_append, hys, filter_cons_of_pos (by simp), hzs]
  rfl

/-- No two nodes have the same identity, and no identity is one that lowering makes. -/
structure Distinct (t : Tree) : Prop where
  nodup : (t.nodes.map id).Nodup
  numbered : ∀ n ∈ t.nodes, ∃ k, n.id = .numbered k

theorem distinct_numbered (t : Tree) : t.numbered.Distinct where
  nodup := by
    rw [Tree.numbered, (ids_numberFrom t 0).2]
    exact List.Nodup.map (fun _ _ h => NodeId.numbered.inj h) nodup_range'
  numbered n hn := by
    have hmem : n.id ∈ t.numbered.nodes.map id := mem_map.mpr ⟨n, hn, rfl⟩
    rw [Tree.numbered, (ids_numberFrom t 0).2] at hmem
    obtain ⟨k, -, hk⟩ := mem_map.mp hmem
    exact ⟨k, hk.symm⟩

namespace Distinct

variable {t : Tree} (h : t.Distinct) {p : Place}
include h

theorem place_eq {q : Place} (hp : p ∈ t.places) (hq : q ∈ t.places) (hid : p.node.id = q.node.id) :
    p = q := by
  have hnodup : (t.places.map fun p => p.node.id).Nodup := by
    have := h.nodup
    rwa [nodes, map_map] at this
  exact inj_on_of_nodup_map hnodup hp hq hid

theorem subtree {n : Tree} (hn : n ∈ t.nodes) : n.Distinct :=
  ⟨h.nodup.sublist ((nodes_sublist hn).map id), fun m hm => h.numbered m (nodes_trans hn hm)⟩

theorem node_eq {m n : Tree} (hm : m ∈ t.nodes) (hn : n ∈ t.nodes) (hid : m.id = n.id) : m = n :=
  inj_on_of_nodup_map h.nodup hm hn hid

theorem find?_id {n : Tree} (hn : n ∈ t.nodes) : t.find? n.id = some n := by
  unfold find?
  cases hf : t.nodes.find? fun m => m.id = n.id with
  | none =>
    have := find?_eq_none.mp hf n hn
    simp at this
  | some m =>
    have hid : m.id = n.id := by simpa using find?_some hf
    rw [h.node_eq (mem_of_find?_eq_some hf) hn hid]

/-- No node around a place was made by the lowering. -/
theorem owner_not_made (hp : p ∈ t.places) {s : Step} (hs : s ∈ p.path) (role : Role) (origin : NodeId) :
    s.owner.id ≠ .made role origin := by
  obtain ⟨q, π, hpath⟩ := append_of_mem hs
  have hmem : ⟨s.owner, π⟩ ∈ t.places :=
    owner_mem_places (n := p.node) (q := q) (by rw [← hpath]; exact hp)
  obtain ⟨k, hk⟩ := h.numbered _ (node_mem_nodes hmem)
  rw [hk]
  nofun

end Distinct

end ArrowFree.Tree
