import ArrowFree.Proofs.Assembly
import ArrowFree.Proofs.Compiled
import ArrowFree.Proofs.Numbering

/-!
# Trees with other identities and locations

`Tree.mapInfo` changes what is told of the nodes of a tree at any depth and leaves the rest alone.
Numbering commutes with a change of the locations (`numbered_mapInfo`) and changes nothing but
identities (`unnumbered_numbered`); in a proper tree it reaches every node
(`Formed.numbered_unnumbered`).
-/

namespace ArrowFree

open List

variable {slots : List Tree}

namespace Tree

mutual

/-- The infos of all nodes at any depth. -/
def infos : Tree → List Info
  | .node i _ slots => i :: infosOfItems slots
  | .list items => infosOfItems items
  | _ => []

def infosOfItems : List Tree → List Info
  | [] => []
  | t :: ts => infos t ++ infosOfItems ts

end

/-- The tree without locations. -/
def withoutLocations (t : Tree) : Tree := t.mapInfo fun i => { i with location := none }

/-- The tree with nothing said about offsets. -/
def withoutOffsets (t : Tree) : Tree :=
  t.mapInfo fun i => { i with location := i.location.map fun l => { l with start := 0, stop := 0 } }

/-- The tree before its nodes are numbered. -/
def unnumbered (t : Tree) : Tree := t.mapInfo fun i => { i with id := .unset }

section

variable {f g : Info → Info}

theorem infosOfItems_eq_flatMap (ts : List Tree) : infosOfItems ts = ts.flatMap infos := by
  induction ts with
  | nil => rfl
  | cons t ts ih => rw [infosOfItems, ih, flatMap_cons]

theorem mapInfo_mapInfo (t : Tree) : (t.mapInfo f).mapInfo g = t.mapInfo (g ∘ f) := by
  induction t using part_induction with
  | scalar s => rfl
  | object fields => rfl
  | list items ih => simpa using ih
  | node i s slots ih => simpa using ih

theorem mapInfo_congr {t : Tree} (h : ∀ i ∈ t.infos, f i = g i) : t.mapInfo f = t.mapInfo g := by
  induction t using part_induction with
  | scalar s => rfl
  | object fields => rfl
  | list items ih =>
    rw [infos, infosOfItems_eq_flatMap] at h
    simpa using fun t ht => ih t ht fun i hi => h i (mem_flatMap.mpr ⟨t, ht, hi⟩)
  | node i s slots ih =>
    rw [infos, infosOfItems_eq_flatMap] at h
    obtain ⟨hi, h⟩ := forall_mem_cons.mp h
    simpa [hi] using fun t ht => ih t ht fun i hi => h i (mem_flatMap.mpr ⟨t, ht, hi⟩)

theorem contentsIn_mapInfo (fs : List Field)
    (h : ∀ t ∈ slots, (t.mapInfo f).contents = t.contents.map (mapInfo f)) :
    contentsIn fs (slots.map (mapInfo f)) = (contentsIn fs slots).map (mapInfo f) := by
  induction fs generalizing slots with
  | nil => rfl
  | cons field fs ih =>
    cases slots with
    | nil => simp
    | cons t slots =>
      obtain ⟨ht, hslots⟩ := forall_mem_cons.mp h
      rw [map_cons, contentsIn_cons, contentsIn_cons, map_append, ih hslots, ht]
      split <;> rfl

theorem contents_mapInfo (t : Tree) : (t.mapInfo f).nodes = t.nodes.map (mapInfo f) ∧
    (t.mapInfo f).contents = t.contents.map (mapInfo f) := by
  induction t using part_induction with
  | scalar _ | object _ => exact ⟨rfl, rfl⟩
  | list items ih =>
    refine ⟨rfl, ?_⟩
    rw [mapInfo_list, contents_list, contents_list, flatMap_map, map_flatMap]
    exact flatMap_congr fun t ht => (ih t ht).1
  | node i s slots ih =>
    have hslots := contentsIn_mapInfo s.fields fun t ht => (ih t ht).2
    constructor <;> simp [hslots]

theorem nodes_mapInfo (t : Tree) : (t.mapInfo f).nodes = t.nodes.map (mapInfo f) := (contents_mapInfo t).1

end

/-! ## Numbering -/

section

variable {f : Info → Info} (hf : ∀ i k, { f i with id := k } = f { i with id := k })
include hf

/-- Numbering commutes with a change that is not about identities. -/
theorem number_mapInfo (t : Tree) : NumberedAlike (mapInfo f) (mapInfo f) t ∧
    ∀ x, SlotNumberedAlike (mapInfo f) (mapInfo f) x t := by
  induction t using part_induction with
  | scalar _ | object _ =>
    refine ⟨fun n => by simp [numberFrom], fun x n => ?_⟩
    cases hx : x.child <;> simp [numberSlot, hx, numberFrom]
  | list items ih =>
    have hitems := numberItems_map fun t ht => (ih t ht).1
    refine ⟨fun n => by simp [numberFrom], fun x n => ?_⟩
    cases hx : x.child <;> simp [numberSlot, hx, hitems]
  | node i s slots ih =>
    have hslots := numberSlots_map (fun x t (hxt : (x, t) ∈ s.fields.zip slots) =>
      (ih t (of_mem_zip hxt).2).2 x) fun _ _ => rfl
    have hnode : NumberedAlike (mapInfo f) (mapInfo f) (.node i s slots) := fun n => by
      simp only [mapInfo_node, numberFrom, hslots, hf]
    refine ⟨hnode, fun x n => ?_⟩
    have hnumbered := hnode n
    rw [mapInfo_node] at hnumbered
    cases hx : x.child <;> simp [numberSlot, hx, hnumbered]

theorem numbered_mapInfo (t : Tree) : (t.mapInfo f).numbered = t.numbered.mapInfo f := by
  rw [numbered, (number_mapInfo hf t).1 0]
  rfl

end

theorem unnumbered_numbered (t : Tree) : t.numbered.unnumbered = t.unnumbered :=
  mapInfo_numberFrom (fun _ _ => rfl) t 0

end Tree

/-! ## Proper trees -/

/-- What a slot of a proper node holds: attributes are scalars, and children have a property, alone or as
the items of a list. -/
inductive Slot (P : Tree → Prop) (f : Field) : Tree → Prop where
  | scalar (x : Scalar) : Slot P f (.scalar x)
  | node {i : Info} {s : Shape} {slots : List Tree} : f.child = true → P (.node i s slots) →
      Slot P f (.node i s slots)
  | list {us : List Tree} : f.child = true → (∀ u ∈ us, P u) → Slot P f (.list us)

namespace Formed

open ArrowFree.Tree

variable {K : Kind → Prop} {p : Part} {t : Tree}

/-- A proper node has the slots of its kind, and nodes stand in child fields only. -/
theorem attributes (h : Formed K p t) {i : Info} {k : Kind} (ht : t = .node i (.known k) slots) :
    List.Forall₂ (fun f u => f.child = false → ∃ x, u = .scalar x) k.layout slots := by
  induction h with
  | absent => cases ht
  | present _ ih | wordKey _ ih | identifier _ ih | target _ _ ih | blockStatement _ ih
  | declarationStatement _ ih | initialDeclaration _ ih | initialExpression _ ih | iteratedTarget _ ih => exact ih ht
  | _ =>
    cases ht
    simp [Kind.layout, Field.sub, Field.subOrNull, Field.subs, Field.attr, Field.attrOr, Tree.text,
      Tree.bool]

/-- Induction over a proper tree along the slots of its nodes. -/
theorem slot_induction {P : Tree → Prop} (scalar : ∀ x, P (.scalar x))
    (node : ∀ i k slots, List.Forall₂ (Slot P) k.layout slots → P (.node i (.known k) slots)) {p : Part}
    (h : Formed K p t) : P t := by
  refine h.held_induction scalar fun p i k slots h hheld => node i k slots ?_
  have hin : ∀ u ∈ slots, ∀ f : Field, (f.child = false → ∃ x, u = .scalar x) → Slot P f u := by
    intro u hu f hf
    cases hc : f.child with
    | false =>
      obtain ⟨x, rfl⟩ := hf hc
      exact .scalar x
    | true =>
      cases hheld u hu with
      | scalar x => exact .scalar x
      | node h => exact .node hc h
      | list h => exact .list hc h
  have hboth := (forall₂_and_left _ _).mpr ⟨hin, (h.attributes rfl).flip⟩
  exact hboth.flip.imp fun f u hfu => hfu.1 f hfu.2

/-- Numbering reaches every node of a proper tree, so that the identities before do not matter. -/
theorem numbered_unnumbered (h : Formed K p t) : t.unnumbered.numbered = t.numbered := by
  have halike : NumberedAlike (mapInfo fun i => { i with id := .unset }) id t := by
    refine slot_induction (fun x n => rfl) (fun i k slots hslots n => ?_) h
    have hslot {f : Info → Info} {x : Field} {u : Tree} (h : Slot (NumberedAlike (mapInfo f) id) x u) :
        SlotNumberedAlike (mapInfo f) id x u := by
      intro n
      cases h with
      | scalar x => rfl
      | node hc hu => simpa only [numberSlot, hc, if_true, mapInfo_node] using hu n
      | list hc hus => simp [numberSlot, hc, numberItems_map hus]
    obtain ⟨hlength, hzip⟩ := forall₂_iff_zip.mp hslots
    have hnumbered := numberSlots_map (fun x u hxu => hslot (hzip hxu)) (by simp [hlength]) (n + 1)
    simp [numberFrom, Shape.fields, hnumbered]
  exact congrArg Prod.fst (halike 0)

end Formed

end ArrowFree
