import ArrowFree.Proofs.CounterpartAdditions

/-!
# Frames

The frame of a node is all that it is but for the nodes within it: its kind, its place in the source, its
attributes, and for each child field how many nodes stand there. Lowering keeps the frame of a node that stays,
unless the node is an identifier with a new name or a property that loses its short form (`frameAfter`).
-/

namespace ArrowFree

open ArrowFree.Tree Lowering List

variable {fs : List Field}

/-- Whether lowering made the node of this identity. -/
def NodeId.isMade : NodeId → Bool
  | .made .. => true
  | _ => false

/-! ## Frames -/

namespace Tree

/-- What is put in the place of a node. -/
def hole : Tree := .node {} (.other .null []) []

/-- A declaration that lowering has put into a list of statements. -/
def isInserted (t : Tree) : Bool :=
  match t.id with
  | .made .declarationOf _ => true
  | _ => false

def hollowItem (t : Tree) : Tree := if t.isNode then hole else t

/-- What stands in a child field, without the nodes that a traversal finds there. -/
def hollow : Tree → Tree
  | .list items => .list ((items.filter fun t => ! t.isInserted).map hollowItem)
  | t => t.hollowItem

def hollowSlots : List Field → List Tree → List Tree
  | f :: fs, t :: ts => (if f.child then t.hollow else t) :: hollowSlots fs ts
  | _, ts => ts

/-- The node with a hole for each node in it. Inserted declarations leave none. -/
def frame : Tree → Tree
  | .node i s slots => .node i s (hollowSlots s.fields slots)
  | t => t

theorem hollow_of_isNode {t : Tree} (h : t.isNode) : t.hollow = hole := by
  cases t with
  | node i s slots => rfl
  | _ => cases h

theorem hollowSlots_setSlot {name : Text} {ts : List Tree} {v w : Tree}
    (hchild : ∀ f ∈ fs, f.name = name → f.child) (h : slot? name fs ts = some v) (hsame : w.hollow = v.hollow) :
    hollowSlots fs (setSlot name w fs ts) = hollowSlots fs ts := by
  induction fs generalizing ts with
  | nil => cases h
  | cons f fs ih =>
    cases ts with
    | nil => cases h
    | cons t ts =>
      by_cases hf : f.name = name
      · rw [slot?, if_pos hf] at h
        obtain rfl := Option.some.inj h
        rw [setSlot, if_pos hf, hollowSlots, hollowSlots, if_pos (hchild f mem_cons_self hf),
          if_pos (hchild f mem_cons_self hf), hsame]
      · rw [slot?, if_neg hf] at h
        rw [setSlot, if_neg hf, hollowSlots, hollowSlots,
          ih (fun g hg => hchild g (mem_cons_of_mem _ hg)) h]

end Tree

namespace Lowering

variable {a : Analysis}
variable {t u : Tree} {ts us slots slots' : List Tree} {i : Info}

theorem hollow_insertStatement {d : Tree} (hd : d.isInserted) (ss : List Tree) :
    (Tree.list (insertStatement d ss)).hollow = (Tree.list ss).hollow := by
  have hfilter : (insertStatement d ss).filter (fun t => ! t.isInserted) =
      ss.filter fun t => ! t.isInserted := by
    rw [insertStatement, filter_append, filter_cons_of_neg (by simp [hd]), ← filter_append,
      takeWhile_append_dropWhile]
  rw [hollow, hollow, hfilter]

theorem not_isInserted (h : t.id.isMade = false) : t.isInserted = false := by
  unfold isInserted
  split
  · rename_i hid
    rw [hid] at h
    cases h
  · rfl

/-- What stands for a node of the tree was not inserted. -/
theorem isInserted_apply (h : apply a t = (u, none)) (ht : t.id.isMade = false) : u.isInserted = false := by
  cases lowers_of_apply h with
  | value => exact not_isInserted ht
  | renamed => rfl
  | kept => exact not_isInserted ht
  | arrow =>
    unfold standIn
    split <;> rfl
  | hoisted => exact not_isInserted ht

theorem hollowItem_apply (h : apply a t = (u, none)) : u.hollowItem = t.hollowItem := by
  unfold hollowItem
  cases ht : t.isNode with
  | true => rw [isNode_apply h, ht, if_pos rfl, if_pos rfl]
  | false =>
    rw [apply_of_not_node ht] at h
    rw [← (Prod.mk.inj h).1, ht]

theorem hollowItems_apply (h : applyItems a ts = (us, none)) (hids : ∀ t ∈ ts, t.id.isMade = false) :
    (us.filter fun t => ! t.isInserted).map hollowItem =
      (ts.filter fun t => ! t.isInserted).map hollowItem := by
  induction ts generalizing us with
  | nil =>
    obtain ⟨rfl, -⟩ := Prod.mk.inj h
    rfl
  | cons t ts ih =>
    obtain ⟨u, us, rfl, hu, hus⟩ := applyItems_cons_ok.mp h
    obtain ⟨ht, hts⟩ := forall_mem_cons.mp hids
    rw [filter_cons_of_pos (by simp [isInserted_apply hu ht]),
      filter_cons_of_pos (by simp [not_isInserted ht]), map_cons, map_cons, ih hus hts,
      hollowItem_apply hu]

theorem hollow_applySlot {f : Field} (hf : f.child) (h : applySlot a f t = (u, none))
    (hids : ∀ o ∈ occurrencesOf f t, o.tree.id.isMade = false) : u.hollow = t.hollow := by
  unfold occurrencesOf at hids
  unfold applySlot at h
  rw [if_pos hf] at h hids
  cases t with
  | list items =>
    obtain ⟨rfl, hnone⟩ := Prod.mk.inj h
    refine congrArg Tree.list (hollowItems_apply (Prod.ext rfl hnone) fun t ht => ?_)
    obtain ⟨k, hk⟩ := exists_mem_itemsFrom f.name 0 ht
    exact hids _ hk
  | node i s slots =>
    rw [hollow_of_isNode (isNode_apply h), hollow_of_isNode rfl]
  | scalar x => rw [← (Prod.mk.inj h).1]
  | object fields => rw [← (Prod.mk.inj h).1]

theorem hollowSlots_apply (h : applySlots a fs ts = (us, none))
    (hids : ∀ o ∈ occurrencesIn fs ts, o.tree.id.isMade = false) : hollowSlots fs us = hollowSlots fs ts := by
  induction fs generalizing ts us with
  | nil =>
    rw [applySlots_nil] at h
    rw [(Prod.mk.inj h).1]
  | cons f fs ih =>
    cases ts with
    | nil => rw [← (Prod.mk.inj h).1]
    | cons t ts =>
      obtain ⟨u, us, rfl, hu, hus⟩ := applySlots_cons_ok.mp h
      rw [occurrencesIn_cons] at hids
      rw [hollowSlots, hollowSlots, ih hus fun o ho => hids o (mem_append_right _ ho)]
      by_cases hf : f.child = true
      · rw [if_pos hf, if_pos hf, hollow_applySlot hf hu fun o ho => hids o (mem_append_left _ ho)]
      · unfold applySlot at hu
        rw [if_neg hf] at hu
        rw [if_neg hf, if_neg hf, (Prod.mk.inj hu).1]

/-! ## Frames after lowering -/

/-- A property in short form whose key or value gets a new name. -/
def writesOut (a : Analysis) : Tree → Bool
  | .node _ (.known .property) [key, value, _, short, _] =>
    short.truthy && (holdsRenamed a key || holdsRenamed a value)
  | _ => false

/-- The new name of an identifier that gets one. -/
def newName? (a : Analysis) (t : Tree) : Option Text :=
  if t.is .identifier then a.replacement? t.id else none

/-- What the frame of a node becomes. An identifier may get a new name, and a property may lose its short
form. -/
def frameAfter (a : Analysis) (t : Tree) : Tree :=
  match newName? a t with
  | some name => .node ⟨.renamed t.id, t.location⟩ (.known .identifier) [.text name]
  | none => if writesOut a t then t.frame.set "shorthand" (.bool false) else t.frame

theorem newName?_of_rename? (h : rename? a t = none) : newName? a t = none := by
  unfold newName?
  split
  · rename_i hid
    obtain ⟨i, slots, rfl⟩ := is_iff.mp hid
    exact Option.map_eq_none_iff.mp h
  · rfl

theorem newName?_of_not_identifier (h : t.is .identifier = false) : newName? a t = none := by
  unfold newName?
  rw [h]
  rfl

theorem frameAfter_of_not_property (hname : newName? a t = none) (h : t.is .property = false) :
    frameAfter a t = t.frame := by
  have hout : writesOut a t = false := by
    unfold writesOut
    split
    · cases h
    · rfl
  unfold frameAfter
  rw [hname, hout]
  rfl

theorem length_applySlots (h : applySlots a fs ts = (us, none)) : us.length = ts.length := by
  induction fs generalizing ts us with
  | nil =>
    rw [applySlots_nil] at h
    rw [(Prod.mk.inj h).1]
  | cons f fs ih =>
    cases ts with
    | nil => rw [← (Prod.mk.inj h).1]
    | cons t ts =>
      obtain ⟨u, us, rfl, -, hus⟩ := applySlots_cons_ok.mp h
      rw [length_cons, length_cons, ih hus]

theorem frame_writeOut (hslots : applySlots a Kind.property.layout slots = (slots', none))
    (hhollow : hollowSlots Kind.property.layout slots' = hollowSlots Kind.property.layout slots) :
    (Tree.node i (.known .property) (writeOut a .property slots slots')).frame =
      if writesOut a (.node i (.known .property) slots) then
        (Tree.node i (.known .property) slots).frame.set "shorthand" (.bool false)
      else (Tree.node i (.known .property) slots).frame := by
  have hframe : (Tree.node i (.known .property) slots').frame = (Tree.node i (.known .property) slots).frame :=
    congrArg (Tree.node i _) hhollow
  -- only a property with all its fields is written out
  by_cases hlength : slots.length = 5
  · match slots, hlength with
    | [key, value, computed, short, kind], _ =>
      obtain ⟨key', _, rfl, -, h⟩ := applySlots_cons_ok.mp hslots
      obtain ⟨value', _, rfl, -, h⟩ := applySlots_cons_ok.mp h
      obtain ⟨computed', _, rfl, hcomputed, h⟩ := applySlots_cons_ok.mp h
      obtain ⟨short', _, rfl, hshort, h⟩ := applySlots_cons_ok.mp h
      obtain ⟨kind', _, rfl, hkind, h⟩ := applySlots_cons_ok.mp h
      obtain ⟨rfl, -⟩ := Prod.mk.inj h
      obtain ⟨rfl, -⟩ := Prod.mk.inj hshort
      have hsame : writesOut a (.node i (.known .property) [key, value, computed, short, kind]) =
          (short.truthy && ([key, value, computed, short, kind].take 2).any (holdsRenamed a)) := by
        simp [writesOut]
      rw [← hframe, hsame, writeOut]
      split
      · rfl
      · rfl
  · have hout : writesOut a (.node i (.known .property) slots) = false := by
      unfold writesOut
      split
      · rename_i heq
        obtain ⟨-, -, rfl⟩ := Tree.node.inj heq
        exact absurd rfl hlength
      · rfl
    have hwritten : writeOut a .property slots slots' = slots' := by
      unfold writeOut
      split
      · exact absurd (length_applySlots hslots).symm hlength
      · rfl
    rw [hout, hwritten, hframe]
    rfl

theorem frame_kept {s : Shape} (hname : rename? a (.node i s slots) = none)
    (hslots : applySlots a s.fields slots = (slots', none))
    (hids : ∀ o ∈ (Tree.node i s slots).occurrences, o.tree.id.isMade = false) :
    (Tree.node i s (written a s slots slots')).frame = frameAfter a (.node i s slots) := by
  have hhollow := hollowSlots_apply hslots hids
  unfold frameAfter
  rw [newName?_of_rename? hname]
  by_cases hproperty : s = .known .property
  · subst hproperty
    exact frame_writeOut hslots hhollow
  · have hwritten : written a s slots slots' = slots' := by
      cases s with
      | known k => exact written_of_ne (fun hk => hproperty (congrArg _ hk)) _ _
      | other => rfl
    have hout : writesOut a (.node i s slots) = false := by
      unfold writesOut
      split
      · rename_i heq
        exact absurd (Tree.node.inj heq).2.1 hproperty
      · rfl
    rw [hwritten, hout]
    exact congrArg (Tree.node i s) hhollow

end Lowering

end ArrowFree
