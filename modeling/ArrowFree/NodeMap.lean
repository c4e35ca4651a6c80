import ArrowFree.Tree

/-!
# Maps from nodes

A map whose entries stay in the order in which their keys were first set.
-/

namespace ArrowFree

structure NodeMap (α : Type) where
  entries : List (NodeId × α) := []
deriving Repr

namespace NodeMap

variable {α : Type}

/-- Sets the value of a key in place, or adds the key at the end. -/
def setEntry (id : NodeId) (v : α) : List (NodeId × α) → List (NodeId × α)
  | [] => [(id, v)]
  | (k, w) :: rest => if k = id then (k, v) :: rest else (k, w) :: setEntry id v rest

def set (m : NodeMap α) (id : NodeId) (v : α) : NodeMap α := ⟨setEntry id v m.entries⟩

def get? (m : NodeMap α) (id : NodeId) : Option α := m.entries.lookup id

def contains (m : NodeMap α) (id : NodeId) : Bool := (m.get? id).isSome

def size (m : NodeMap α) : Nat := m.entries.length

/-- One value for all of some keys. -/
def setAll (m : NodeMap α) (ids : List NodeId) (v : α) : NodeMap α :=
  ids.foldl (fun m id => m.set id v) m

theorem lookup_setEntry (id k : NodeId) (v : α) (es : List (NodeId × α)) :
    (setEntry id v es).lookup k = if k = id then some v else es.lookup k := by
  induction es with
  | nil =>
    by_cases h : k = id
    · simp [setEntry, h]
    · simp [setEntry, List.lookup_cons, h, beq_eq_false_iff_ne.mpr h]
  | cons e es ih =>
    obtain ⟨j, w⟩ := e
    by_cases hj : j = id
    · subst hj
      by_cases hk : k = j
      · simp [setEntry, hk]
      · simp [setEntry, List.lookup_cons, hk, beq_eq_false_iff_ne.mpr hk]
    · by_cases hk : k = j
      · subst hk
        simp [setEntry, hj]
      · simp [setEntry, hj, List.lookup_cons, ih, beq_eq_false_iff_ne.mpr hk]

theorem get?_set (m : NodeMap α) (id k : NodeId) (v : α) :
    (m.set id v).get? k = if k = id then some v else m.get? k := lookup_setEntry id k v m.entries

end NodeMap

end ArrowFree
