import ArrowFree.Tree.Place

/-!
# Visiting a tree

A visit calls `enter` at each place before the children and `leave` after them. A decision may put
a new node into the slot, which is then not visited, may leave out the children, and may end the
whole visit; what was replaced before the end stays replaced.
-/

namespace ArrowFree

inductive Action where
  | proceed
  | skip
  | stop
deriving DecidableEq, Repr

structure Decision where
  replacement : Option Tree := none
  action : Action := .proceed

namespace Tree

variable {m : Type → Type} [Monad m]

/-- The node after its children were visited, and whether the visit ends here. -/
def finish (leave : Place → m Decision) (p : Place) (t : Tree) : m (Tree × Bool) := do
  let d ← leave p
  return (d.replacement.getD t, d.action = .stop)

mutual

def visitAt (enter leave : Place → m Decision) (path : Path) : Tree → m (Tree × Bool)
  | .node i s slots => do
    let p : Place := ⟨.node i s slots, path⟩
    let d ← enter p
    match d.action, d.replacement with
    | .stop, r => return (r.getD p.node, true)
    | _, some r => return (r, false)
    | .skip, none => finish leave p p.node
    | .proceed, none =>
      let (slots, stopped) ← visitSlots enter leave p.node path s.fields slots
      if stopped then return (.node i s slots, true)
      else finish leave p (.node i s slots)
  | t => return (t, false)

def visitSlots (enter leave : Place → m Decision) (owner : Tree) (path : Path) :
    List Field → List Tree → m (List Tree × Bool)
  | f :: fs, .list items :: ts => do
    let (items, stopped) ←
      if f.child then visitItems enter leave owner path f.name 0 items else pure (items, false)
    if stopped then return (.list items :: ts, true)
    let (ts, stopped) ← visitSlots enter leave owner path fs ts
    return (.list items :: ts, stopped)
  | f :: fs, t :: ts => do
    let (t, stopped) ←
      if f.child then visitAt enter leave (⟨owner, f.name, none⟩ :: path) t else pure (t, false)
    if stopped then return (t :: ts, true)
    let (ts, stopped) ← visitSlots enter leave owner path fs ts
    return (t :: ts, stopped)
  | _, ts => return (ts, false)

def visitItems (enter leave : Place → m Decision) (owner : Tree) (path : Path) (field : Text) :
    Nat → List Tree → m (List Tree × Bool)
  | _, [] => return ([], false)
  | n, t :: ts => do
    let (t, stopped) ← visitAt enter leave (⟨owner, field, some n⟩ :: path) t
    if stopped then return (t :: ts, true)
    let (ts, stopped) ← visitItems enter leave owner path field (n + 1) ts
    return (t :: ts, stopped)

end

/-- The tree as the visit leaves it. -/
def visit (enter leave : Place → m Decision) (t : Tree) : m Tree :=
  Prod.fst <$> t.visitAt enter leave []

/-! ## Iterating over nodes -/

/-- The children among some occurrences in front of a stack: the first of them comes to the top. -/
def pushed (os : List Occurrence) (stack : List Tree) : List Tree :=
  (os.filter fun o => o.tree.isNode).map (·.tree) ++ stack

theorem pushed_append (os os' : List Occurrence) (stack : List Tree) :
    pushed (os ++ os') stack = pushed os (pushed os' stack) := by
  simp [pushed]

theorem sizeOf_pushed_items (field : Text) (n : Nat) (ts stack : List Tree) :
    sizeOf (pushed (itemsFrom field n ts) stack) < sizeOf ts + sizeOf stack := by
  induction ts generalizing n with
  | nil => simp [itemsFrom, pushed]
  | cons t ts ih =>
    have := ih (n + 1)
    unfold pushed at this ⊢
    cases ht : t.isNode <;> simp [itemsFrom, ht] <;> omega

theorem sizeOf_pushed_field (f : Field) (t : Tree) (stack : List Tree) :
    sizeOf (pushed (occurrencesOf f t) stack) ≤ 1 + sizeOf t + sizeOf stack := by
  unfold occurrencesOf
  split
  · split
    · rename_i items
      have := sizeOf_pushed_items f.name 0 items stack
      simp only [list.sizeOf_spec]
      omega
    · unfold pushed
      cases ht : t.isNode <;> simp [ht]
  · simp [pushed]

theorem sizeOf_pushed_slots (fs : List Field) (ts stack : List Tree) :
    sizeOf (pushed (occurrencesIn fs ts) stack) < sizeOf ts + sizeOf stack := by
  fun_induction occurrencesIn fs ts with
  | case1 f fs t ts ih =>
    have := sizeOf_pushed_field f t (pushed (occurrencesIn fs ts) stack)
    rw [pushed_append, List.cons.sizeOf_spec]
    omega
  | case2 fs ts =>
    have : 0 < sizeOf ts := by
      cases ts <;> simp only [List.nil.sizeOf_spec, List.cons.sizeOf_spec] <;> omega
    simp only [pushed, List.filter_nil, List.map_nil, List.nil_append]
    omega

theorem sizeOf_pushed (t : Tree) (stack : List Tree) : sizeOf (pushed t.occurrences stack) < sizeOf (t :: stack) := by
  cases t with
  | node i s slots =>
    have := sizeOf_pushed_slots s.fields slots stack
    simp only [occurrences, List.cons.sizeOf_spec, node.sizeOf_spec]
    omega
  | scalar | list | object =>
    simp only [occurrences, pushed, List.filter_nil, List.map_nil, List.nil_append, List.cons.sizeOf_spec]
    omega

/-- The nodes that a loop over a stack comes to. It takes the node on top, and puts the children of the node there
unless the node is to be skipped. -/
def nodesFrom (skip : Tree → Bool) : (stack : List Tree) → List Tree
  | [] => []
  | t :: stack => t :: nodesFrom skip (if skip t then stack else pushed t.occurrences stack)
termination_by stack => sizeOf stack
decreasing_by
  split
  · simp only [List.cons.sizeOf_spec]
    omega
  · exact sizeOf_pushed t stack

/-- Every node of the tree in pre-order; those below a node to be skipped are left out. -/
def nodesSkipping (skip : Tree → Bool) (t : Tree) : List Tree := nodesFrom skip [t]

end Tree

end ArrowFree
