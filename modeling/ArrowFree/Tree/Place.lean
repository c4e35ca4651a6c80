import ArrowFree.Tree

/-!
# Places in a tree

A place is a node together with the way to it from the root. `Tree.places` lists the places of a
tree in pre-order: children stand in child fields, on their own or as items of a list, and lists
within lists are not entered.
-/

namespace ArrowFree

/-- The slot that a node occupies in its parent. -/
structure Step where
  owner : Tree
  field : Text
  index : Option Nat := none
deriving Repr

/-- The steps from a node up to the root, innermost first. -/
abbrev Path := List Step

structure Place where
  node : Tree
  path : Path := []
deriving Repr

namespace Place

def parent? (p : Place) : Option Tree := p.path.head?.map (·.owner)

def field? (p : Place) : Option Text := p.path.head?.map (·.field)

def index? (p : Place) : Option Nat := p.path.head?.bind (·.index)

/-- The nodes around a node, innermost first. -/
def ancestors (p : Place) : List Tree := p.path.map (·.owner)

/-- The place of the parent. -/
def up? (p : Place) : Option Place :=
  match p.path with
  | [] => none
  | s :: path => some ⟨s.owner, path⟩

/-- A node type that is no text is written as in a description. -/
def typeText (t : Tree) : Text :=
  match t.type? with
  | some (.text name) => name
  | some s => s.described
  | none => []

/-- The node type and the slot; the root has none. -/
def describe (p : Place) : Text :=
  let slot : Text :=
    match p.path with
    | [] => "None"
    | ⟨_, field, none⟩ :: _ => field
    | ⟨_, field, some i⟩ :: _ => field ++ "[" ++ Text.ofNat i ++ "]"
  "NodePath(" ++ typeText p.node ++ " at " ++ slot ++ ")"

end Place

/-- A value in a child field: on its own, or as an item of a list. -/
structure Occurrence where
  field : Text
  index : Option Nat
  tree : Tree

/-- The step from an occurrence to the node that it occurs in. -/
def Occurrence.step (o : Occurrence) (owner : Tree) : Step := ⟨owner, o.field, o.index⟩

namespace Tree

/-! ## Occurrences -/

/-- The items of a list from number `n` on. -/
def itemsFrom (field : Text) : Nat → List Tree → List Occurrence
  | _, [] => []
  | n, t :: ts => ⟨field, some n, t⟩ :: itemsFrom field (n + 1) ts

/-- What occurs in one field. -/
def occurrencesOf (f : Field) (t : Tree) : List Occurrence :=
  if f.child then
    match t with
    | .list items => itemsFrom f.name 0 items
    | t => [⟨f.name, none, t⟩]
  else []

def occurrencesIn : List Field → List Tree → List Occurrence
  | f :: fs, t :: ts => occurrencesOf f t ++ occurrencesIn fs ts
  | _, _ => []

/-- What occurs in a node; other values have no fields. -/
def occurrences : Tree → List Occurrence
  | .node _ s slots => occurrencesIn s.fields slots
  | _ => []

/-- The children of a node: what occurs in it and is a node itself. -/
def children (t : Tree) : List Occurrence := t.occurrences.filter fun o => o.tree.isNode

/-! ## Pre-order -/

mutual

/-- The places of a tree that stands at a path, in pre-order. The children of a node that is to be
skipped are left out. -/
def placesAt (skip : Tree → Bool) (path : Path) : Tree → List Place
  | .node i s slots =>
    ⟨.node i s slots, path⟩ ::
      if skip (.node i s slots) then []
      else placesInSlots skip (.node i s slots) path s.fields slots
  | _ => []

def placesInSlots (skip : Tree → Bool) (owner : Tree) (path : Path) :
    List Field → List Tree → List Place
  | f :: fs, .list items :: ts =>
    (if f.child then placesInItems skip owner path f.name 0 items else []) ++
      placesInSlots skip owner path fs ts
  | f :: fs, t :: ts =>
    (if f.child then placesAt skip (⟨owner, f.name, none⟩ :: path) t else []) ++
      placesInSlots skip owner path fs ts
  | _, _ => []

def placesInItems (skip : Tree → Bool) (owner : Tree) (path : Path) (field : Text) :
    Nat → List Tree → List Place
  | _, [] => []
  | n, t :: ts =>
    placesAt skip (⟨owner, field, some n⟩ :: path) t ++
      placesInItems skip owner path field (n + 1) ts

end

/-- Every place of the tree, in pre-order. -/
def places (t : Tree) : List Place := t.placesAt (fun _ => false) []

def nodes (t : Tree) : List Tree := t.places.map (·.node)

/-- The node of that identity. -/
def find? (t : Tree) (id : NodeId) : Option Tree := t.nodes.find? fun n => n.id = id

/-! ## Numbering -/

mutual

/-- The nodes are numbered in pre-order from `n` on; the next free number is returned too. -/
def numberFrom (n : Nat) : Tree → Tree × Nat
  | .node i s slots =>
    let (slots, next) := numberSlots (n + 1) s.fields slots
    (.node { i with id := .numbered n } s slots, next)
  | t => (t, n)

def numberSlots (n : Nat) : List Field → List Tree → List Tree × Nat
  | f :: fs, .list items :: ts =>
    let (items, n) := if f.child then numberItems n items else (items, n)
    let (ts, n) := numberSlots n fs ts
    (.list items :: ts, n)
  | f :: fs, t :: ts =>
    let (t, n) := if f.child then numberFrom n t else (t, n)
    let (ts, n) := numberSlots n fs ts
    (t :: ts, n)
  | _, ts => (ts, n)

def numberItems (n : Nat) : List Tree → List Tree × Nat
  | [] => ([], n)
  | t :: ts =>
    let (t, n) := numberFrom n t
    let (ts, n) := numberItems n ts
    (t :: ts, n)

end

/-- The tree with its nodes numbered by their position in `nodes`. -/
def numbered (t : Tree) : Tree := (t.numberFrom 0).1

/-! ## Changing one node -/

mutual

/-- The tree with `f` applied to the node of that identity, if it has one. -/
def modify (id : NodeId) (f : Tree → Tree) : Tree → Tree
  | .node i s slots =>
    if i.id = id then f (.node i s slots) else .node i s (modifyItems id f slots)
  | .list items => .list (modifyItems id f items)
  | t => t

def modifyItems (id : NodeId) (f : Tree → Tree) : List Tree → List Tree
  | [] => []
  | t :: ts => modify id f t :: modifyItems id f ts

end

end Tree

end ArrowFree
