import ArrowFree.Lowering.Arguments

/-!
# Facts for lowering

Everything that lowering needs to know of a tree, found out before anything is changed.
-/

namespace ArrowFree.Lowering

/-- A reference to `arguments` inside an arrow that no function provides. -/
structure Unresolved where
  /-- The outermost arrow around the reference. -/
  arrow : NodeId
  reference : NodeId
  location : Option Location
deriving DecidableEq, Repr

structure Analysis where
  /-- For each arrow, whether it uses the `this` around it. -/
  thisCaptures : NodeMap Bool := {}
  /-- For each `arguments` that is carried past arrows, the function that provides it. -/
  argumentTargets : NodeMap NodeId := {}
  /-- For each such function, the variable that keeps its arguments. -/
  hoistedNames : NodeMap Text := {}
  /-- New names for the identifiers of hidden variables. -/
  renamed : NodeMap Text := {}
  unresolved : List Unresolved := []
  /-- Every name that was generated, by the node that it is for. -/
  names : NodeMap Text := {}

namespace Analysis

def capturesThis (a : Analysis) (arrow : NodeId) : Bool := (a.thisCaptures.get? arrow).getD false

def isHoistTarget (a : Analysis) (node : NodeId) : Bool := a.hoistedNames.contains node

/-- The new name of an identifier, if it gets one. -/
def replacement? (a : Analysis) (identifier : NodeId) : Option Text :=
  match a.argumentTargets.get? identifier with
  | some target => a.hoistedNames.get? target
  | none => a.renamed.get? identifier

/-- The generated name for a node of the tree, recorded in the analysis. -/
def withName (a : Analysis) (target : Tree) : Except Fault (Analysis × Text) :=
  match nameFor baseName a.names target with
  | (names, .ok name) => .ok ({ a with names := names }, name)
  | (_, .error f) => .error f

/-- Records references that no function provides, each once. -/
def addUnresolved (a : Analysis) (arrow : NodeId) (references : List Tree) : Analysis :=
  references.foldl (fun a r =>
    if a.unresolved.any fun u => u.reference = r.id then a
    else { a with unresolved := a.unresolved ++ [⟨arrow, r.id, r.location⟩] }) a

/-- Records references that a function provides. -/
def addHoisted (a : Analysis) (root : Tree) (target : NodeId) (references : List Tree) :
    Except Fault Analysis := do
  let (a, name) ← a.withName ((root.find? target).getD .null)
  return { a with
    hoistedNames := a.hoistedNames.set target name
    argumentTargets := a.argumentTargets.setAll (references.map Tree.id) target }

/-- The facts about one arrow. -/
def addArrow (root : Tree) (scopes : ScopeTable) (a : Analysis) (arrow : Tree) :
    Except Fault Analysis := do
  let a := { a with thisCaptures := a.thisCaptures.set arrow.id (Lowering.capturesThis arrow) }
  let references ← collectReferences scopes arrow
  if references.isEmpty then return a
  match ← hoistTarget scopes arrow with
  | none => return a.addUnresolved arrow.id references
  | some target => a.addHoisted root target references

/-- The facts about one hidden variable. -/
def addHidden (root : Tree) (scopes : ScopeTable) (a : Analysis) (hidden : Nat × List NodeId) :
    Except Fault Analysis := do
  let node := (scopes.scopes[hidden.1]?.bind fun s => root.find? s.node).getD .null
  let (a, name) ← a.withName node
  return { a with renamed := a.renamed.setAll hidden.2 name }

end Analysis

/-- The arrows are looked at in pre-order, and the hidden variables after them. -/
def analyze (scopes : ScopeTable) (root : Tree) : Except Fault Analysis := do
  let a ← (root.nodes.filter Tree.isArrow).foldlM (Analysis.addArrow root scopes) {}
  (← hiddenBindings scopes).foldlM (Analysis.addHidden root scopes) a

end ArrowFree.Lowering
