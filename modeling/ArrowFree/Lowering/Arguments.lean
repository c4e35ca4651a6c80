import ArrowFree.NodeMap
import ArrowFree.Scope.Analysis

/-!
# What `arguments` means

An arrow function has no `arguments` of its own: inside of it the name means that of the nearest
ordinary function, unless a scope on the way declares a variable of that name. A declared variable
that would be hidden once the arrow is an ordinary function is renamed, and an `arguments` that is
reached through arrows is kept in a variable of the function that owns it.
-/

namespace ArrowFree.Lowering

/-- The name with the special meaning. -/
def argumentsName : Text := "arguments"

/-- The name for generated variables, before numbers are put behind it. -/
def baseName : Text := "$__arguments"

/-! ## Resolution -/

/-- What a reference to `arguments` means. -/
structure Resolution where
  /-- The scope that declares or provides it. -/
  scope : Nat
  /-- The declared variable; none if the scope provides its own arguments object. -/
  binding : Option Binding
  /-- The innermost arrow between the reference and the scope. -/
  arrow : Option NodeId
deriving DecidableEq, Repr

/-- Walks outwards through scopes. A declaration wins, but the name of a function expression is no
declaration here: the arguments object of that function is nearer. -/
def resolveAlong (arrow : Option NodeId) : List (Nat × Scope) → Option Resolution
  | [] => none
  | (i, s) :: rest =>
    match (s.binding? argumentsName).filter fun b => b.type ≠ .functionName with
    | some b => some ⟨i, some b, arrow⟩
    | none =>
      if ! s.isTransparent then some ⟨i, none, arrow⟩
      else
        let arrow := arrow <|> if s.kind = .arrow then some s.node else none
        resolveAlong arrow rest

/-- The meaning of a reference in a scope. -/
def resolveFrom (scopes : ScopeTable) (scope : Nat) : Except Fault Resolution :=
  match resolveAlong none (scopes.scopesOn scope) with
  | some r => .ok r
  | none => .error (.misuse "scope chain has no program scope")

def resolve (scopes : ScopeTable) (reference : Tree) : Except Fault Resolution := do
  resolveFrom scopes (← scopes.referenceScope reference)

/-- Whether the value comes from an ordinary function or the program itself, and so has to be
carried past arrows. -/
def Resolution.reachesFunction (scopes : ScopeTable) (r : Resolution) : Bool :=
  match scopes.scopes[r.scope]? with
  | none => false
  | some s =>
    if s.isTransparent then false
    else match s.kind, r.binding with
      | .program, _ => true
      | _, none => true
      | _, some b => b.type ≠ .lexical

/-! ## Collecting -/

/-- The places inside an arrow that are not inside an ordinary function within it. -/
def ownPlaces (arrow : Tree) : List Place :=
  arrow.placesAt (fun n => n.id ≠ arrow.id && n.isOrdinaryFunction) []

/-- The references to `arguments` in an arrow that are resolved past it to a function or to the
program. -/
def collectReferences (scopes : ScopeTable) (arrow : Tree) : Except Fault (List Tree) :=
  (ownPlaces arrow).filterMapM fun p =>
    if p.node.name? = some argumentsName && p.isReference then do
      let r ← resolve scopes p.node
      return if r.reachesFunction scopes then some p.node else none
    else return none

/-- The nearest ordinary function around an arrow; none at program level. -/
def hoistTarget (scopes : ScopeTable) (arrow : Tree) : Except Fault (Option NodeId) := do
  let scope ← scopes.scopeOf arrow
  match (scopes.owner? scope).bind fun i => scopes.scopes[i]? with
  | some owner => return if owner.kind = .program then none else some owner.node
  | none => .error (.misuse "scope chain has no program scope")

/-- The places of an arrow at which an ordinary function ends the view. -/
def visiblePlaces (arrow : Tree) : List Place := arrow.placesAt Tree.isOrdinaryFunction []

/-- Whether an arrow uses the `this` around it, itself or in an arrow within it. -/
def capturesThis (arrow : Tree) : Bool :=
  (visiblePlaces arrow).any fun p => p.node.is .thisExpression

/-! ## Hidden variables -/

/-- The references to one variable named `arguments`. -/
structure Group where
  scope : Nat
  binding : Binding
  references : List NodeId := []
  hidden : Bool := false
deriving DecidableEq, Repr

/-- A `var arguments` in an arrow starts out undefined; in an ordinary function it would not. -/
def redeclares (s : Scope) (b : Binding) : Bool := s.kind = .arrow && b.type = .variable

/-- Adds a reference to the group of its variable. -/
def addReference (groups : NodeMap Group) (scopes : ScopeTable) (reference : NodeId)
    (r : Resolution) : NodeMap Group :=
  match r.binding, scopes.scopes[r.scope]? with
  | some b, some s =>
    if r.reachesFunction scopes then groups
    else
      let g := (groups.get? s.node).getD { scope := r.scope, binding := b }
      groups.set s.node { g with
        references := g.references ++ [reference]
        hidden := g.hidden || r.arrow.isSome || redeclares s b }
  | _, _ => groups

/-- The variables named `arguments` that an arrow would lose sight of, each with the identifiers
that name it: the declarations first, then the references. -/
def hiddenBindings (scopes : ScopeTable) : Except Fault (List (Nat × List NodeId)) := do
  let groups ← (scopes.referencesTo argumentsName).foldlM (fun groups ref => do
    return addReference groups scopes ref.identifier (← resolveFrom scopes ref.scope)) {}
  return (groups.entries.filter fun (_, g) => g.hidden).map fun (_, g) =>
    (g.scope, g.binding.identifiers ++ g.references)

/-! ## Names -/

/-- The names of all identifiers in a tree. -/
def identifierNames (t : Tree) : Except Fault (List Text) :=
  t.nodes.filterMapM fun n =>
    if n.is .identifier then
      match n.attribute? "name" with
      | some (.scalar (.text name)) => return some name
      | some (.list _) | some (.object _) => .error .unsuitable
      | _ => return none
    else return none

/-- The first of the numbered names from `k` on that is not taken. -/
def firstFree (base : Text) (taken : List Text) : (fuel k : Nat) → Text
  | 0, k => base ++ Text.ofNat k
  | fuel + 1, k =>
    let name := base ++ Text.ofNat k
    if taken.contains name then firstFree base taken fuel (k + 1) else name

/-- The base name, or else the base with the least number that makes it free. -/
def freshName (base : Text) (taken : List Text) : Text :=
  if taken.contains base then firstFree base taken taken.length 1 else base

/-- What a message says of the node that a name is for. -/
def describeTarget (t : Tree) : Except Fault Text := do
  let name ← match t.attribute? "id" with
    | none => .ok (("<anonymous>" : Text))
    | some id =>
      if id.isNull then .ok "<anonymous>"
      else do
        match ← id.get "name" with
        | .scalar (.text n) => .ok n
        | .scalar s => .ok s.described
        | _ => .ok []
  let place : Text := match t.location with
    | some l => " at " ++ l.toText
    | none => []
  return Place.typeText t ++ " " ++ name ++ place

/-- The generated name for a node; asked again, it stays the same. The names that were given are
returned too, whether or not the node can be described. -/
def nameFor (base : Text) (names : NodeMap Text) (target : Tree) : NodeMap Text × Except Fault Text :=
  match names.get? target.id with
  | some name => (names, .ok name)
  | none =>
    match identifierNames target with
    | .error f => (names, .error f)
    | .ok taken =>
      let name := freshName base taken
      (names.set target.id name, (describeTarget target).map fun _ => name)

end ArrowFree.Lowering
