import ArrowFree.Tree.Place

/-!
# Scopes

A scope belongs to the node that opens it and holds the names that are declared in it. The scopes
of a tree form a table; a scope refers to its parent by its place there, and the first scope is
that of the whole program.
-/

namespace ArrowFree

inductive ScopeKind where
  | program
  | function
  | arrow
  | block
deriving DecidableEq, Repr

inductive BindingType where
  | parameter
  | variable
  /-- Declared by `let` or `const`. -/
  | lexical
  | function
  | catchParameter
  /-- The name of a function expression, inside of it. -/
  | functionName
deriving DecidableEq, Repr

def ScopeKind.text : ScopeKind → Text
  | .program => "program"
  | .function => "function"
  | .arrow => "arrow"
  | .block => "block"

def BindingType.text : BindingType → Text
  | .parameter => "parameter"
  | .variable => "variable"
  | .lexical => "lexical"
  | .function => "function"
  | .catchParameter => "catch_parameter"
  | .functionName => "function_name"

/-- A declared name: the first declaration gives its type and node, and every declaring identifier
is kept. -/
structure Binding where
  name : Text
  type : BindingType
  node : NodeId
  identifiers : List NodeId := []
deriving DecidableEq, Repr

structure Scope where
  kind : ScopeKind
  /-- The node that opens the scope, and its type. -/
  node : NodeId
  nodeType : Scalar
  parent : Option Nat := none
  bindings : List Binding := []
  /-- The scopes that it is the parent of, in the order in which they were opened. -/
  children : List Nat := []
deriving DecidableEq, Repr

/-- An identifier that reads or writes a variable, with the innermost scope around it. -/
structure Reference where
  identifier : NodeId
  name : Option Text
  scope : Nat
deriving DecidableEq, Repr

structure ScopeTable where
  scopes : List Scope := []
  references : List Reference := []
deriving DecidableEq, Repr

namespace Scope

/-- Arrows and blocks have no `this` and no `arguments` of their own. -/
def isTransparent (s : Scope) : Bool := s.kind = .arrow || s.kind = .block

/-- The binding that the scope itself declares. -/
def binding? (s : Scope) (name : Text) : Option Binding := s.bindings.find? fun b => b.name = name

/-- The bindings after one more declaration: the first keeps the type and the node, each adds its
identifier. -/
def declare (name : Text) (type : BindingType) (node identifier : NodeId) :
    List Binding → List Binding
  | [] => [⟨name, type, node, [identifier]⟩]
  | b :: bs =>
    if b.name = name then { b with identifiers := b.identifiers ++ [identifier] } :: bs
    else b :: declare name type node identifier bs

def define (s : Scope) (name : Text) (type : BindingType) (node identifier : NodeId) : Scope :=
  { s with bindings := declare name type node identifier s.bindings }

/-- The kind, the node type and the names. -/
def describe (s : Scope) : Text :=
  let type := match s.nodeType with
    | .text t => t
    | other => other.described
  let names := s.bindings.map fun b => b.name.described
  "Scope(" ++ s.kind.text ++ ", " ++ type ++ ", names=[" ++ Text.join ", " names ++ "])"

end Scope

namespace ScopeTable

/-- The scope of a node; of two scopes of one node the later. -/
def scopeOf? (t : ScopeTable) (id : NodeId) : Option Nat :=
  ((List.range t.scopes.length).zip t.scopes).reverse.findSome? fun (i, s) =>
    if s.node = id then some i else none

/-- A scope and the scopes around it, innermost first. Parents come before their children, so that
the number of the scope bounds the way. -/
def chainFrom (t : ScopeTable) : (fuel i : Nat) → List Nat
  | 0, _ => []
  | fuel + 1, i =>
    match t.scopes[i]? with
    | none => []
    | some s =>
      i :: match s.parent with
        | none => []
        | some p => chainFrom t fuel p

def chain (t : ScopeTable) (i : Nat) : List Nat := t.chainFrom (i + 1) i

/-- The scopes of a chain. -/
def scopesOn (t : ScopeTable) (i : Nat) : List (Nat × Scope) :=
  (t.chain i).filterMap fun j => (t.scopes[j]?).map fun s => (j, s)

/-- The nearest scope with a `this` and an `arguments` of its own. -/
def owner? (t : ScopeTable) (i : Nat) : Option Nat :=
  ((t.scopesOn i).find? fun (_, s) => ! s.isTransparent).map Prod.fst

/-- The nearest scope that is no block: where `var` and function declarations live. -/
def variableScope? (t : ScopeTable) (i : Nat) : Option Nat :=
  ((t.scopesOn i).find? fun (_, s) => s.kind ≠ .block).map Prod.fst

/-- The binding that a name has in a scope. -/
def lookup? (t : ScopeTable) (i : Nat) (name : Text) : Option Binding :=
  (t.scopesOn i).findSome? fun (_, s) => s.binding? name

def define (t : ScopeTable) (i : Nat) (name : Text) (type : BindingType)
    (node identifier : NodeId) : ScopeTable :=
  { t with scopes := t.scopes.modify i fun s => s.define name type node identifier }

/-- The scopes after one of them, if any, has become the parent of another. -/
def adopt (scopes : List Scope) (child : Nat) : Option Nat → List Scope
  | none => scopes
  | some parent => scopes.modify parent fun s => { s with children := s.children ++ [child] }

/-- The table with one more scope, which its parent then counts among its children. -/
def push (t : ScopeTable) (s : Scope) : ScopeTable :=
  { t with scopes := adopt t.scopes t.scopes.length s.parent ++ [s] }

/-- The number of nodes that open a scope. -/
def size (t : ScopeTable) : Nat := (t.scopes.map (·.node)).eraseDups.length

/-- The scope of a node that has to have one. -/
def scopeOf (t : ScopeTable) (node : Tree) : Except Fault Nat :=
  match t.scopeOf? node.id with
  | some i => .ok i
  | none => .error (.missingKey (some ("no scope recorded for " ++ Place.typeText node ++ " node")))

def reference? (t : ScopeTable) (id : NodeId) : Option Reference :=
  t.references.find? fun r => r.identifier = id

/-- The scope of an identifier that has to be a recorded reference. -/
def referenceScope (t : ScopeTable) (node : Tree) : Except Fault Nat := do
  match t.reference? node.id with
  | some r => return r.scope
  | none =>
    let name ← node.get "name"
    let shown := match name with
      | .scalar (.text n) => n
      | .scalar s => s.described
      | _ => []
    .error (.missingKey (some ("no reference recorded for identifier `" ++ shown ++ "`")))

/-- The references to a name, in pre-order. -/
def referencesTo (t : ScopeTable) (name : Text) : List Reference :=
  t.references.filter fun r => r.name = some name

end ScopeTable

end ArrowFree
