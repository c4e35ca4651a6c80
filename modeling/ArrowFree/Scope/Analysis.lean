import ArrowFree.Scope
import ArrowFree.Tree.Visit

/-!
# The scopes of a tree

A scope is opened by the root, by every function, by every catch clause, by every head of a `for`,
and by every block that is not the body of a function or catch clause. Parameters and the name of a
function expression belong to the function, a catch parameter to its clause, `let` and `const` to
the innermost scope, `var` and function declarations to the nearest scope that is no block.
-/

namespace ArrowFree

namespace Place

/-- Whether the identifier at a place reads or writes a variable. A key of an object or member does
if it is computed; the value of that attribute is the answer then. -/
def reference (p : Place) : Tree :=
  match p.parent?, p.field? with
  | some parent, some field =>
    if (parent.is .memberExpression && field = "property") ||
        (parent.is .property && field = "key") then
      (parent.attribute? "computed").getD .null
    else if parent.isFunction && (field = "id" || field = "params") then .bool false
    else if parent.is .variableDeclarator && field = "id" then .bool false
    else if parent.is .catchClause && field = "param" then .bool false
    else .bool true
  | _, _ => .bool true

def isReference (p : Place) : Bool := p.reference.truthy

/-- A block that is the body of a function or catch clause shares the scope of its owner. -/
def isOwnedBody (p : Place) : Bool :=
  match p.parent?, p.field? with
  | some parent, some field => field = "body" && (parent.isFunction || parent.is .catchClause)
  | _, _ => false

/-- The kind of scope that the node at a place opens, the program's own scope apart. -/
def opens? (p : Place) : Option ScopeKind :=
  if p.node.isArrow then some .arrow
  else if p.node.isOrdinaryFunction then some .function
  else if p.node.is .catchClause || p.node.is .forStatement || p.node.is .forInStatement then
    some .block
  else if p.node.is .blockStatement && ! p.isOwnedBody then some .block
  else none

end Place

namespace ScopeTable

/-- The innermost scope around a place that is reached by these steps. -/
def enclosing (t : ScopeTable) : Path → Nat
  | [] => 0
  | s :: path =>
    if (Place.opens? ⟨s.owner, path⟩).isSome then (t.scopeOf? s.owner.id).getD 0
    else enclosing t path

/-- A name that can be declared. Names are texts: an identifier whose name is another value is refused,
although a table could be keyed by any value that can be compared. -/
def asName : Tree → Except Fault Text
  | .scalar (.text name) => .ok name
  | _ => .error .unsuitable

/-- Declares an identifier in a scope of the table. -/
def declare (t : ScopeTable) (scope : Nat) (type : BindingType) (node identifier : Tree) :
    Except Fault ScopeTable := do
  let name ← asName (← identifier.get "name")
  return t.define scope name type node.id identifier.id

/-- Declares those parameters that are identifiers. -/
def declareParameters (t : ScopeTable) (scope : Nat) : List Tree → Except Fault ScopeTable
  | [] => .ok t
  | p :: ps => do
    let t ← if p.is .identifier then t.declare scope .parameter p p else .ok t
    declareParameters t scope ps

/-- Opens the scope of a function and declares its parameters and its name. -/
def enterFunction (t : ScopeTable) (current : Nat) (kind : ScopeKind) (node : Tree) :
    Except Fault ScopeTable := do
  let t ←
    if node.is .functionDeclaration then
      t.declare ((t.variableScope? current).getD 0) .function node (← node.get "id")
    else .ok t
  let scope := t.scopes.length
  let t := t.push ⟨kind, node.id, node.type?.getD .null, some current, [], []⟩
  let t ←
    if node.is .functionExpression then do
      let name ← node.get "id"
      if name.isNull then .ok t else t.declare scope .functionName node name
    else .ok t
  let params ← (← node.get "params").iterate
  t.declareParameters scope params

def enterCatch (t : ScopeTable) (current : Nat) (node : Tree) : Except Fault ScopeTable := do
  let scope := t.scopes.length
  let t := t.push ⟨.block, node.id, node.type?.getD .null, some current, [], []⟩
  let param ← node.get "param"
  if param.is .identifier then t.declare scope .catchParameter node param else .ok t

/-- Declares a variable; the declaration around it says in which scope. -/
def enterDeclarator (t : ScopeTable) (current : Nat) (p : Place) (name : Tree) :
    Except Fault ScopeTable := do
  let parent ← match p.parent? with
    | some parent => .ok parent
    | none => .error .noAttribute
  let kind ← parent.get "kind"
  if kind = .text "var" then
    t.declare ((t.variableScope? current).getD 0) .variable p.node name
  else t.declare current .lexical p.node name

/-- The table after one more place, which stands in the scope `current`. -/
def enterIn (t : ScopeTable) (current : Nat) (p : Place) : Except Fault ScopeTable :=
  let node := p.node
  match p.opens? with
  | some .block =>
    if node.is .catchClause then t.enterCatch current node
    else .ok (t.push ⟨.block, node.id, node.type?.getD .null, some current, [], []⟩)
  | some kind => t.enterFunction current kind node
  | none =>
    match node.attribute? "id" with
    | some name =>
      if node.is .variableDeclarator && name.is .identifier then t.enterDeclarator current p name
      else .ok t
    | none =>
      if node.is .identifier && p.isReference then
        .ok { t with references := t.references ++ [⟨node.id, node.name?, current⟩] }
      else .ok t

/-- The table after one more place, in pre-order. -/
def enter (t : ScopeTable) (p : Place) : Except Fault ScopeTable := t.enterIn (t.enclosing p.path) p

/-- The table of which only the scope of the program is known. -/
def initial (root : Tree) : ScopeTable :=
  { scopes := [⟨.program, root.id, root.type?.getD .null, none, [], []⟩] }

/-- The scopes of a tree whose nodes have identities. -/
def ofTree (root : Tree) : Except Fault ScopeTable := root.places.foldlM enter (initial root)

/-! ## In one visit -/

/-- A table in the making, with the scopes that are open, innermost first. -/
structure Walk where
  table : ScopeTable
  stack : List Nat

/-- The place stands in the innermost open scope; a scope that it opens becomes the innermost. -/
def Walk.enter (w : Walk) (p : Place) : Except Fault Walk := do
  let table ← w.table.enterIn (w.stack.head?.getD 0) p
  return ⟨table, if p.opens?.isSome then w.table.scopes.length :: w.stack else w.stack⟩

/-- The node of the innermost open scope closes it. The first scope stays open. -/
def Walk.leave (w : Walk) (p : Place) : Walk :=
  match w.stack with
  | i :: j :: outer =>
    if (w.table.scopes[i]?).any fun s => s.node = p.node.id then { w with stack := j :: outer } else w
  | _ => w

/-- Entering and leaving as parts of a visit that changes nothing in the tree. -/
def Walk.onEnter (p : Place) : StateT Walk (Except Fault) Decision := fun w => return ({}, ← w.enter p)

def Walk.onLeave (p : Place) : StateT Walk (Except Fault) Decision := fun w => return ({}, w.leave p)

/-- The same scopes, without looking at the way to a place. -/
def ofVisit (root : Tree) : Except Fault ScopeTable := do
  let (_, w) ← (root.visit Walk.onEnter Walk.onLeave).run ⟨initial root, [0]⟩
  return w.table

end ScopeTable

end ArrowFree
