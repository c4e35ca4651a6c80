import ArrowFree.Lowering.Analysis

/-!
# Lowering arrows

Identifiers that have a new name are replaced; then, from the inside out, each arrow becomes a
function expression, bound to `this` if it uses it, and each function whose arguments are carried
past arrows gets a variable that keeps them.

A value that is no proper tree may stop the lowering. The tree as it is then is returned with the
fault.
-/

namespace ArrowFree.Lowering

/-- A node that lowering makes from another. -/
def made (role : Role) (origin : NodeId) (k : Kind) (location : Option Location)
    (slots : List Tree) : Tree :=
  .node ⟨.made role origin, location⟩ (.known k) slots

/-- A concise body becomes a block that returns it; a block stays. -/
def normalizeBody (origin : NodeId) (body : Tree) : Except Fault Tree :=
  if body.is .blockStatement then .ok body
  else match body with
    | .node i _ _ =>
      .ok (made .blockOf origin .blockStatement i.location
        [.list [made .returnOf origin .returnStatement i.location [body]]])
    | _ => .error .noAttribute

/-- The function `f.bind(this)`. -/
def bound (origin : NodeId) (location : Option Location) (function : Tree) : Tree :=
  made .callOf origin .callExpression location
    [made .memberOf origin .memberExpression location
      [function, made .bindNameOf origin .identifier none [.text "bind"], .bool false],
     .list [made .boundThisOf origin .thisExpression none []]]

/-- The function expression that an arrow becomes. -/
def lowerArrow (arrow : Tree) (capturesThis : Bool) : Except Fault Tree := do
  let params ← arrow.get "params"
  let body ← normalizeBody arrow.id (← arrow.get "body")
  let function := made .functionOf arrow.id .functionExpression arrow.location [.null, params, body]
  return if capturesThis then bound arrow.id arrow.location function else function

/-- `var name = arguments;` -/
def bindingDeclaration (origin : NodeId) (name : Text) : Tree :=
  made .declarationOf origin .variableDeclaration none
    [.list [made .declaratorOf origin .variableDeclarator none
      [made .bindingNameOf origin .identifier none [.text name],
       made .bindingValueOf origin .identifier none [.text argumentsName]]],
     .text "var"]

/-- A statement that consists of a string. -/
def isDirective (t : Tree) : Bool :=
  match t with
  | .node _ (.known .expressionStatement)
      [.node _ (.known .literal) (.scalar (.text _) :: _)] => true
  | _ => false

/-- The statements with one more after the directives that they begin with. -/
def insertStatement (declaration : Tree) (statements : List Tree) : List Tree :=
  statements.takeWhile isDirective ++ declaration :: statements.dropWhile isDirective

/-- Puts a statement into a list of statements; nothing else takes one. -/
def insertInto (declaration : Tree) : Tree → Except Fault Tree
  | .list statements => .ok (.list (insertStatement declaration statements))
  | .scalar (.text _) => .error .noAttribute
  | .object [] => .error .noAttribute
  | .object _ => .error (.missingKey none)
  | _ => .error .unsuitable

/-- The function with a statement at the top of its body. -/
def insertBinding (function declaration : Tree) : Except Fault Tree := do
  let body ← function.get "body"
  let statements ← body.get "body"
  let statements ← insertInto declaration statements
  return function.set "body" (body.set "body" statements)

/-- A new identifier in place of one that has a new name. -/
def rename? (a : Analysis) (t : Tree) : Option Tree :=
  match t with
  | .node i (.known .identifier) _ =>
    (a.replacement? i.id).map fun name =>
      .node ⟨.renamed i.id, i.location⟩ (.known .identifier) [.text name]
  | _ => none

/-- Whether a slot holds an identifier that has a new name. -/
def holdsRenamed (a : Analysis) : Tree → Bool
  | .list items => items.any fun t => (rename? a t).isSome
  | t => (rename? a t).isSome

/-- A property in short form whose key or value has a new name is written out. -/
def writeOut (a : Analysis) (k : Kind) (before after : List Tree) : List Tree :=
  match k, after with
  | .property, [key, value, computed, short, kind] =>
    if short.truthy && (before.take 2).any (holdsRenamed a) then
      [key, value, computed, .bool false, kind]
    else after
  | _, _ => after

/-- What becomes of a node after its children: arrows are lowered, and functions get the variable
for their arguments. -/
def leave (a : Analysis) (t : Tree) : Tree × Option Fault :=
  let settle : Except Fault Tree → Tree × Option Fault
    | .ok u => (u, none)
    | .error f => (t, some f)
  if t.isArrow then settle (lowerArrow t (a.capturesThis t.id))
  else if t.isOrdinaryFunction then
    match a.hoistedNames.get? t.id with
    | some name => settle (insertBinding t (bindingDeclaration t.id name))
    | none => (t, none)
  else (t, none)

mutual

/-- The lowered tree, and the fault that stopped the lowering if there is one. -/
def apply (a : Analysis) : Tree → Tree × Option Fault
  | .node i s slots =>
    match rename? a (.node i s slots) with
    | some t => (t, none)
    | none =>
      let (slots', fault) := applySlots a s.fields slots
      let slots' := match s with
        | .known k => writeOut a k slots slots'
        | .other .. => slots'
      match fault with
      | some f => (.node i s slots', some f)
      | none => leave a (.node i s slots')
  | t => (t, none)

def applySlots (a : Analysis) : List Field → List Tree → List Tree × Option Fault
  | f :: fs, .list items :: ts =>
    let (items, fault) := if f.child then applyItems a items else (items, none)
    match fault with
    | some e => (.list items :: ts, some e)
    | none =>
      let (ts, fault) := applySlots a fs ts
      (.list items :: ts, fault)
  | f :: fs, t :: ts =>
    let (t, fault) := if f.child then apply a t else (t, none)
    match fault with
    | some e => (t :: ts, some e)
    | none =>
      let (ts, fault) := applySlots a fs ts
      (t :: ts, fault)
  | _, ts => (ts, none)

def applyItems (a : Analysis) : List Tree → List Tree × Option Fault
  | [] => ([], none)
  | t :: ts =>
    let (t, fault) := apply a t
    match fault with
    | some e => (t :: ts, some e)
    | none =>
      let (ts, fault) := applyItems a ts
      (t :: ts, fault)

end

/-- No arrow is left that a traversal reaches. -/
def validate (t : Tree) : Except Fault Unit :=
  match t.nodes.find? Tree.isArrow with
  | some arrow =>
    .error (.unsupported Code.arrowSurvived.text
      ("arrow function at " ++ Location.describe arrow.location ++ " survived lowering"))
  | none => .ok ()

end ArrowFree.Lowering
