import ArrowFree.Literal
import ArrowFree.Script.Grammar

/-!
# From derivations to trees

Each form of production says which node its parts make. A node spans the tokens of its derivation;
an expression in parentheses keeps its own span, while what contains it spans the parentheses too.
-/

namespace ArrowFree.Script

/-- From the start of the first token to the end of the last. -/
abbrev Span := Position × Position

def locationOf (file : Text) (s : Span) : Location :=
  ⟨file, s.1.line, s.1.column, s.1.offset, s.2.offset, s.2.line, s.2.column⟩

def tokenLocation (file : Text) (t : Token) : Location := locationOf file (t.start, t.stop)

/-- The trees that a derivation makes, and the tokens that it spans. -/
structure Built where
  span : Option Span := none
  trees : List Tree := []

namespace Built

/-- From the first span to the last. -/
def joinSpans : Option Span → Option Span → Option Span
  | some a, some b => some (a.1, b.2)
  | some a, none => some a
  | none, b => b

def spanOf (parts : List Built) : Option Span :=
  parts.foldr (fun b s => joinSpans b.span s) none

def treesOf (parts : List Built) : List Tree := parts.flatMap (·.trees)

/-- The tree of a part that makes at most one. -/
def orNull (parts : List Built) (n : Nat) : Tree :=
  ((parts[n]?.bind fun b => b.trees.head?)).getD .null

def treesAt (parts : List Built) (n : Nat) : List Tree := (parts[n]?.map (·.trees)).getD []

end Built

/-! ## Tokens -/

def literal (file : Text) (t : Token) (value : Scalar) : Tree :=
  .mk .literal (some (tokenLocation file t)) [.scalar value, .text t.text]

/-- What a token makes on its own: words and literals make nodes, operators their spelling, and
punctuation nothing. -/
def ofToken (file : Text) (t : Token) : Except Fault (List Tree) :=
  match t.terminal with
  | .ident => .ok [.identifier t.text (some (tokenLocation file t))]
  | .number => (Literal.readNumber t.text).map fun v => [literal file t v]
  | .string => .ok [literal file t (.text (Literal.readString t.text))]
  | .true => .ok [literal file t (.bool true)]
  | .false => .ok [literal file t (.bool false)]
  | .null => .ok [literal file t .null]
  | .this => .ok [.mk .thisExpression (some (tokenLocation file t)) []]
  | .in | .instanceof | .typeof | .void | .delete | .var | .let | .const | .compoundAssign
  | .equalityOp | .shiftOp | .relationalOp | .updateOp | .and | .or | .multiplicativeOp
  | .additiveOp | .unaryOp | .bitAnd | .bitOr | .bitXor => .ok [.text t.text]
  | _ => .ok []

/-! ## Checks -/

/-- Only identifiers and members can be assigned to. -/
def checkTarget (t : Tree) : Except Fault Unit :=
  if t.is .identifier || t.is .memberExpression then .ok ()
  else .error (.source {
    message := "invalid assignment target"
    location := t.location
    label := some "cannot assign to this expression" })

/-- No two parameters have one name. -/
def checkParameters : (seen : List Text) → List Tree → Except Fault Unit
  | _, [] => .ok ()
  | seen, p :: ps =>
    let name := p.name?.getD []
    if seen.contains name then
      .error (.source {
        message := "duplicate parameter name `" ++ name ++ "`"
        location := p.location
        label := some "already declared in this parameter list" })
    else checkParameters (name :: seen) ps

/-! ## Forms -/

/-- `a, b, c` is one sequence; a sequence in parentheses is an item of its own. -/
def sequence (location : Option Location) (left right : Tree) : Tree :=
  match left with
  | .node i (.known .sequenceExpression) [.list items] =>
    if (i.location.map (·.start)) = (location.map (·.start)) && i.location.isSome then
      .mk .sequenceExpression location [.list (items ++ [right])]
    else .mk .sequenceExpression location [.list [left, right]]
  | _ => .mk .sequenceExpression location [.list [left, right]]

/-- A property whose key is also its value. -/
def shorthand (location : Option Location) (name : Tree) : Tree :=
  .mk .property location [name, name, .bool false, .bool true, .text "init"]

def functionNode (k : Kind) (location : Option Location) (name : Tree) (rest : List Tree) : Tree :=
  .mk k location [name, .list rest.dropLast, rest.getLast?.getD .null]

/-- The trees that the parts of a production make together. -/
def assemble (file : Text) (form : Form) (span : Option Span) (parts : List Built) :
    Except Fault (List Tree) :=
  let location := span.map (locationOf file)
  let node (k : Kind) (slots : List Tree) : Except Fault (List Tree) := .ok [.mk k location slots]
  let trees := Built.treesOf parts
  match form, trees with
  | .program, ts => node .program [.list ts]
  | .block, ts => node .blockStatement [.list ts]
  | .expressionStatement, [e] => node .expressionStatement [e]
  | .returnStatement, [] => node .returnStatement [.null]
  | .returnStatement, [e] => node .returnStatement [e]
  | .throwStatement, [e] => node .throwStatement [e]
  | .varStatement, [.node i s slots] => .ok [.node { i with location := location } s slots]
  | .varDeclaration, kind :: declarators => node .variableDeclaration [.list declarators, kind]
  | .variableDeclarator, [name] => node .variableDeclarator [name, .null]
  | .variableDeclarator, [name, init] => node .variableDeclarator [name, init]
  | .functionDeclaration, name :: rest => .ok [functionNode .functionDeclaration location name rest]
  | .parameters, ps => do
    checkParameters [] ps
    return ps
  | .ifStatement, [test, consequent] => node .ifStatement [test, consequent, .null]
  | .ifStatement, [test, consequent, alternate] => node .ifStatement [test, consequent, alternate]
  | .forStatement, _ =>
    node .forStatement
      [Built.orNull parts 2, Built.orNull parts 4, Built.orNull parts 6, Built.orNull parts 8]
  | .forInStatement, [left, _, right, body] => node .forInStatement [left, right, body]
  | .forInDeclaration, [kind, name] =>
    node .variableDeclaration
      [.list [.mk .variableDeclarator name.location [name, .null]], kind]
  | .target, [t] => do
    checkTarget t
    return [t]
  | .whileStatement, [test, body] => node .whileStatement [test, body]
  | .doWhileStatement, [body, test] => node .doWhileStatement [body, test]
  | .breakStatement, [] => node .breakStatement []
  | .continueStatement, [] => node .continueStatement []
  | .emptyStatement, [] => node .emptyStatement []
  | .tryCatch, [block, handler] => node .tryStatement [block, handler, .null]
  | .tryCatch, [block, handler, finalizer] => node .tryStatement [block, handler, finalizer]
  | .tryFinally, [block, finalizer] => node .tryStatement [block, .null, finalizer]
  | .catchClause, [param, body] => node .catchClause [param, body]
  | .sequence, [left, right] => .ok [sequence location left right]
  | .assign, [left, right] => do
    checkTarget left
    node .assignmentExpression [.text "=", left, right]
  | .compoundAssign, [left, op, right] => do
    checkTarget left
    node .assignmentExpression [op, left, right]
  | .arrowFunction, _ =>
    let body := Built.orNull parts 2
    node .arrowFunctionExpression
      [.list (Built.treesAt parts 0), body, .bool (! body.is .blockStatement)]
  | .conditional, [test, consequent, alternate] =>
    node .conditionalExpression [test, consequent, alternate]
  | .logical, [left, op, right] => node .logicalExpression [op, left, right]
  | .binary, [left, op, right] => node .binaryExpression [op, left, right]
  | .unary, [op, argument] => node .unaryExpression [op, argument, .bool true]
  | .prefixUpdate, [op, argument] => do
    checkTarget argument
    node .updateExpression [op, argument, .bool true]
  | .postfixUpdate, [argument, op] => do
    checkTarget argument
    node .updateExpression [op, argument, .bool false]
  | .member, [object, property] => node .memberExpression [object, property, .bool false]
  | .computedMember, [object, property] => node .memberExpression [object, property, .bool true]
  | .call, callee :: arguments => node .callExpression [callee, .list arguments]
  | .new, callee :: arguments => node .newExpression [callee, .list arguments]
  | .functionExpression, rest => .ok [functionNode .functionExpression location .null rest]
  | .namedFunctionExpression, name :: rest =>
    .ok [functionNode .functionExpression location name rest]
  | .array, ts => node .arrayExpression [.list ts]
  | .object, ts => node .objectExpression [.list ts]
  | .property, [key, value] =>
    node .property [key, value, .bool false, .bool false, .text "init"]
  | .shorthand, [name] => .ok [shorthand location name]
  | _, ts => .ok ts

/-- A reserved word that stands for a name is no keyword there. -/
def nameOfWord (file : Text) : List Deriv → List Tree
  | [.leaf t] => [.identifier t.text (some (tokenLocation file t))]
  | _ => []

mutual

/-- What a derivation makes: first its parts from left to right, then the production itself. -/
def build (file : Text) : Deriv → Except Fault Built
  | .leaf t => do
    let trees ← ofToken file t
    return ⟨some (t.start, t.stop), trees⟩
  | .branch p children => do
    let parts ← buildAll file children
    let span := Built.spanOf parts
    let trees ←
      if p.action = .keyName then .ok (nameOfWord file children)
      else assemble file p.action span parts
    return ⟨span, trees⟩

def buildAll (file : Text) :
    List Deriv → Except Fault (List Built)
  | [] => .ok []
  | d :: ds => do
    let b ← build file d
    let bs ← buildAll file ds
    return b :: bs

end

end ArrowFree.Script
