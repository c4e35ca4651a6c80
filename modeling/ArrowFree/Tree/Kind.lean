import ArrowFree.Document

/-!
# Kinds of nodes

The node types of the script language that the library knows, with the layout of their fields.
A child field takes part in traversals; the other fields are attributes of the node.
-/

namespace ArrowFree

inductive Kind where
  | program
  | expressionStatement
  | blockStatement
  | emptyStatement
  | variableDeclaration
  | variableDeclarator
  | functionDeclaration
  | returnStatement
  | ifStatement
  | forStatement
  | forInStatement
  | whileStatement
  | doWhileStatement
  | breakStatement
  | continueStatement
  | throwStatement
  | tryStatement
  | catchClause
  | identifier
  | literal
  | thisExpression
  | arrayExpression
  | objectExpression
  | property
  | functionExpression
  | arrowFunctionExpression
  | unaryExpression
  | updateExpression
  | binaryExpression
  | logicalExpression
  | assignmentExpression
  | conditionalExpression
  | callExpression
  | newExpression
  | memberExpression
  | sequenceExpression
deriving DecidableEq, Repr, Inhabited

/-- What a field holds when a document leaves it out. -/
inductive Default where
  | required
  | scalar (s : Scalar)
  | emptyList
deriving DecidableEq, Repr

structure Field where
  name : Text
  child : Bool
  default : Default := .required
deriving DecidableEq, Repr

namespace Field

/-- A child field that has to be given. -/
def sub (name : String) : Field := ⟨name, true, .required⟩

/-- A child field that may be absent. -/
def subOrNull (name : String) : Field := ⟨name, true, .scalar .null⟩

/-- A child field that is an empty list by default. -/
def subs (name : String) : Field := ⟨name, true, .emptyList⟩

/-- An attribute that has to be given. -/
def attr (name : String) : Field := ⟨name, false, .required⟩

/-- An attribute with a default. -/
def attrOr (name : String) (s : Scalar) : Field := ⟨name, false, .scalar s⟩

end Field

namespace Kind

/-- The name of the type in documents. -/
def typeName : Kind → Text
  | .program => "Program"
  | .expressionStatement => "ExpressionStatement"
  | .blockStatement => "BlockStatement"
  | .emptyStatement => "EmptyStatement"
  | .variableDeclaration => "VariableDeclaration"
  | .variableDeclarator => "VariableDeclarator"
  | .functionDeclaration => "FunctionDeclaration"
  | .returnStatement => "ReturnStatement"
  | .ifStatement => "IfStatement"
  | .forStatement => "ForStatement"
  | .forInStatement => "ForInStatement"
  | .whileStatement => "WhileStatement"
  | .doWhileStatement => "DoWhileStatement"
  | .breakStatement => "BreakStatement"
  | .continueStatement => "ContinueStatement"
  | .throwStatement => "ThrowStatement"
  | .tryStatement => "TryStatement"
  | .catchClause => "CatchClause"
  | .identifier => "Identifier"
  | .literal => "Literal"
  | .thisExpression => "ThisExpression"
  | .arrayExpression => "ArrayExpression"
  | .objectExpression => "ObjectExpression"
  | .property => "Property"
  | .functionExpression => "FunctionExpression"
  | .arrowFunctionExpression => "ArrowFunctionExpression"
  | .unaryExpression => "UnaryExpression"
  | .updateExpression => "UpdateExpression"
  | .binaryExpression => "BinaryExpression"
  | .logicalExpression => "LogicalExpression"
  | .assignmentExpression => "AssignmentExpression"
  | .conditionalExpression => "ConditionalExpression"
  | .callExpression => "CallExpression"
  | .newExpression => "NewExpression"
  | .memberExpression => "MemberExpression"
  | .sequenceExpression => "SequenceExpression"

/-- Every kind, in the order of declaration. -/
def all : List Kind :=
  [.program, .expressionStatement, .blockStatement, .emptyStatement, .variableDeclaration,
   .variableDeclarator, .functionDeclaration, .returnStatement, .ifStatement, .forStatement,
   .forInStatement, .whileStatement, .doWhileStatement, .breakStatement, .continueStatement,
   .throwStatement, .tryStatement, .catchClause, .identifier, .literal, .thisExpression,
   .arrayExpression, .objectExpression, .property, .functionExpression, .arrowFunctionExpression,
   .unaryExpression, .updateExpression, .binaryExpression, .logicalExpression,
   .assignmentExpression, .conditionalExpression, .callExpression, .newExpression,
   .memberExpression, .sequenceExpression]

/-- The kind of that type name. -/
def ofTypeName? (name : Text) : Option Kind := all.find? fun k => k.typeName = name

open ArrowFree.Field in
/-- The fields of a kind, in the order in which trees store, show and traverse them. -/
def layout : Kind → List Field
  | .program => [sub "body"]
  | .expressionStatement => [sub "expression"]
  | .blockStatement => [subs "body"]
  | .emptyStatement => []
  | .variableDeclaration => [sub "declarations", attrOr "kind" (.text "var")]
  | .variableDeclarator => [sub "id", subOrNull "init"]
  | .functionDeclaration => [sub "id", sub "params", sub "body"]
  | .returnStatement => [subOrNull "argument"]
  | .ifStatement => [sub "test", sub "consequent", subOrNull "alternate"]
  | .forStatement => [sub "init", sub "test", sub "update", sub "body"]
  | .forInStatement => [sub "left", sub "right", sub "body"]
  | .whileStatement => [sub "test", sub "body"]
  | .doWhileStatement => [sub "body", sub "test"]
  | .breakStatement => []
  | .continueStatement => []
  | .throwStatement => [sub "argument"]
  | .tryStatement => [sub "block", subOrNull "handler", subOrNull "finalizer"]
  | .catchClause => [sub "param", sub "body"]
  | .identifier => [attr "name"]
  | .literal => [attr "value", attrOr "raw" .null]
  | .thisExpression => []
  | .arrayExpression => [subs "elements"]
  | .objectExpression => [subs "properties"]
  | .property =>
    [sub "key", sub "value", attrOr "computed" (.bool false),
     attrOr "shorthand" (.bool false), attrOr "kind" (.text "init")]
  | .functionExpression => [sub "id", sub "params", sub "body"]
  | .arrowFunctionExpression => [sub "params", sub "body", attrOr "expression" (.bool false)]
  | .unaryExpression => [attr "operator", sub "argument", attrOr "prefix" (.bool true)]
  | .updateExpression => [attr "operator", sub "argument", attrOr "prefix" (.bool false)]
  | .binaryExpression => [attr "operator", sub "left", sub "right"]
  | .logicalExpression => [attr "operator", sub "left", sub "right"]
  | .assignmentExpression => [attr "operator", sub "left", sub "right"]
  | .conditionalExpression => [sub "test", sub "consequent", sub "alternate"]
  | .callExpression => [sub "callee", subs "arguments"]
  | .newExpression => [sub "callee", subs "arguments"]
  | .memberExpression => [sub "object", sub "property", attrOr "computed" (.bool false)]
  | .sequenceExpression => [subs "expressions"]

/-- Functions that have a `this` and an `arguments` of their own. -/
def isOrdinaryFunction : Kind → Bool
  | .functionDeclaration | .functionExpression => true
  | _ => false

def isArrow : Kind → Bool
  | .arrowFunctionExpression => true
  | _ => false

def isFunction (k : Kind) : Bool := k.isOrdinaryFunction || k.isArrow

theorem mem_all (k : Kind) : k ∈ all := by cases k <;> decide

theorem typeName_injective : ∀ j k : Kind, j.typeName = k.typeName → j = k := by
  intro j k h
  have : ∀ j ∈ all, ∀ k ∈ all, j.typeName = k.typeName → j = k := by decide +kernel
  exact this j (mem_all j) k (mem_all k) h

end Kind

end ArrowFree
