import ArrowFree.Printer.Precedence
import ArrowFree.Tree.Place

/-!
# Printing trees

A tree is printed as a sequence of pieces: texts, and marks that say which node's text begins there.
The code is the texts put together. One statement stands on a line, and a block is indented by one
unit.
-/

namespace ArrowFree

inductive Piece where
  | text (t : Text)
  | mark (location : Location) (name : Option Text)
deriving DecidableEq, Repr

namespace Printer

abbrev Pieces := Except Fault (List Piece)

/-- Puts printed parts one after the other. -/
def sequence : List Pieces → Pieces
  | [] => .ok []
  | p :: ps => do
    let a ← p
    let b ← sequence ps
    return a ++ b

def word (t : Text) : Pieces := .ok [.text t]

/-- A value that has to be a text. -/
def verbatim : Tree → Pieces
  | .scalar (.text t) => word t
  | .list _ => .error .unsuitable
  | _ => .error .noAttribute

/-- A value as it is shown inside a text. -/
def shown (t : Tree) : Text :=
  match t with
  | .scalar (.text s) => s
  | t => Literal.described t

/-- A located node leaves a mark where its text begins; an identifier's mark has its name. -/
def markOf (i : Info) (s : Shape) (slots : List Tree) : List Piece :=
  match i.location with
  | none => []
  | some l =>
    let name := match s, slots with
      | .known .identifier, [name] => name.asText?
      | _, _ => none
    [.mark l name]

def newline (indent : Text) (level : Nat) : Pieces := word ("\n" ++ Text.repeated indent level)

def parenthesized (parens : Except Fault Bool) (inside : Pieces) : Pieces := do
  if ← parens then sequence [word "(", inside, word ")"] else inside

/-- A list is expected; nothing but an empty text or object passes for an empty one. -/
def notAList : Tree → Pieces
  | .scalar (.text []) | .object [] => .ok []
  | .scalar (.text _) | .object _ => .error .noAttribute
  | _ => .error .unsuitable

def looserThanAssignment (t : Tree) : Except Fault Bool := do
  return (← precedence t) < assignmentLevel

/-- The operators that are words. -/
def wordOperators : List Text := ["typeof", "void", "delete", "in", "instanceof"]

/-- Whether a unary operator would run into the operator behind it. -/
def fuses (operator argument : Tree) : Except Fault Bool :=
  match argument with
  | .node _ (.known .unaryExpression) [inner, _, before]
  | .node _ (.known .updateExpression) [inner, _, before] =>
    if before.truthy then
      match inner with
      | .scalar (.text (c :: _)) => .ok (operator = .text [c])
      | .scalar (.text []) => .error .outOfRange
      | .list (t :: _) => .ok (operator = t)
      | .list [] => .error .outOfRange
      | .object _ => .error (.missingKey none)
      | _ => .error .unsuitable
    else .ok false
  | _ => .ok false

/-- The space after a unary operator. -/
def unaryGap (operator argument : Tree) : Pieces := do
  if operator.asText?.any wordOperators.contains then word " "
  else if ← fuses operator argument then word " "
  else .ok []

def isInOperation : Tree → Bool
  | .node _ (.known .binaryExpression) (op :: _) => op = .text "in"
  | _ => false

/-- Whether an `else` behind a statement would be taken by an `if` that is the statement. -/
def takesElse : Tree → Bool
  | .node _ (.known .ifStatement) [_, _, alternate] => alternate.isNull
  | _ => false

/-- A value that ends a declaration's keyword. -/
def keyword (kind : Tree) : Pieces :=
  match kind with
  | .scalar (.text t) => word (t ++ " ")
  | _ => .error .unsuitable

def isAccessor (kind : Tree) : Bool := kind = .text "get" || kind = .text "set"

/-- A property in short form that may be printed so. -/
def printsShort (key value short : Tree) : Bool :=
  short.truthy && value.is .identifier && key.is .identifier &&
    value.attribute? "name" = key.attribute? "name"

/-- A printed child of an operation, in parentheses where the operation needs them. -/
def operand (parent : Kind) (operator : Tree) (field : Text) (child : Tree) (printed : Pieces) :
    Pieces :=
  parenthesized (needsParens parent operator field child) printed

/-- An operation with two operands. -/
def operation (k : Kind) (operator left right : Tree) (printedLeft printedRight : Pieces) : Pieces :=
  sequence
    [operand k operator "left" left printedLeft, word (" " ++ shown operator ++ " "),
     operand k operator "right" right printedRight]

mutual

/-- The pieces of a node at an indentation level. -/
def print (indent : Text) (level : Nat) : Tree → Pieces
  | .node _ (.other type _) _ =>
    .error (.unsupported Code.unprintable.text
      ("cannot print unsupported node type " ++ type.described))
  | .node i (.known k) slots => do
    let body ← printNode indent level k slots
    return markOf i (.known k) slots ++ body
  | _ => .error .noAttribute

/-- The pieces of a node of known kind without its mark. -/
def printNode (indent : Text) (level : Nat) : Kind → List Tree → Pieces
  | .program, [body] => printStatements indent level true body
  | .blockStatement, [body] =>
    if body.truthy then
      sequence [word "\x7b", printStatements indent (level + 1) false body,
        newline indent level, word "\x7d"]
    else word "\x7b\x7d"
  | .emptyStatement, [] => word ";"
  | .expressionStatement, [e] =>
    sequence [parenthesized (opensLikeStatement true e) (print indent level e), word ";"]
  | .variableDeclaration, [declarations, kind] =>
    sequence [keyword kind, printDeclarators indent level declarations, word ";"]
  | .variableDeclarator, [name, init] =>
    if init.isNull then print indent level name
    else sequence [print indent level name, word " = ",
      parenthesized (looserThanAssignment init) (print indent level init)]
  | .functionDeclaration, [name, params, body]
  | .functionExpression, [name, params, body] =>
    sequence
      [word "function",
       if name.isNull then .ok [] else sequence [word " ", print indent level name],
       word "(", printComma indent level params, word ") ", print indent level body]
  | .returnStatement, [argument] =>
    if argument.isNull then word "return;"
    else sequence [word "return ", print indent level argument, word ";"]
  | .throwStatement, [argument] => sequence [word "throw ", print indent level argument, word ";"]
  | .breakStatement, [] => word "break;"
  | .continueStatement, [] => word "continue;"
  | .ifStatement, [test, consequent, alternate] =>
    let head := [word "if (", print indent level test, word ") "]
    if alternate.isNull then sequence (head ++ [print indent level consequent])
    else if takesElse consequent then
      sequence (head ++
        [word "\x7b", newline indent (level + 1), print indent (level + 1) consequent,
         newline indent level, word "\x7d else ", print indent level alternate])
    else if consequent.is .blockStatement then
      sequence (head ++
        [print indent level consequent, word " else ", print indent level alternate])
    else
      sequence (head ++
        [print indent level consequent, newline indent level, word "else ",
         print indent level alternate])
  | .forStatement, [init, test, update, body] =>
    sequence
      [word "for (",
       if init.is .variableDeclaration then printDeclaration indent level init
       else if init.isNull then .ok []
       else parenthesized (.ok (isInOperation init)) (print indent level init),
       word ";",
       if test.isNull then .ok [] else sequence [word " ", print indent level test],
       word ";",
       if update.isNull then .ok [] else sequence [word " ", print indent level update],
       word ") ", print indent level body]
  | .forInStatement, [left, right, body] =>
    sequence
      [word "for (",
       if left.is .variableDeclaration then printDeclaration indent level left
       else print indent level left,
       word " in ", print indent level right, word ") ", print indent level body]
  | .whileStatement, [test, body] =>
    sequence [word "while (", print indent level test, word ") ", print indent level body]
  | .doWhileStatement, [body, test] =>
    sequence
      [word "do ", print indent level body,
       if body.is .blockStatement then word " " else newline indent level,
       word "while (", print indent level test, word ");"]
  | .tryStatement, [block, handler, finalizer] =>
    sequence
      [word "try ", print indent level block,
       if handler.isNull then .ok [] else sequence [word " ", print indent level handler],
       if finalizer.isNull then .ok []
       else sequence [word " finally ", print indent level finalizer]]
  | .catchClause, [param, body] =>
    sequence [word "catch (", print indent level param, word ") ", print indent level body]
  | .arrowFunctionExpression, [params, body, _] =>
    let parens : Except Fault Bool := do
      if body.is .blockStatement then return false
      if ← looserThanAssignment body then return true
      opensLikeStatement false body
    sequence
      [word "(", printComma indent level params, word ") => ",
       parenthesized parens (print indent level body)]
  | .identifier, [name] => verbatim name
  | .literal, [value, raw] =>
    if raw.isNull then do word (← Literal.write value) else verbatim raw
  | .thisExpression, [] => word "this"
  | .arrayExpression, [elements] =>
    sequence [word "[", printComma indent level elements, word "]"]
  | .objectExpression, [properties] =>
    if properties.truthy then
      sequence [word "\x7b", printProperties indent (level + 1) properties,
        newline indent level, word "\x7d"]
    else word "\x7b\x7d"
  | .property, [key, value, computed, short, kind] =>
    let printedKey :=
      if computed.truthy then sequence [word "[", print indent level key, word "]"]
      else print indent level key
    if isAccessor kind && value.is .functionExpression then
      sequence [keyword kind, printedKey, printMethod indent level value]
    else if printsShort key value short then print indent level value
    else
      sequence
        [printedKey, word ": ",
         parenthesized (looserThanAssignment value) (print indent level value)]
  | .unaryExpression, [operator, argument, _] =>
    sequence
      [verbatim operator, unaryGap operator argument,
       operand .unaryExpression operator "argument" argument (print indent level argument)]
  | .updateExpression, [operator, argument, before] =>
    let inner :=
      operand .updateExpression operator "argument" argument (print indent level argument)
    if before.truthy then sequence [verbatim operator, inner]
    else sequence [inner, verbatim operator]
  | .binaryExpression, [operator, left, right] =>
    operation .binaryExpression operator left right
      (print indent level left) (print indent level right)
  | .logicalExpression, [operator, left, right] =>
    operation .logicalExpression operator left right
      (print indent level left) (print indent level right)
  | .assignmentExpression, [operator, left, right] =>
    operation .assignmentExpression operator left right
      (print indent level left) (print indent level right)
  | .conditionalExpression, [test, consequent, alternate] =>
    sequence
      [operand .conditionalExpression .null "test" test (print indent level test),
       word " ? ",
       operand .conditionalExpression .null "consequent" consequent (print indent level consequent),
       word " : ",
       operand .conditionalExpression .null "alternate" alternate (print indent level alternate)]
  | .callExpression, [callee, arguments] =>
    sequence
      [operand .callExpression .null "callee" callee (print indent level callee),
       word "(", printComma indent level arguments, word ")"]
  | .newExpression, [callee, arguments] =>
    sequence
      [word "new ",
       operand .newExpression .null "callee" callee (print indent level callee),
       word "(", printComma indent level arguments, word ")"]
  | .memberExpression, [object, property, computed] =>
    let head := operand .memberExpression .null "object" object (print indent level object)
    if computed.truthy then
      sequence [head, word "[", print indent level property, word "]"]
    else sequence [head, word ".", print indent level property]
  | .sequenceExpression, [expressions] => printComma indent level expressions
  | _, _ => .error .noAttribute

/-- Statements, each but the first of a program on a new line. -/
def printStatements (indent : Text) (level : Nat) (top : Bool) : Tree → Pieces
  | .list items => printStatementItems indent level top items
  | t => notAList t

def printStatementItems (indent : Text) (level : Nat) (first : Bool) : List Tree → Pieces
  | [] => .ok []
  | t :: ts =>
    sequence
      [if first then .ok [] else newline indent level, print indent level t,
       printStatementItems indent level false ts]

/-- Expressions, separated by commas. -/
def printComma (indent : Text) (level : Nat) : Tree → Pieces
  | .list items => printCommaItems indent level true items
  | t => notAList t

def printCommaItems (indent : Text) (level : Nat) (first : Bool) : List Tree → Pieces
  | [] => .ok []
  | t :: ts =>
    sequence
      [if first then .ok [] else word ", ",
       parenthesized (looserThanAssignment t) (print indent level t),
       printCommaItems indent level false ts]

/-- Declarators, separated by commas. -/
def printDeclarators (indent : Text) (level : Nat) : Tree → Pieces
  | .list items => printDeclaratorItems indent level true items
  | t => notAList t

def printDeclaratorItems (indent : Text) (level : Nat) (first : Bool) : List Tree → Pieces
  | [] => .ok []
  | t :: ts =>
    sequence
      [if first then .ok [] else word ", ", print indent level t,
       printDeclaratorItems indent level false ts]

/-- Properties, each on a line of its own. -/
def printProperties (indent : Text) (level : Nat) : Tree → Pieces
  | .list items => printPropertyItems indent level true items
  | t => notAList t

def printPropertyItems (indent : Text) (level : Nat) (first : Bool) : List Tree → Pieces
  | [] => .ok []
  | t :: ts =>
    sequence
      [if first then .ok [] else word ",", newline indent level, print indent level t,
       printPropertyItems indent level false ts]

/-- A declaration in the head of a loop, without its semicolon. -/
def printDeclaration (indent : Text) (level : Nat) : Tree → Pieces
  | .node i (.known .variableDeclaration) [declarations, kind] => do
    let body ← sequence [keyword kind, printDeclarators indent level declarations]
    return markOf i (.known .variableDeclaration) [] ++ body
  | _ => .error .noAttribute

/-- The parameters and the body of a function that is written as an accessor. -/
def printMethod (indent : Text) (level : Nat) : Tree → Pieces
  | .node _ (.known .functionExpression) [_, params, body] =>
    sequence [word "(", printComma indent level params, word ") ", print indent level body]
  | _ => .error .noAttribute

end

-- its equations are made here, once for all modules that rewrite with them
attribute [local simp] printNode

end Printer

end ArrowFree
