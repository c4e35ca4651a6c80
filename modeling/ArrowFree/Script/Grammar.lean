import ArrowFree.Grammar
import ArrowFree.Token

/-!
# The grammar of scripts

Statements and expressions of the fifth edition of the language, with arrow functions. A semicolon
may be left out after the last statement of a program or block only. The grammar is ambiguous: a
brace can open a block or an object, `function` can begin a declaration or an expression, and an
`else` can belong to several `if`s. The priorities of blocks and declarations settle the first two,
the order of the alternatives of `if` the third.
-/

namespace ArrowFree.Script

/-- Listed so that a symbol comes after those that it can consist of. -/
inductive Nonterminal where
  | propertyName
  | names
  | parameterList
  | varKind
  | arrayLiteral
  | objectLiteral
  | functionExpression
  | primary
  | newCallee
  | arguments
  | callMember
  | suffixed
  | unary
  | multiplicative
  | additive
  | shift
  | relational
  | equality
  | bitwiseAnd
  | bitwiseXor
  | bitwiseOr
  | logicalAnd
  | logicalOr
  | conditional
  | arrowParameters
  | arrowFunction
  | assignment
  | assignments
  | property
  | properties
  | block
  | arrowBody
  | expression
  | variableDeclarator
  | declarators
  | varDeclaration
  | varStatement
  | functionDeclaration
  | returnStatement
  | ifStatement
  | forInit
  | forTest
  | forUpdate
  | forStatement
  | forInLeft
  | forInStatement
  | whileStatement
  | doWhileStatement
  | breakStatement
  | continueStatement
  | throwStatement
  | catchClause
  | finallyClause
  | tryStatement
  | emptyStatement
  | expressionStatement
  | statement
  | statements
  | tail
  | program
deriving DecidableEq, Repr, Inhabited

/-- What a production stands for. -/
inductive Form where
  /-- The parts as they are. -/
  | inline
  | program
  | block
  | expressionStatement
  | returnStatement
  | throwStatement
  | varStatement
  | varDeclaration
  | variableDeclarator
  | functionDeclaration
  | parameters
  | ifStatement
  | forStatement
  | forInStatement
  | forInDeclaration
  | target
  | whileStatement
  | doWhileStatement
  | breakStatement
  | continueStatement
  | emptyStatement
  | tryCatch
  | tryFinally
  | catchClause
  | sequence
  | assign
  | compoundAssign
  | arrowFunction
  | conditional
  | logical
  | binary
  | unary
  | prefixUpdate
  | postfixUpdate
  | member
  | computedMember
  | call
  | new
  | functionExpression
  | namedFunctionExpression
  | array
  | object
  | property
  | shorthand
  | keyName
deriving DecidableEq, Repr, Inhabited

abbrev Rule := Production Terminal Nonterminal Form

abbrev Deriv := Derivation Token Terminal Nonterminal Form

/-! ## Productions -/

/-- A symbol of a body. -/
abbrev Sym := Symbol Terminal Nonterminal

instance : Coe Terminal Sym := ⟨.terminal⟩
instance : Coe Nonterminal Sym := ⟨.nonterminal⟩

/-- The alternatives of a nonterminal. -/
def define (head : Nonterminal) (alternatives : List (List Sym × Form)) : List Rule :=
  alternatives.map fun (body, form) => ⟨head, body, form, 0⟩

/-- Alternatives that are preferred wherever they apply. -/
def prefer (head : Nonterminal) (alternatives : List (List Sym × Form)) : List Rule :=
  alternatives.map fun (body, form) => ⟨head, body, form, 2⟩

/-- A nonterminal that consists of one of some others. -/
def oneOf (head : Nonterminal) (bodies : List Nonterminal) : List Rule :=
  define head (bodies.map fun n => ([.nonterminal n], .inline))

/-- One or more items, separated by commas. -/
def commaList (head : Nonterminal) (item : Sym) : List Rule :=
  define head
    [([item], .inline),
     ([.nonterminal head, .terminal .comma, item], .inline)]

/-- A level of binary operators that group to the left. -/
def leftLevel (head lower : Nonterminal) (form : Form) (operators : List Terminal) : List Rule :=
  oneOf head [lower] ++
  define head (operators.map fun t =>
    ([.nonterminal head, .terminal t, .nonterminal lower], form))

open Nonterminal in
def programRules : List Rule :=
  define program
    [([statements, tail], .program),
     ([statements], .program),
     ([tail], .program),
     ([], .program)] ++
  define statements
    [([statement], .inline),
     ([statements, statement], .inline)] ++
  oneOf statement
    [block, varStatement, functionDeclaration, returnStatement, ifStatement, forStatement,
     forInStatement, whileStatement, doWhileStatement, breakStatement, continueStatement,
     throwStatement, tryStatement, emptyStatement, expressionStatement] ++
  define tail
    [([expression], .expressionStatement),
     ([Terminal.return, expression], .returnStatement),
     ([Terminal.return], .returnStatement),
     ([varDeclaration], .inline),
     ([Terminal.throw, expression], .throwStatement)] ++
  prefer block
    [([Terminal.openBrace, statements, tail, Terminal.closeBrace], .block),
     ([Terminal.openBrace, statements, Terminal.closeBrace], .block),
     ([Terminal.openBrace, tail, Terminal.closeBrace], .block),
     ([Terminal.openBrace, Terminal.closeBrace], .block)]

open Nonterminal in
def declarationRules : List Rule :=
  define varStatement [([varDeclaration, Terminal.semicolon], .varStatement)] ++
  define varDeclaration [([varKind, declarators], .varDeclaration)] ++
  define varKind
    [([Terminal.var], .inline), ([Terminal.let], .inline), ([Terminal.const], .inline)] ++
  commaList declarators variableDeclarator ++
  define variableDeclarator
    [([Terminal.ident, Terminal.assign, assignment], .variableDeclarator),
     ([Terminal.ident], .variableDeclarator)] ++
  prefer functionDeclaration
    [([Terminal.function, Terminal.ident, Terminal.openParen, parameterList,
       Terminal.closeParen, block], .functionDeclaration)] ++
  define parameterList [([names], .parameters), ([], .parameters)] ++
  commaList names Terminal.ident

open Nonterminal in
def statementRules : List Rule :=
  define returnStatement
    [([Terminal.return, expression, Terminal.semicolon], .returnStatement),
     ([Terminal.return, Terminal.semicolon], .returnStatement)] ++
  define ifStatement
    [([Terminal.if, Terminal.openParen, expression, Terminal.closeParen, statement,
       Terminal.else, statement], .ifStatement),
     ([Terminal.if, Terminal.openParen, expression, Terminal.closeParen, statement],
       .ifStatement)] ++
  define forStatement
    [([Terminal.for, Terminal.openParen, forInit, Terminal.semicolon, forTest,
       Terminal.semicolon, forUpdate, Terminal.closeParen, statement], .forStatement)] ++
  define forInit [([varDeclaration], .inline), ([expression], .inline), ([], .inline)] ++
  define forTest [([expression], .inline), ([], .inline)] ++
  define forUpdate [([expression], .inline), ([], .inline)] ++
  define forInStatement
    [([Terminal.for, Terminal.openParen, forInLeft, Terminal.in, expression,
       Terminal.closeParen, statement], .forInStatement)] ++
  define forInLeft
    [([varKind, Terminal.ident], .forInDeclaration),
     ([callMember], .target)] ++
  define whileStatement
    [([Terminal.while, Terminal.openParen, expression, Terminal.closeParen, statement],
      .whileStatement)] ++
  define doWhileStatement
    [([Terminal.do, statement, Terminal.while, Terminal.openParen, expression,
       Terminal.closeParen, Terminal.semicolon], .doWhileStatement)] ++
  define breakStatement [([Terminal.break, Terminal.semicolon], .breakStatement)] ++
  define continueStatement [([Terminal.continue, Terminal.semicolon], .continueStatement)] ++
  define throwStatement
    [([Terminal.throw, expression, Terminal.semicolon], .throwStatement)] ++
  define tryStatement
    [([Terminal.try, block, catchClause, finallyClause], .tryCatch),
     ([Terminal.try, block, catchClause], .tryCatch),
     ([Terminal.try, block, finallyClause], .tryFinally)] ++
  define catchClause
    [([Terminal.catch, Terminal.openParen, Terminal.ident, Terminal.closeParen, block],
      .catchClause)] ++
  define finallyClause [([Terminal.finally, block], .inline)] ++
  define emptyStatement [([Terminal.semicolon], .emptyStatement)] ++
  define expressionStatement [([expression, Terminal.semicolon], .expressionStatement)]

open Nonterminal in
def operatorRules : List Rule :=
  oneOf expression [assignment] ++
  define expression [([expression, Terminal.comma, assignment], .sequence)] ++
  oneOf assignment [conditional, arrowFunction] ++
  define assignment
    [([callMember, Terminal.assign, assignment], .assign),
     ([callMember, Terminal.compoundAssign, assignment], .compoundAssign)] ++
  define arrowFunction [([arrowParameters, Terminal.arrow, arrowBody], .arrowFunction)] ++
  define arrowParameters
    [([Terminal.ident], .parameters),
     ([Terminal.openParen, parameterList, Terminal.closeParen], .inline)] ++
  oneOf arrowBody [block, assignment] ++
  oneOf conditional [logicalOr] ++
  define conditional
    [([logicalOr, Terminal.question, assignment, Terminal.colon, assignment], .conditional)] ++
  leftLevel logicalOr logicalAnd .logical [.or] ++
  leftLevel logicalAnd bitwiseOr .logical [.and] ++
  leftLevel bitwiseOr bitwiseXor .binary [.bitOr] ++
  leftLevel bitwiseXor bitwiseAnd .binary [.bitXor] ++
  leftLevel bitwiseAnd equality .binary [.bitAnd] ++
  leftLevel equality relational .binary [.equalityOp] ++
  leftLevel relational shift .binary [.relationalOp, .instanceof, .in] ++
  leftLevel shift additive .binary [.shiftOp] ++
  leftLevel additive multiplicative .binary [.additiveOp] ++
  leftLevel multiplicative unary .binary [.multiplicativeOp] ++
  oneOf unary [suffixed] ++
  define unary
    [([Terminal.additiveOp, unary], .unary),
     ([Terminal.unaryOp, unary], .unary),
     ([Terminal.typeof, unary], .unary),
     ([Terminal.void, unary], .unary),
     ([Terminal.delete, unary], .unary),
     ([Terminal.updateOp, unary], .prefixUpdate)] ++
  oneOf suffixed [callMember] ++
  define suffixed [([callMember, Terminal.updateOp], .postfixUpdate)]

open Nonterminal in
def memberRules : List Rule :=
  oneOf callMember [primary] ++
  define callMember
    [([callMember, Terminal.dot, propertyName], .member),
     ([callMember, Terminal.openBracket, expression, Terminal.closeBracket], .computedMember),
     ([callMember, arguments], .call),
     ([Terminal.new, newCallee, arguments], .new)] ++
  oneOf newCallee [primary] ++
  define newCallee
    [([newCallee, Terminal.dot, propertyName], .member),
     ([newCallee, Terminal.openBracket, expression, Terminal.closeBracket], .computedMember)] ++
  define arguments
    [([Terminal.openParen, assignments, Terminal.closeParen], .inline),
     ([Terminal.openParen, Terminal.closeParen], .inline)] ++
  commaList assignments assignment

open Nonterminal in
def primaryRules : List Rule :=
  define primary
    [([Terminal.this], .inline),
     ([Terminal.ident], .inline),
     ([Terminal.number], .inline),
     ([Terminal.string], .inline),
     ([Terminal.true], .inline),
     ([Terminal.false], .inline),
     ([Terminal.null], .inline)] ++
  oneOf primary [arrayLiteral, objectLiteral, functionExpression] ++
  define primary [([Terminal.openParen, expression, Terminal.closeParen], .inline)] ++
  define functionExpression
    [([Terminal.function, Terminal.ident, Terminal.openParen, parameterList,
       Terminal.closeParen, block], .namedFunctionExpression),
     ([Terminal.function, Terminal.openParen, parameterList, Terminal.closeParen, block],
       .functionExpression)] ++
  define arrayLiteral
    [([Terminal.openBracket, assignments, Terminal.comma, Terminal.closeBracket], .array),
     ([Terminal.openBracket, assignments, Terminal.closeBracket], .array),
     ([Terminal.openBracket, Terminal.comma, Terminal.closeBracket], .array),
     ([Terminal.openBracket, Terminal.closeBracket], .array)] ++
  define objectLiteral
    [([Terminal.openBrace, properties, Terminal.comma, Terminal.closeBrace], .object),
     ([Terminal.openBrace, properties, Terminal.closeBrace], .object),
     ([Terminal.openBrace, Terminal.comma, Terminal.closeBrace], .object),
     ([Terminal.openBrace, Terminal.closeBrace], .object)] ++
  commaList properties property ++
  define property
    [([propertyName, Terminal.colon, assignment], .property),
     ([Terminal.string, Terminal.colon, assignment], .property),
     ([Terminal.number, Terminal.colon, assignment], .property),
     ([Terminal.ident], .shorthand)]

/-- Reserved words name properties too. -/
def propertyNameRules : List Rule :=
  let words : List Terminal :=
    [.ident, .this, .true, .false, .null, .new, .in, .instanceof, .typeof, .void, .delete, .var,
     .let, .const, .function, .return, .if, .else, .for, .while, .do, .break, .continue, .throw,
     .try, .catch, .finally]
  define .propertyName (words.map fun t => ([.terminal t], .keyName))

def grammar : Grammar Token Terminal Nonterminal Form where
  start := .program
  productions := programRules ++ declarationRules ++ statementRules ++ operatorRules ++
    memberRules ++ primaryRules ++ propertyNameRules
  terminal := Token.terminal
  rank n := n.ctorIdx

/-! ## Conditions of the chart parser -/

/-- Whether a nonterminal has an empty production. -/
def canBeEmpty (n : Nonterminal) : Bool :=
  grammar.productions.any fun p => p.head = n && p.body.isEmpty

def beginsEmpty (p : Rule) : Bool :=
  match p.body with
  | .nonterminal n :: _ => canBeEmpty n
  | _ => false

/-- No production begins with a nonterminal that can be empty. -/
theorem head_not_empty : ∀ p ∈ grammar.productions, ∀ n : Nonterminal,
    p.body.head? = some (.nonterminal n) → canBeEmpty n = false := by
  have h : ∀ p ∈ grammar.productions, beginsEmpty p = false := by decide +kernel
  intro p hp n hn
  have hb := h p hp
  cases hbody : p.body with
  | nil => simp [hbody] at hn
  | cons s rest =>
    simp [hbody] at hn
    subst hn
    simpa [beginsEmpty, hbody] using hb

end ArrowFree.Script
