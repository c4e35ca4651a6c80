import ArrowFree.Text.Blank
import ArrowFree.Text.DecimalDigit
import ArrowFree.Token

/-!
# From text to tokens

At each place the first rule that matches takes its whole match, even where a later rule would
match more. Blanks and comments give no token. A text that no rule matches ends the tokens.
-/

namespace ArrowFree.Token

/-! ## Rules

A rule gives the length of its match at the start of a text. -/

def countWhile (p : CodePoint → Bool) (t : Text) : Nat := (t.takeWhile p).length

def countDigits (t : Text) : Nat := countWhile CodePoint.isDecimalDigit t

/-- The length of an exponent at the start of a text, or zero. -/
def exponentLength : Text → Nat
  | [] => 0
  | c :: r =>
    if c = 'e' || c = 'E' then
      let sign := match r with
        | [] => 0
        | s :: _ => if s = '+' || s = '-' then 1 else 0
      match countDigits (r.drop sign) with
      | 0 => 0
      | n => 1 + sign + n
    else 0

/-- Digits with an optional point among or after them, or a point before them. -/
def mantissaLength? (t : Text) : Option Nat :=
  let whole := countDigits t
  match t.drop whole with
  | [] => if whole = 0 then none else some whole
  | c :: r =>
    if c = '.' then
      let fraction := countDigits r
      if whole = 0 && fraction = 0 then none else some (whole + 1 + fraction)
    else if whole = 0 then none else some whole

def hexLength? : Text → Option Nat
  | z :: x :: r =>
    if z = '0' && (x = 'x' || x = 'X') then
      match countWhile CodePoint.isHexDigit r with
      | 0 => none
      | n => some (2 + n)
    else none
  | _ => none

def numberLength? (t : Text) : Option Nat :=
  hexLength? t <|> (mantissaLength? t).map fun n => n + exponentLength (t.drop n)

/-- What is left of a string up to its closing quote. A backslash takes the next character with
it, and no line feed stands inside. -/
def stringRest? (quote : CodePoint) : Text → Option Nat
  | [] => none
  | c :: r =>
    if c = quote then some 1
    else if c = '\n' then none
    else if c = '\\' then
      match r with
      | [] => none
      | d :: r' => if d = '\n' then none else (stringRest? quote r').map (2 + ·)
    else (stringRest? quote r).map (1 + ·)

def stringLength? : Text → Option Nat
  | [] => none
  | c :: r => if c = '"' || c = '\'' then (stringRest? c r).map (1 + ·) else none

def isIdentStart (c : CodePoint) : Bool := c.isAsciiLetter || c = '_' || c = '$'

def isIdentPart (c : CodePoint) : Bool := isIdentStart c || c.isAsciiDigit

def identLength? : Text → Option Nat
  | [] => none
  | c :: r => if isIdentStart c then some (1 + countWhile isIdentPart r) else none

/-- What is left of a comment up to its end mark. -/
def commentRest? : Text → Option Nat
  | [] => none
  | [_] => none
  | c :: d :: r => if c = '*' && d = '/' then some 2 else (commentRest? (d :: r)).map (1 + ·)

def blockCommentLength? : Text → Option Nat
  | c :: d :: r => if c = '/' && d = '*' then (commentRest? r).map (2 + ·) else none
  | _ => none

def lineCommentLength? : Text → Option Nat
  | c :: d :: r => if c = '/' && d = '/' then some (2 + countWhile (· ≠ '\n') r) else none
  | _ => none

def blankLength? (t : Text) : Option Nat :=
  match countWhile CodePoint.isBlank t with
  | 0 => none
  | n => some n

/-- The spellings of operators and punctuation; of two that match, the earlier is taken. -/
def marks : List (Terminal × List Text) :=
  [(.compoundAssign, [">>>=", "<<=", ">>=", "-=", "+=", "*=", "/=", "%=", "&=", "|=", "^="]),
   (.equalityOp, ["===", "!==", "==", "!="]),
   (.shiftOp, [">>>", "<<", ">>"]),
   (.relationalOp, ["<=", ">=", "<", ">"]),
   (.updateOp, ["++", "--"]),
   (.and, ["&&"]),
   (.or, ["||"]),
   (.arrow, ["=>"]),
   (.multiplicativeOp, ["*", "/", "%"]),
   (.additiveOp, ["+", "-"]),
   (.unaryOp, ["!", "~"]),
   (.bitAnd, ["&"]),
   (.bitOr, ["|"]),
   (.bitXor, ["^"]),
   (.colon, [":"]),
   (.comma, [","]),
   (.dot, ["."]),
   (.assign, ["="]),
   (.openBrace, ["\x7b"]),
   (.openParen, ["("]),
   (.openBracket, ["["]),
   (.question, ["?"]),
   (.closeBrace, ["\x7d"]),
   (.closeParen, [")"]),
   (.closeBracket, ["]"]),
   (.semicolon, [";"])]

/-- Words that are no identifiers. -/
def keywords : List (Text × Terminal) :=
  [("this", .this), ("true", .true), ("false", .false), ("null", .null), ("new", .new),
   ("in", .in), ("instanceof", .instanceof), ("typeof", .typeof), ("void", .void),
   ("delete", .delete), ("var", .var), ("let", .let), ("const", .const),
   ("function", .function), ("return", .return), ("if", .if), ("else", .else), ("for", .for),
   ("while", .while), ("do", .do), ("break", .break), ("continue", .continue),
   ("throw", .throw), ("try", .try), ("catch", .catch), ("finally", .finally)]

def wordTerminal (t : Text) : Terminal := (keywords.lookup t).getD .ident

/-- The mark at the start of a text, with its length. -/
def mark? (t : Text) : Option (Terminal × Nat) :=
  marks.findSome? fun (k, spellings) =>
    (spellings.find? fun s => s.isPrefixOf t).map fun s => (k, s.length)

/-- The first rule that matches: its terminal, or none for blanks and comments, and its length. -/
def match? (t : Text) : Option (Option Terminal × Nat) :=
  if let some n := numberLength? t then some (some .number, n)
  else if let some n := stringLength? t then some (some .string, n)
  else if let some n := identLength? t then some (some (wordTerminal (t.take n)), n)
  else if let some n := blockCommentLength? t then some (none, n)
  else if let some n := lineCommentLength? t then some (none, n)
  else if let some n := blankLength? t then some (none, n)
  else (mark? t).map fun (k, n) => (some k, n)

/-! ## The lexer -/

/-- The tokens of a text up to its end or to a place where no rule matches. -/
structure Lexed where
  tokens : List Token
  /-- The first character that no rule matches. -/
  stray : Option (CodePoint × Position) := none
deriving DecidableEq, Repr

/-- Every match takes at least one code point, so that the length of the text is fuel enough. -/
def lexFrom : (fuel : Nat) → Position → Text → Lexed
  | 0, _, _ => ⟨[], none⟩
  | _ + 1, _, [] => ⟨[], none⟩
  | fuel + 1, p, c :: r =>
    match match? (c :: r) with
    | none => ⟨[], some (c, p)⟩
    | some (terminal, n) =>
      let lexeme := (c :: r).take n
      let q := p.advance lexeme
      let rest := lexFrom fuel q ((c :: r).drop n)
      match terminal with
      | none => rest
      | some k => { rest with tokens := ⟨k, lexeme, p, q⟩ :: rest.tokens }

def lex (t : Text) : Lexed := lexFrom t.length {} t

example : (lex "a.1").tokens.map (·.text) = [("a" : Text), ".1"] := by decide
example : (lex "/* x").tokens.map (·.terminal) =
    [.multiplicativeOp, .multiplicativeOp, .ident] := by decide

end ArrowFree.Token
