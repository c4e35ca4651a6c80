import ArrowFree.Grammar.Chart
import ArrowFree.Script.Build
import ArrowFree.Token.Lexer
import ArrowFree.Tree.Place

/-!
# Parsing scripts

A script is cut into tokens, the tokens are parsed with the grammar, and the chosen derivation is
made into a tree. A token that cannot follow is reported before a stray character behind it.
-/

namespace ArrowFree.Script

/-- The place just past the last character. -/
def endLocation (file source : Text) : Location :=
  let lines := Text.lines source
  { file := file
    line := lines.length
    column := (lines.getLast?.getD []).length + 1
    start := -1 }

def placeLocation (file : Text) (p : Position) : Location :=
  { file := file, line := p.line, column := p.column, start := p.offset }

def malformed (message : Text) (location : Location) (source : Text) : Fault :=
  .source {
    malformed := true
    message := message
    location := some location
    source := some source }

def strayCharacter (file source : Text) (c : CodePoint) (p : Position) : Fault :=
  malformed ("unexpected character `" ++ [c] ++ "`") (placeLocation file p) source

/-- A slash where an operand belongs can only open a regular expression. -/
def unexpectedToken (file source : Text) (t : Token) : Fault :=
  let hint : Text :=
    if t.text = "/" || t.text = "/=" then ": regular expression literals are not supported" else []
  malformed ("unexpected token `" ++ t.text ++ "`" ++ hint) (placeLocation file t.start) source

def unexpectedEnd (file source : Text) : Fault :=
  malformed "unexpected end of input" (endLocation file source) source

/-- The source is shown with an error that does not have one. -/
def withSource (source : Text) : Fault → Fault
  | .source e => .source { e with source := e.source <|> some source }
  | f => f

/-- The chosen derivation of a script. -/
def derive (file source : Text) : Except Fault Deriv :=
  let lexed := Token.lex source
  match grammar.parse lexed.tokens, lexed.stray with
  | .error (.unexpected t), _ => .error (unexpectedToken file source t)
  | _, some (c, p) => .error (strayCharacter file source c p)
  | .error .incomplete, none => .error (unexpectedEnd file source)
  | .ok d, none => .ok d

/-- The program that a source text denotes, its nodes numbered. An empty file name is accepted:
that locations need one is not checked here. -/
def parse (file source : Text) : Except Fault Tree := do
  let d ← derive file source
  match build file d with
  | .ok b => return (b.trees.headD .null).numbered
  | .error f => .error (withSource source f)

end ArrowFree.Script
