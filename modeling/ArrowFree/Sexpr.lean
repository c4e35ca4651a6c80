import ArrowFree.Tree

/-!
# S-expressions of trees

A node is a list of its type and its fields, each field a keyword and a value. The compact form
stands on one line; the pretty form breaks a list that is longer than a line.
-/

namespace ArrowFree

inductive Sexpr where
  | symbol (name : Scalar)
  | atom (s : Scalar)
  | list (items : List Sexpr)
deriving Repr, Inhabited

namespace Sexpr

/-- A symbol of that name. -/
def word (s : Text) : Sexpr := .symbol (.text s)

/-! ## From trees -/

/-- Null and the truth values are symbols. -/
def ofScalar : Scalar → Sexpr
  | .null => word "nil"
  | .bool b => if b then word "true" else word "false"
  | s => .atom s

def keyword (name : Text) : Sexpr := word (":" ++ name)

/-- The place of a node, if it is to be shown. -/
def ofLocation (located : Bool) (l : Option Location) : List Sexpr :=
  match located, l with
  | true, some l => [keyword "loc", .atom (.text l.toText)]
  | _, _ => []

mutual

/-- Plain objects are shown by their description. -/
def ofTree (located : Bool) : Tree → Sexpr
  | .scalar s => ofScalar s
  | .list items => .list (ofItems located items)
  | .object fields => .atom (.text (Document.object fields).described)
  | .node i s slots =>
    .list (.symbol s.type :: ofSlots located s.fields slots ++ ofLocation located i.location)

def ofItems (located : Bool) : List Tree → List Sexpr
  | [] => []
  | t :: ts => ofTree located t :: ofItems located ts

def ofSlots (located : Bool) : List Field → List Tree → List Sexpr
  | f :: fs, t :: ts => keyword f.name :: ofTree located t :: ofSlots located fs ts
  | _, _ => []

end

/-! ## Compact form -/

/-- The characters of a symbol that the compact form puts a backslash before. -/
def escapedInSymbol : Text := "\\'`\"()[] ,?;#"

def escapeSymbol (s : Text) : Text :=
  s.flatMap fun c => if escapedInSymbol.contains c then ['\\', c] else [c]

/-- Texts are quoted, numbers are written out. -/
def atomText : Scalar → Text
  | .text t => t.plainQuoted
  | s => s.described

/-- The name of a symbol; one that is no text is written as in a description. -/
def symbolText : Scalar → Text
  | .text t => t
  | s => s.described

mutual

def compact : Sexpr → Text
  | .symbol s => escapeSymbol (symbolText s)
  | .atom s => atomText s
  | .list items => "(" ++ Text.join " " (compactItems items) ++ ")"

def compactItems : List Sexpr → List Text
  | [] => []
  | e :: es => compact e :: compactItems es

end

/-! ## Pretty form -/

/-- A list that fits into so many columns is not broken. -/
def lineWidth : Nat := 100

def isKeyword : Sexpr → Bool
  | .symbol (.text s) => s.head? = some ':'
  | _ => false

/-- The rows of a broken list: a keyword stands on one row with its value. -/
def rows : List (Sexpr × Text) → List Text
  | [] => []
  | [(_, t)] => [t]
  | (e, k) :: (f, v) :: rest =>
    if isKeyword e then (k ++ " " ++ v) :: rows rest else k :: rows ((f, v) :: rest)

/-- A list from its items as they are written, on one line if that is short enough. -/
def layOut (indent : Nat) (items : List Sexpr) (parts : List Text) : Text :=
  let line := "(" ++ Text.join " " parts ++ ")"
  if line.length ≤ lineWidth && ! line.contains ('\n' : CodePoint) then line
  else
    let margin : Text := "\n" ++ Text.repeated "  " (indent + 1)
    "(" ++ Text.join margin (parts.take 1 ++ rows ((items.zip parts).drop 1)) ++ ")"

mutual

def pretty (indent : Nat) : Sexpr → Text
  | .symbol s => symbolText s
  | .atom s => atomText s
  | .list items => layOut indent items (prettyItems (indent + 1) items)

def prettyItems (indent : Nat) : List Sexpr → List Text
  | [] => []
  | e :: es => pretty indent e :: prettyItems indent es

end

/-! ## Writing a tree -/

mutual

/-- Whether every symbol has a text for a name. -/
def isNamed : Sexpr → Bool
  | .symbol (.text _) => true
  | .symbol _ => false
  | .atom _ => true
  | .list items => areNamed items

def areNamed : List Sexpr → Bool
  | [] => true
  | e :: es => isNamed e && areNamed es

end

end Sexpr

namespace Tree

/-- The S-expression of a tree in the pretty or the compact form. A node type that is no text has
no symbol. -/
def sexpr (located pretty : Bool) (t : Tree) : Except Fault Text :=
  let e := Sexpr.ofTree located t
  if pretty then if e.isNamed then .ok (e.pretty 0) else .error .unsuitable
  else if e.isNamed then .ok e.compact else .error .noAttribute

end Tree

end ArrowFree
