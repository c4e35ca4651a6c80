import ArrowFree.Printer.Pieces
import ArrowFree.SourceMap

/-!
# Printed code

The pieces of a tree are laid out to one text. Each mark gives the source map, if one is wanted, a
mapping from the place that the text has reached.
-/

namespace ArrowFree

/-- Where the next piece stands; both count from zero. -/
structure Layout where
  line : Nat := 0
  column : Nat := 0
  map : Option SourceMap := none
deriving DecidableEq, Repr

namespace Layout

def moveOver (l : Layout) (t : Text) : Layout :=
  let newlines := t.count CodePoint.newline
  if newlines = 0 then { l with column := l.column + t.length }
  else
    { l with
      line := l.line + newlines
      column := (t.reverse.takeWhile (· ≠ CodePoint.newline)).length }

def place (l : Layout) : Piece → Layout
  | .text t => l.moveOver t
  | .mark location name =>
    let mapping : Mapping := ⟨l.line, l.column, location.line - 1, location.column - 1, name⟩
    { l with map := l.map.map (·.add mapping) }

end Layout

/-- Code with the map that goes with it. -/
structure Printed where
  code : Text
  map : Option SourceMap := none
  /-- The number of lines, without the end of the last one. -/
  lines : Nat
deriving DecidableEq, Repr

namespace Printer

def defaultIndent : Text := "  "

def textOf : Piece → Text
  | .text t => t
  | .mark _ _ => []

/-- Code that is not empty ends with a line end. -/
def closeLine (code : Text) : Text :=
  if code.isEmpty || code.getLast? = some CodePoint.newline then code else code ++ "\n"

end Printer

/-- Prints a tree; the mappings are added to the given map. -/
def Tree.print (t : Tree) (map : Option SourceMap := none) (indent : Text := Printer.defaultIndent) :
    Except Fault Printed := do
  let pieces ← Printer.print indent 0 t
  let layout := pieces.foldl Layout.place { map := map }
  return ⟨Printer.closeLine (pieces.flatMap Printer.textOf), layout.map, layout.line + 1⟩

end ArrowFree
