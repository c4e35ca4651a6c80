import ArrowFree.Document
import ArrowFree.Vlq

/-!
# Source maps

A source map says for places of a generated text which place of its source they come from. Lines
and columns count from zero. The mappings are written as one text: `;` ends a generated line, `,`
parts the segments of a line, and a segment holds differences to the segment before it.
-/

namespace ArrowFree

/-- A place of the generated text and the place that it comes from. -/
structure Mapping where
  line : Int
  column : Int
  sourceLine : Int
  sourceColumn : Int
  name : Option Text := none
deriving DecidableEq, Repr

structure SourceMap where
  file : Text
  source : Text
  mappings : List Mapping := []
  /-- The names of the mappings, each once, in the order in which they came. -/
  names : List Text := []
deriving DecidableEq, Repr

namespace SourceMap

def withName (m : SourceMap) : Option Text → SourceMap
  | none => m
  | some name => if m.names.contains name then m else { m with names := m.names ++ [name] }

/-- The first mapping at a generated place stays, but one without a name gives way to one with a
name for the same place of the source. -/
def add (m : SourceMap) (new : Mapping) : SourceMap :=
  match m.mappings.getLast? with
  | some last =>
    if (last.line, last.column) = (new.line, new.column) then
      if last.name.isNone && new.name.isSome &&
          (last.sourceLine, last.sourceColumn) = (new.sourceLine, new.sourceColumn) then
        { m.withName new.name with mappings := m.mappings.dropLast ++ [new] }
      else m
    else { m.withName new.name with mappings := m.mappings ++ [new] }
  | none => { m.withName new.name with mappings := [new] }

/-! ## Writing -/

/-- What the differences of the next segment are taken to. -/
structure Cursor where
  line : Int := 0
  column : Int := 0
  sourceLine : Int := 0
  sourceColumn : Int := 0
  name : Nat := 0
  /-- No segment stands on the line yet. -/
  fresh : Bool := true
deriving DecidableEq, Repr

/-- Moves to the line of a mapping. -/
def Cursor.toLine (c : Cursor) (line : Int) : Cursor :=
  if c.line < line then { c with line := line, column := 0, fresh := true } else c

/-- The text before the segment of a mapping. -/
def Cursor.separator (c : Cursor) (line : Int) : Text :=
  if c.line < line then Text.repeated ";" (line - c.line).toNat
  else if c.fresh then [] else ","

/-- Moves past a mapping. -/
def Cursor.past (c : Cursor) (names : List Text) (m : Mapping) : Cursor where
  line := c.line
  column := m.column
  sourceLine := m.sourceLine
  sourceColumn := m.sourceColumn
  name := match m.name with
    | some name => names.idxOf name
    | none => c.name
  fresh := false

/-- The numbers of a segment; the second stands for the one source. -/
def Cursor.differences (c : Cursor) (names : List Text) (m : Mapping) : List Int :=
  [m.column - c.column, 0, m.sourceLine - c.sourceLine, m.sourceColumn - c.sourceColumn] ++
    match m.name with
    | some name => [(names.idxOf name : Int) - c.name]
    | none => []

def encodeFrom (names : List Text) (c : Cursor) : List Mapping → Text
  | [] => []
  | m :: ms =>
    let here := c.toLine m.line
    c.separator m.line ++ (here.differences names m).flatMap Vlq.encode ++
      encodeFrom names (here.past names m) ms

def precedes (a b : Mapping) : Bool :=
  a.line < b.line || (a.line = b.line && a.column ≤ b.column)

/-- The mappings in the order of the generated text, as one text. -/
def encoded (m : SourceMap) : Text :=
  encodeFrom m.names {} (m.mappings.mergeSort precedes)

def version : Int := 3

def toDocument (m : SourceMap) : Document :=
  .object
    [("version", .scalar (.int version)),
     ("file", .scalar (.text m.file)),
     ("sources", .list [.scalar (.text m.source)]),
     ("names", .list (m.names.map fun name => .scalar (.text name))),
     ("mappings", .scalar (.text m.encoded))]

/-! ## Reading -/

/-- A segment as it is read: sources and names are given by their index. -/
structure Segment where
  line : Nat
  column : Int
  source : Int
  sourceLine : Int
  sourceColumn : Int
  name : Option Int
deriving DecidableEq, Repr

/-- What the differences of the next segment are added to. -/
structure Origin where
  column : Int := 0
  source : Int := 0
  sourceLine : Int := 0
  sourceColumn : Int := 0
  name : Int := 0
deriving DecidableEq, Repr

/-- A segment with fewer than four numbers has no source; it only moves the column. -/
def readSegment (line : Nat) (o : Origin) : List Int → Except Fault (Origin × Option Segment)
  | [] => .error .outOfRange
  | column :: source :: sourceLine :: sourceColumn :: more =>
    let o := { o with
      column := o.column + column
      source := o.source + source
      sourceLine := o.sourceLine + sourceLine
      sourceColumn := o.sourceColumn + sourceColumn
      name := o.name + more.headD 0 }
    let name := more.head?.map fun _ => o.name
    .ok (o, some ⟨line, o.column, o.source, o.sourceLine, o.sourceColumn, name⟩)
  | column :: _ => .ok ({ o with column := o.column + column }, none)

def decodeLine (line : Nat) (o : Origin) : List Text → Except Fault (Origin × List Segment)
  | [] => .ok (o, [])
  | part :: parts => do
    let (o, segment) ← readSegment line o (← Vlq.decode part)
    let (o, segments) ← decodeLine line o parts
    return (o, segment.toList ++ segments)

def decodeLines (line : Nat) (o : Origin) : List Text → Except Fault (List Segment)
  | [] => .ok []
  | group :: groups => do
    let parts := (Text.splitOn ',' group).filter (!·.isEmpty)
    let (o, segments) ← decodeLine line { o with column := 0 } parts
    let rest ← decodeLines (line + 1) o groups
    return segments ++ rest

/-- The segments of written mappings. -/
def decode (mappings : Text) : Except Fault (List Segment) :=
  decodeLines 0 {} (Text.splitOn ';' mappings)

end SourceMap

end ArrowFree
