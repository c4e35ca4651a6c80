import ArrowFree.Location

/-!
# Diagnostics

A diagnostic is rendered as a header, an arrow to its location, the source line with carets under
the place, and annotations. A report renders its diagnostics in order and counts the errors.
-/

namespace ArrowFree

inductive Severity where
  | error
  | warning
deriving DecidableEq, Repr

structure Diagnostic where
  severity : Severity := .error
  message : Text
  location : Option Location := none
  code : Option Text := none
  help : Option Text := none
  note : Option Text := none
  label : Option Text := none
deriving DecidableEq, Repr

/-- The texts of the source files, by name. -/
abbrev Sources := List (Text × Text)

/-- Codes of the diagnostics and of the faults in this library itself. -/
inductive Code where
  | invalidSource
  | unresolvedArguments
  | topLevelArguments
  | unprintable
  | arrowSurvived
  | unexpected
deriving DecidableEq, Repr

def Code.text : Code → Text
  | .invalidSource => "E0001"
  | .unresolvedArguments => "E0002"
  | .topLevelArguments => "W0001"
  | .unprintable => "E9001"
  | .arrowSurvived => "E9002"
  | .unexpected => "E9999"

def Severity.text : Severity → Text
  | .error => "error"
  | .warning => "warning"

namespace Diagnostic

/-! ## Styles of a terminal -/

inductive Style where
  | bold
  | red
  | blue
  | cyan
  | yellow

def escape : CodePoint := CodePoint.ofNat 0x1B

def Style.code : Style → Text
  | .bold => [escape] ++ "[1m"
  | .red => [escape] ++ "[31m"
  | .blue => [escape] ++ "[34m"
  | .cyan => [escape] ++ "[36m"
  | .yellow => [escape] ++ "[33m"

/-- The text between the codes that switch the styles on and off. -/
def styled (color : Bool) (styles : List Style) (t : Text) : Text :=
  if color then styles.flatMap Style.code ++ t ++ ([escape] ++ "[0m") else t

/-! ## Rendering -/

def tint (d : Diagnostic) : Style :=
  match d.severity with
  | .error => .red
  | .warning => .yellow

/-- An empty annotation counts as absent. -/
def present (t : Option Text) : Option Text := t.filter fun t => ! t.isEmpty

def spaces (n : Nat) : Text := List.replicate n (' ' : CodePoint)

def header (color : Bool) (d : Diagnostic) : Text :=
  let code : Text := match present d.code with
    | some c => "[" ++ c ++ "]"
    | none => []
  styled color [.bold, d.tint] (d.severity.text ++ code) ++ styled color [.bold] (": " ++ d.message)

/-- One line for the help and one for the note, after an empty gutter. -/
def annotations (color : Bool) (gutter : Nat) (d : Diagnostic) : List Text :=
  let line (title : Text) (t : Text) : Text :=
    styled color [.bold, .cyan] (spaces (gutter + 1) ++ "= ") ++ styled color [.bold] title ++ t
  let help := (present d.help).map (line "help: ")
  let note := (present d.note).map (line "note: ")
  match help, note with
  | none, none => []
  | _, _ => styled color [.bold, .blue] (spaces (gutter + 1) ++ "|") :: help.toList ++ note.toList

/-- Characters at which a token is taken to end when its end is unknown. -/
def endsToken (c : CodePoint) : Bool :=
  (" \t;,)]\x7d." : Text).contains c

/-- The length of what stands at a column of a line, at least one. -/
def tokenLength (line : Text) (column : Nat) : Nat :=
  max 1 ((line.drop column).takeWhile fun c => ! endsToken c).length

/-- The source line of a location; lines outside the source are empty. -/
def sourceLine (source : Text) (line : Int) : Text :=
  if 1 ≤ line then ((Text.lines source)[(line - 1).toNat]?).getD [] else []

/-- How many carets stand under a location. -/
def caretCount (l : Location) (line : Text) (column : Nat) : Nat :=
  if l.endLine = l.line && l.column < l.endColumn then max 1 (l.endColumn - l.column).toNat
  else tokenLength line column

/-- The rows that show a location in its source. -/
def excerpt (color : Bool) (d : Diagnostic) (l : Location) (source : Text) : List Text :=
  let number := Text.ofInt l.line
  let gutter := number.length
  let line := sourceLine source l.line
  let column := (max l.column 1 - 1).toNat
  let carets := spaces column ++ List.replicate (caretCount l line column) ('^' : CodePoint)
  let label : Text := match present d.label with
    | some t => " " ++ t
    | none => []
  [styled color [.bold, .blue] (spaces gutter ++ "--> ") ++ l.toText,
   styled color [.bold, .blue] (spaces (gutter + 1) ++ "|"),
   styled color [.bold, .blue] (number ++ " | ") ++ line,
   styled color [.bold, .blue] (spaces (gutter + 1) ++ "| ") ++
     styled color [.bold, d.tint] (carets ++ label)] ++
  annotations color gutter d

/-- A diagnostic whose source is known shows it; any other only names the place. -/
def render (sources : Sources) (color : Bool) (d : Diagnostic) : Text :=
  let arrow := styled color [.bold, .blue] " --> "
  let body :=
    match d.location with
    | none => (arrow ++ Location.describe none) :: annotations color 1 d
    | some l =>
      match sources.lookup l.file with
      | none => (arrow ++ l.toText) :: annotations color 1 d
      | some source => excerpt color d l source
  Text.join "\n" (header color d :: body)

end Diagnostic

/-- The diagnostics of one run over known sources. -/
structure Report where
  sources : Sources := []
  diagnostics : List Diagnostic := []

namespace Report

def add (r : Report) (d : Diagnostic) : Report := { r with diagnostics := r.diagnostics ++ [d] }

def errors (r : Report) : List Diagnostic := r.diagnostics.filter (·.severity = .error)

def warnings (r : Report) : List Diagnostic := r.diagnostics.filter (·.severity = .warning)

def hasErrors (r : Report) : Bool := r.diagnostics.any (·.severity = .error)

def hasWarnings (r : Report) : Bool := r.diagnostics.any (·.severity = .warning)

/-- The last line of a report that has errors. -/
def summary (color : Bool) (count : Nat) : Text :=
  Diagnostic.styled color [.bold, .red] "error" ++
  Diagnostic.styled color [.bold]
    (": aborting due to " ++ Text.ofNat count ++ " previous error" ++
      (if count = 1 then [] else "s" : Text))

/-- All diagnostics in order, an empty line between each two, and the summary. -/
def render (r : Report) (color : Bool) : Text :=
  let parts := r.diagnostics.map (Diagnostic.render r.sources color)
  let count := r.errors.length
  Text.join "\n\n" (parts ++ if count = 0 then [] else [summary color count])

/-- What is printed of a report: nothing if it is empty. -/
def printed (r : Report) (color : Bool) : Text :=
  if r.diagnostics.isEmpty then [] else r.render color ++ "\n"

end Report

end ArrowFree
