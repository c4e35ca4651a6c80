import ArrowFree.Pipeline
import ArrowFree.Printer
import ArrowFree.Script.Parser

/-!
# Compiling

A script is parsed, its arrows are lowered, and the tree is printed. An error in the script becomes
part of the report; only a fault of another kind ends the compilation without a result.
-/

namespace ArrowFree

structure CompileOptions where
  /-- The name of the source in locations and in the map. -/
  fileName : Option Text := none
  /-- The name of the map, if one is wanted. -/
  mapName : Option Text := none
  strict : Bool := false
  dump : Bool := false
deriving DecidableEq, Repr

structure Compilation where
  /-- The result; none if the script is in error. -/
  printed : Option Printed := none
  report : Report
  error : Option SourceError := none
  events : List Event := []

namespace CompileOptions

/-- The name of a source that has none. -/
def defaultFile : Text := "<input>"

def file (o : CompileOptions) : Text := (Diagnostic.present o.fileName).getD defaultFile

/-- The map to fill; an empty name asks for none. -/
def map (o : CompileOptions) : Option SourceMap :=
  (Diagnostic.present o.mapName).map fun name => { file := name, source := o.file }

end CompileOptions

namespace Compilation

def succeeded (c : Compilation) : Bool := c.error.isNone

def hasErrors (c : Compilation) : Bool := c.report.hasErrors || ! c.succeeded

/-- The compilation of a script in error. The error is shown in this source if it has none. -/
def failed (s : Session) (file source : Text) (e : SourceError) : Compilation where
  report := s.report.add e.diagnostic
  error := some { e with source := e.source <|> some source }
  events := s.events ++ [.failed file e.code e.message]

end Compilation

/-- The number of statements of a program. -/
def statementCount (program : Tree) : Nat :=
  match program with
  | .node _ (.known .program) [.list statements] => statements.length
  | _ => 0

/-- Parses and lowers a script. -/
def lowerScript (s : Session) (file source : Text) : Session × Except Fault Tree :=
  match Script.parse file source with
  | .error f => (s, .error f)
  | .ok program =>
    let r := (s.tell [.parsed file (statementCount program)]).transform program
    (r.session, match r.fault with
      | some f => .error f
      | none => .ok r.tree)

def compile (source : Text) (options : CompileOptions := {}) : Except Fault Compilation :=
  let file := options.file
  let start : Session :=
    { strict := options.strict, dump := options.dump, report := { sources := [(file, source)] } }
  match lowerScript start file source with
  | (s, .error (.source e)) => .ok (.failed s file source e)
  | (_, .error f) => .error f
  | (s, .ok tree) => do
    let printed ← tree.print options.map
    return { printed, report := s.report, events := s.events ++ [.printed printed.lines] }

end ArrowFree
