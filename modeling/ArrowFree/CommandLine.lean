import ArrowFree.CommandLine.Arguments
import ArrowFree.Compiler
import ArrowFree.Document.Json
import ArrowFree.Files
import ArrowFree.Text.Utf8

/-!
# The command line

A run as a function of its options, its surroundings and its input: what is written to the two
streams and to files, and the status at the end.
-/

namespace ArrowFree.CommandLine

/-- What a run takes from its surroundings. -/
structure Surroundings where
  /-- The values of the variables that matter. -/
  noColor : Option Text := none
  color : Option Text := none
  dump : Option Text := none
  /-- Messages go to a terminal. -/
  terminal : Bool := false
deriving DecidableEq, Repr

namespace Surroundings

def isSet (value : Option Text) : Bool := value.any (! ·.isEmpty)

/-- Ways to say no to colours. -/
def refusals : List Text := ["0", "false", "no", "never"]

def useColor (s : Surroundings) : Bool :=
  ! isSet s.noColor && ! refusals.contains ((s.color.getD []).map CodePoint.lower) && s.terminal

end Surroundings

/-- Where the script comes from. -/
inductive Input where
  | standard (bytes : List UInt8)
  | named (path : PathName) (entry : Entry)
deriving DecidableEq, Repr

structure Outcome where
  status : Nat
  output : Text := []
  messages : Text := []
  /-- The files to write, in order. -/
  writes : List (PathName × Text) := []
deriving DecidableEq, Repr

def programName : Text := "unarrow"

def complaint (text : Text) : Outcome where
  status := 1
  messages := programName ++ ": error: " ++ text ++ "\n"

/-- The script and its name, or the outcome if a file cannot be read. Bytes of the standard input
that are no text are a fault. -/
def Input.read (o : Options) : Input → Except Fault (Except Outcome (Text × Option Text))
  | .standard bytes =>
    match Utf8.decode bytes with
    | .ok source => .ok (.ok (source, o.sourceFileName))
    | .error _ => .error .undecodable
  | .named path entry =>
    .ok <| match entry with
    | .absent => .error (complaint ("file not found: " ++ path.toText))
    | .directory => .error (complaint ("not a file: " ++ path.toText))
    | .file bytes =>
      match Utf8.decode bytes with
      | .ok source =>
        .ok (Utf8.unifyNewlines source,
          some ((Diagnostic.present o.sourceFileName).getD path.toText))
      | .error problem => .error (complaint ("could not read file: " ++ problem.message))

/-- The files to write for printed code: the code, and the map beside it. -/
def outputFiles (output : PathName) (p : Printed) : List (PathName × Text) :=
  (output, p.code) ::
    match p.map with
    | some m => [(output.parent.append (PathName.ofText m.file), m.toDocument.json)]
    | none => []

/-- What a compilation says before its result. -/
def messagesOf (o : Options) (s : Surroundings) (c : Compilation) : Text :=
  c.events.flatMap (Event.render o.verbose) ++ c.report.printed s.useColor

def mapNotWritten : Text :=
  programName ++ ": warning: source map requested without -o; not written\n"

def conclude (o : Options) (s : Surroundings) (c : Compilation) : Outcome :=
  let messages := messagesOf o s c
  match c.printed with
  | none => { status := 1, messages }
  | some p =>
    match o.output with
    | some output => { status := 0, messages, writes := outputFiles (PathName.ofText output) p }
    | none =>
      { status := 0, output := p.code,
        messages := messages ++ if p.map.isSome then mapNotWritten else [] }

def run (o : Options) (s : Surroundings) (input : Input) : Except Fault Outcome := do
  match ← input.read o with
  | .error outcome => return outcome
  | .ok (source, name) =>
    let c ← compile source
      { fileName := name, mapName := o.sourceMapName, strict := o.strict,
        dump := o.dump || Surroundings.isSet s.dump }
    return conclude o s c

end ArrowFree.CommandLine
