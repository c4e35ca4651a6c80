import ArrowFree.CommandLine

/-!
# The program

Reads what the command line names, runs, and writes what comes of it.
-/

namespace ArrowFree.CommandLine

def usage : String :=
  "usage: unarrow [-h] [-o OUTPUT] [--source-file-name NAME] [--source-map-name NAME] [--strict] " ++
    "[--dump-ast] [-v] [file]"

/-- What a path leads to; all that is no regular file counts as a directory. -/
def lookUp (path : PathName) : IO Entry := do
  let place := System.mkFilePath [path.toText.toString]
  if ! (← place.pathExists) then return .absent
  match (← place.metadata).type with
  | .file => return .file (← IO.FS.readBinFile place).toList
  | _ => return .directory

partial def readAll (stream : IO.FS.Stream) (soFar : ByteArray) : IO ByteArray := do
  let chunk ← stream.read 65536
  if chunk.isEmpty then return soFar
  readAll stream (soFar ++ chunk)

def inputOf (o : Options) : IO Input := do
  match o.file with
  | some name =>
    let path := PathName.ofText name
    return .named path (← lookUp path)
  | none => return .standard (← readAll (← IO.getStdin) .empty).toList

def surroundings : IO Surroundings := do
  let value (name : String) : IO (Option Text) := do
    return (← IO.getEnv name).map Text.ofString
  return {
    noColor := ← value "NO_COLOR"
    color := ← value "UNARROW_COLOR"
    dump := ← value "UNARROW_DUMP_AST"
    terminal := ← (← IO.getStderr).isTty }

/-- Writes a file and makes the directories on the way. -/
def writeOut (path : PathName) (text : Text) : IO Unit := do
  IO.FS.createDirAll (System.mkFilePath [path.parent.toText.toString])
  IO.FS.writeFile (System.mkFilePath [path.toText.toString]) text.toString

def perform (o : Outcome) : IO UInt32 := do
  IO.eprint o.messages.toString
  o.writes.forM fun (path, text) => writeOut path text
  IO.print o.output.toString
  return o.status.toUInt32

end ArrowFree.CommandLine

open ArrowFree
open ArrowFree.CommandLine

def main (args : List String) : IO UInt32 := do
  match Invocation.ofArguments (args.map Text.ofString) with
  | .exit 0 =>
    IO.println usage
    return 0
  | .exit status =>
    IO.eprintln usage
    return status.toUInt32
  | .run options =>
    match run options (← surroundings) (← inputOf options) with
    | .ok outcome => perform outcome
    | .error _ =>
      IO.eprintln "unarrow: error: the input cannot be read"
      return 1
