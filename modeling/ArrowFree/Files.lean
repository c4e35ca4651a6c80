import ArrowFree.PathName

/-!
# Files

The files and directories below a working directory, as a value. Nothing is known of what lies
outside of it, but that it is a directory.
-/

namespace ArrowFree

/-- What a path leads to. -/
inductive Entry where
  | absent
  | directory
  | file (bytes : List UInt8)
deriving DecidableEq, Repr

/-- The parts of the path to each file and each directory, from the working directory. -/
structure Files where
  files : List (List Text × List UInt8) := []
  directories : List (List Text) := []
deriving DecidableEq, Repr

namespace Files

/-- A directory is one that is listed, or that something is in. -/
def isDirectory (fs : Files) (parts : List Text) : Bool :=
  parts.isEmpty ||
    (fs.files.map Prod.fst ++ fs.directories.map (· ++ [[]])).any fun p =>
      p.length > parts.length && p.take parts.length = parts

def entryAt (fs : Files) (parts : List Text) : Entry :=
  match fs.files.lookup parts with
  | some bytes => .file bytes
  | none => if fs.isDirectory parts then .directory else .absent

/-- Follows the parts of a path from a place; none is a place outside. Every part but the last has
to lead to a directory. -/
def follow (fs : Files) : Option (List Text) → List Text → Entry
  | none, [] => .directory
  | none, part :: rest => if part = ".." then follow fs none rest else .absent
  | some here, [] => fs.entryAt here
  | some here, part :: rest =>
    if ! fs.isDirectory here then .absent
    else if part = ".." then
      follow fs (if here.isEmpty then none else some here.dropLast) rest
    else follow fs (some (here ++ [part])) rest

def find (fs : Files) (p : PathName) : Entry :=
  fs.follow (if p.isAbsolute then none else some []) p.parts

/-- Where a path leads once all its directories are made; none is outside. -/
def destination (p : PathName) : Option (List Text) :=
  if p.isAbsolute then none
  else
    p.parts.foldl (fun (here : Option (List Text)) (part : Text) =>
      here.bind fun here =>
        if part = ".." then (if here.isEmpty then none else some here.dropLast)
        else some (here ++ [part])) (some [])

def setFile (parts : List Text) (bytes : List UInt8) :
    List (List Text × List UInt8) → List (List Text × List UInt8)
  | [] => [(parts, bytes)]
  | (p, b) :: rest => if p = parts then (p, bytes) :: rest else (p, b) :: setFile parts bytes rest

/-- Writes a file and makes the directories on the way; nothing outside is kept. -/
def write (fs : Files) (p : PathName) (bytes : List UInt8) : Files :=
  match destination p with
  | none => fs
  | some parts => { fs with files := setFile parts bytes fs.files }

/-- The files that are new or different. -/
def changes (before after : Files) : List (List Text × List UInt8) :=
  after.files.filter fun (p, bytes) => before.files.lookup p ≠ some bytes

end Files

end ArrowFree
