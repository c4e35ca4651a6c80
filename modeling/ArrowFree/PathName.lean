import ArrowFree.Text

/-!
# Path names

A path name is a list of parts after an optional root. Empty parts and `.` mean nothing and are
dropped; `..` is kept.
-/

namespace ArrowFree

structure PathName where
  /-- Empty if the path is relative; exactly two slashes are a root of their own. -/
  root : Text := []
  parts : List Text := []
deriving DecidableEq, Repr

namespace PathName

def rootOf (t : Text) : Text :=
  match (t.takeWhile fun c : CodePoint => c = '/').length with
  | 0 => []
  | 2 => "//"
  | _ => "/"

def ofText (t : Text) : PathName where
  root := rootOf t
  parts := (Text.splitOn '/' t).filter fun part => ! part.isEmpty && part ≠ "."

/-- The path that means nothing else is `.`. -/
def toText (p : PathName) : Text :=
  if p.root.isEmpty && p.parts.isEmpty then "." else p.root ++ Text.join "/" p.parts

def isAbsolute (p : PathName) : Bool := ! p.root.isEmpty

def parent (p : PathName) : PathName := { p with parts := p.parts.dropLast }

/-- A path taken from another; an absolute one stands for itself. -/
def append (p q : PathName) : PathName :=
  if q.isAbsolute then q else { p with parts := p.parts ++ q.parts }

example : (ofText "./a//b/../c/").toText = "a/b/../c" ∧ (ofText "").toText = "." ∧
    (ofText "///x").toText = "/x" ∧ (ofText "//x").toText = "//x" := by decide

end PathName

end ArrowFree
