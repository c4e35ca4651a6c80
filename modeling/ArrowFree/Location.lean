import ArrowFree.Text

/-!
# Source locations

Lines and columns count from one, offsets from zero. A location that ends where it starts, or whose
end is unknown, has zeros there.
-/

namespace ArrowFree

structure Location where
  file : Text
  line : Int
  column : Int
  start : Int := 0
  stop : Int := 0
  endLine : Int := 0
  endColumn : Int := 0
deriving DecidableEq, Repr, Inhabited

namespace Location

/-- File, line and column. -/
def toText (l : Location) : Text := l.file ++ ":" ++ Text.ofInt l.line ++ ":" ++ Text.ofInt l.column

/-- What a message says of a place that may be unknown. -/
def describe : Option Location → Text
  | some l => l.toText
  | none => "<unknown location>"

end Location

end ArrowFree
