import ArrowFree.Text

/-!
# Blank characters

The code points that count as white space between tokens: those with a bidirectional class of
separator or a category of space separator, and the ASCII controls that end lines or fields.
-/

namespace ArrowFree.CodePoint

/-- White space. The byte order mark and the zero width space are not. -/
def isBlank (c : CodePoint) : Bool :=
  (0x9 ≤ c.val && c.val ≤ 0xD) || (0x1C ≤ c.val && c.val ≤ 0x20) || c.val == 0x85 ||
  c.val == 0xA0 || c.val == 0x1680 || (0x2000 ≤ c.val && c.val ≤ 0x200A) || c.val == 0x2028 ||
  c.val == 0x2029 || c.val == 0x202F || c.val == 0x205F || c.val == 0x3000

example : isBlank '\n' ∧ isBlank ' ' ∧ isBlank 0x3000 ∧ ¬ isBlank 0xFEFF ∧ ¬ isBlank 0x200B := by
  decide

end ArrowFree.CodePoint
