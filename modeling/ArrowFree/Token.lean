import ArrowFree.Text

/-!
# Tokens

A token is a piece of a script with its terminal and its place. The terminals are the alphabet of
the grammar.
-/

namespace ArrowFree

inductive Terminal where
  | number
  | string
  | ident
  | «this»
  | «true»
  | «false»
  | null
  | new
  | «in»
  | instanceof
  | typeof
  | void
  | delete
  | var
  | «let»
  | const
  | function
  | «return»
  | «if»
  | «else»
  | «for»
  | while
  | «do»
  | «break»
  | «continue»
  | throw
  | «try»
  | «catch»
  | «finally»
  | compoundAssign
  | equalityOp
  | shiftOp
  | relationalOp
  | updateOp
  | and
  | or
  | arrow
  | multiplicativeOp
  | additiveOp
  | unaryOp
  | bitAnd
  | bitOr
  | bitXor
  | colon
  | comma
  | dot
  | assign
  | openBrace
  | openParen
  | openBracket
  | question
  | closeBrace
  | closeParen
  | closeBracket
  | semicolon
deriving DecidableEq, Repr, Inhabited

/-- A place in a text: lines and columns from one, the offset from zero. -/
structure Position where
  line : Nat := 1
  column : Nat := 1
  offset : Nat := 0
deriving DecidableEq, Repr, Inhabited

namespace Position

/-- The place after one more code point; only a line feed ends a line. -/
def step (p : Position) (c : CodePoint) : Position :=
  if c = '\n' then ⟨p.line + 1, 1, p.offset + 1⟩ else ⟨p.line, p.column + 1, p.offset + 1⟩

def advance (p : Position) (t : Text) : Position := t.foldl step p

theorem advance_append (p : Position) (s t : Text) :
    p.advance (s ++ t) = (p.advance s).advance t := by
  simp [advance, List.foldl_append]

theorem offset_advance (p : Position) (t : Text) :
    (p.advance t).offset = p.offset + t.length := by
  induction t generalizing p with
  | nil => rfl
  | cons c t ih =>
    have h : (p.step c).offset = p.offset + 1 := by unfold step; split <;> rfl
    have := ih (p.step c)
    simp only [advance, List.foldl_cons, List.length_cons] at this ⊢
    omega

end Position

structure Token where
  terminal : Terminal
  text : Text
  start : Position
  stop : Position
deriving DecidableEq, Repr, Inhabited

end ArrowFree
