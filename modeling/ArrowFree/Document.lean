import ArrowFree.Number.Shortest
import ArrowFree.Text.Quoted

/-!
# Documents

A document is what syntax trees are exchanged as: scalars, lists, and objects whose fields keep
their order.
-/

namespace ArrowFree

/-- A value without parts. Integers and floating point numbers are different values. -/
inductive Scalar where
  | null
  | bool (b : Bool)
  | int (i : Int)
  | float (x : Binary64)
  | text (t : Text)
deriving DecidableEq, Repr, Inhabited

/-- The value that stands under a name. -/
def valueOf? {α : Type} (name : Text) (entries : List (Text × α)) : Option α := entries.lookup name

inductive Document where
  | scalar (s : Scalar)
  | list (items : List Document)
  | object (fields : List (Text × Document))
deriving Repr, Inhabited

namespace Scalar

/-- The text of a scalar in a description. -/
def described : Scalar → Text
  | .null => "None"
  | .bool b => if b then "True" else "False"
  | .int i => Text.ofInt i
  | .float x => x.toText
  | .text t => t.described

/-- Null, false, zero and the empty text are not. -/
def truthy : Scalar → Bool
  | .null => false
  | .bool b => b
  | .int i => i ≠ 0
  | .float (.finite _ m _) => m ≠ 0
  | .float _ => true
  | .text t => ! t.isEmpty

end Scalar

namespace Document

def null : Document := .scalar .null

mutual

/-- Lists in brackets, objects in braces, texts quoted. -/
def described : Document → Text
  | .scalar s => s.described
  | .list items => "[" ++ Text.join ", " (describedItems items) ++ "]"
  | .object fields => "\x7b" ++ Text.join ", " (describedFields fields) ++ "\x7d"

def describedItems : List Document → List Text
  | [] => []
  | d :: ds => described d :: describedItems ds

def describedFields : List (Text × Document) → List Text
  | [] => []
  | (name, d) :: fs => (name.described ++ ": " ++ described d) :: describedFields fs

end

/-! ## Equality -/

mutual

def decEq : (a b : Document) → Decidable (a = b)
  | .scalar s, .scalar t =>
    if h : s = t then isTrue (h ▸ rfl) else isFalse fun e => h (Document.scalar.inj e)
  | .list xs, .list ys =>
    match decEqItems xs ys with
    | isTrue h => isTrue (h ▸ rfl)
    | isFalse h => isFalse fun e => h (Document.list.inj e)
  | .object xs, .object ys =>
    match decEqFields xs ys with
    | isTrue h => isTrue (h ▸ rfl)
    | isFalse h => isFalse fun e => h (Document.object.inj e)
  | .scalar _, .list _ | .scalar _, .object _ | .list _, .scalar _ | .list _, .object _
  | .object _, .scalar _ | .object _, .list _ => isFalse (by nofun)

def decEqItems : (a b : List Document) → Decidable (a = b)
  | [], [] => isTrue rfl
  | [], _ :: _ | _ :: _, [] => isFalse (by nofun)
  | x :: xs, y :: ys =>
    match decEq x y, decEqItems xs ys with
    | isTrue h, isTrue h' => isTrue (h ▸ h' ▸ rfl)
    | isFalse h, _ => isFalse fun e => h (List.cons.inj e).1
    | _, isFalse h => isFalse fun e => h (List.cons.inj e).2

def decEqFields : (a b : List (Text × Document)) → Decidable (a = b)
  | [], [] => isTrue rfl
  | [], _ :: _ | _ :: _, [] => isFalse (by nofun)
  | (n, x) :: xs, (m, y) :: ys =>
    if hn : n = m then
      match decEq x y, decEqFields xs ys with
      | isTrue h, isTrue h' => isTrue (hn ▸ h ▸ h' ▸ rfl)
      | isFalse h, _ => isFalse fun e => h (Prod.mk.inj (List.cons.inj e).1).2
      | _, isFalse h => isFalse fun e => h (List.cons.inj e).2
    else isFalse fun e => hn (Prod.mk.inj (List.cons.inj e).1).1

end

instance : DecidableEq Document := decEq

/-! ## Fields -/

/-- The value of a field of an object. -/
def field? (name : Text) : Document → Option Document
  | .object fields => valueOf? name fields
  | _ => none

def truthy : Document → Bool
  | .scalar s => s.truthy
  | .list items => ! items.isEmpty
  | .object fields => ! fields.isEmpty

end Document

end ArrowFree
