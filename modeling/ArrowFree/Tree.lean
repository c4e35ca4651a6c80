import ArrowFree.Fault
import ArrowFree.Tree.Kind

/-!
# Syntax trees

A tree is a node with its slots, or a value that a slot can hold beside nodes: scalars, lists and
plain objects. The slots of a node stand in the order of its fields. Nodes of a type that the
library does not know keep the names of their fields in their shape.
-/

namespace ArrowFree

/-- What lowering makes out of a node of the script. -/
inductive Role where
  | functionOf
  | blockOf
  | returnOf
  | callOf
  | memberOf
  | bindNameOf
  | boundThisOf
  | declarationOf
  | declaratorOf
  | bindingNameOf
  | bindingValueOf
deriving DecidableEq, Repr

/-- The identity of a node. Nodes of a script are numbered; a node that lowering makes is told
apart by the node that it was made from and its role. -/
inductive NodeId where
  | unset
  | numbered (n : Nat)
  | renamed (of : NodeId)
  | made (role : Role) (of : NodeId)
deriving DecidableEq, Repr, Inhabited

/-- A node of a known kind, or of any other type with the names of its fields. -/
inductive Shape where
  | known (kind : Kind)
  | other (type : Scalar) (names : List Text)
deriving DecidableEq, Repr, Inhabited

structure Info where
  id : NodeId := .unset
  location : Option Location := none
deriving DecidableEq, Repr, Inhabited

inductive Tree where
  | scalar (s : Scalar)
  | list (items : List Tree)
  | object (fields : List (Text × Document))
  | node (info : Info) (shape : Shape) (slots : List Tree)
deriving Repr, Inhabited

namespace Shape

/-- Every field of a node of unknown type may hold children. -/
def fields : Shape → List Field
  | .known k => k.layout
  | .other _ names => names.map fun n => ⟨n, true, .required⟩

/-- The type as documents name it. -/
def type : Shape → Scalar
  | .known k => .text k.typeName
  | .other t _ => t

end Shape

namespace Tree

/-! ## Building -/

def null : Tree := .scalar .null

def bool (b : Bool) : Tree := .scalar (.bool b)

def text (t : Text) : Tree := .scalar (.text t)

/-- A node of known kind. -/
def mk (k : Kind) (location : Option Location) (slots : List Tree) : Tree :=
  .node ⟨.unset, location⟩ (.known k) slots

def identifier (name : Text) (location : Option Location) : Tree :=
  mk .identifier location [text name]

/-! ## Equality -/

mutual

def decEq : (a b : Tree) → Decidable (a = b)
  | .scalar s, .scalar t =>
    if h : s = t then isTrue (h ▸ rfl) else isFalse fun e => h (Tree.scalar.inj e)
  | .list xs, .list ys =>
    match decEqItems xs ys with
    | isTrue h => isTrue (h ▸ rfl)
    | isFalse h => isFalse fun e => h (Tree.list.inj e)
  | .object xs, .object ys =>
    if h : xs = ys then isTrue (h ▸ rfl) else isFalse fun e => h (Tree.object.inj e)
  | .node i s xs, .node j t ys =>
    if hi : i = j then
      if hs : s = t then
        match decEqItems xs ys with
        | isTrue h => isTrue (hi ▸ hs ▸ h ▸ rfl)
        | isFalse h => isFalse fun e => h (Tree.node.inj e).2.2
      else isFalse fun e => hs (Tree.node.inj e).2.1
    else isFalse fun e => hi (Tree.node.inj e).1
  | .scalar _, .list _ | .scalar _, .object _ | .scalar _, .node .. | .list _, .scalar _
  | .list _, .object _ | .list _, .node .. | .object _, .scalar _ | .object _, .list _
  | .object _, .node .. | .node .., .scalar _ | .node .., .list _ | .node .., .object _ =>
    isFalse (by nofun)

def decEqItems : (a b : List Tree) → Decidable (a = b)
  | [], [] => isTrue rfl
  | [], _ :: _ | _ :: _, [] => isFalse (by nofun)
  | x :: xs, y :: ys =>
    match decEq x y, decEqItems xs ys with
    | isTrue h, isTrue h' => isTrue (h ▸ h' ▸ rfl)
    | isFalse h, _ => isFalse fun e => h (List.cons.inj e).1
    | _, isFalse h => isFalse fun e => h (List.cons.inj e).2

end

instance : DecidableEq Tree := decEq

/-! ## Reading nodes -/

def isNode : Tree → Bool
  | .node .. => true
  | _ => false

def info : Tree → Info
  | .node i _ _ => i
  | _ => {}

def id (t : Tree) : NodeId := t.info.id

def location (t : Tree) : Option Location := t.info.location

/-- The kind of a node of known kind. -/
def kind? : Tree → Option Kind
  | .node _ (.known k) _ => some k
  | _ => none

def is (t : Tree) (k : Kind) : Bool := t.kind? = some k

def type? : Tree → Option Scalar
  | .node _ shape _ => some shape.type
  | _ => none

def isFunction (t : Tree) : Bool := t.kind?.any Kind.isFunction

def isOrdinaryFunction (t : Tree) : Bool := t.kind?.any Kind.isOrdinaryFunction

def isArrow (t : Tree) : Bool := t.kind?.any Kind.isArrow

def isNull : Tree → Bool
  | .scalar .null => true
  | _ => false

def asText? : Tree → Option Text
  | .scalar (.text t) => some t
  | _ => none

/-- Null, false, zero and whatever is empty are not; nodes are. -/
def truthy : Tree → Bool
  | .scalar s => s.truthy
  | .list items => ! items.isEmpty
  | .object fields => ! fields.isEmpty
  | .node .. => true

/-- What a loop over a value runs through: the items of a list, the characters of a text, the names
in an object. -/
def iterate : Tree → Except Fault (List Tree)
  | .list items => .ok items
  | .object fields => .ok (fields.map fun f => text f.1)
  | .scalar (.text t) => .ok (t.map fun c => text [c])
  | _ => .error .unsuitable

/-- The slot of a field. -/
def slot? (name : Text) : List Field → List Tree → Option Tree
  | f :: fs, t :: ts => if f.name = name then some t else slot? name fs ts
  | _, _ => none

/-- An attribute or child of a node of known kind. Nodes of other types have none. -/
def attribute? (t : Tree) (name : Text) : Option Tree :=
  match t with
  | .node _ (.known k) slots => slot? name k.layout slots
  | _ => none

/-- An attribute that the caller counts on. -/
def get (t : Tree) (name : Text) : Except Fault Tree :=
  match t.attribute? name with
  | some v => .ok v
  | none => .error .noAttribute

/-- The name of an identifier; other values have none. -/
def name? (t : Tree) : Option Text :=
  if t.is .identifier then (t.attribute? "name").bind asText? else none

/-- The slots with one field set. -/
def setSlot (name : Text) (v : Tree) : List Field → List Tree → List Tree
  | f :: fs, t :: ts => if f.name = name then v :: ts else t :: setSlot name v fs ts
  | _, ts => ts

/-- The node with one of its fields set. -/
def set (t : Tree) (name : Text) (v : Tree) : Tree :=
  match t with
  | .node i s slots => .node i s (setSlot name v s.fields slots)
  | t => t

end Tree

end ArrowFree
