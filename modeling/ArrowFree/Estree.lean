import ArrowFree.Tree.Place

/-!
# Trees as documents

Documents follow the ESTree shape: a node is an object with a `type`, and `loc` holds its place with
columns from zero. Objects without a type and values of any other form are kept as they are.
-/

namespace ArrowFree.Estree

/-! ## Reading locations -/

def asInt : Document → Except Fault Int
  | .scalar (.int i) => .ok i
  | .scalar (.bool b) => .ok (if b then 1 else 0)
  | _ => .error .unsuitable

/-- A member of something that has to be an object. -/
def member (d : Document) (name : Text) : Except Fault Document :=
  match d with
  | .object fields =>
    match valueOf? name fields with
    | some v => .ok v
    | none => .error (.missingKey (some name))
  | _ => .error .unsuitable

/-- An item of a list; a text counts as the list of its characters. -/
def item (d : Document) (n : Nat) : Except Fault Document :=
  match d with
  | .list items => match items[n]? with
    | some v => .ok v
    | none => .error .outOfRange
  | .scalar (.text t) => match t[n]? with
    | some c => .ok (.scalar (.text [c]))
    | none => .error .outOfRange
  | .object _ => .error (.missingKey none)
  | _ => .error .unsuitable

/-- The text of a value; what is no text is described. -/
def asText : Document → Text
  | .scalar (.text t) => t
  | d => d.described

/-- The value of a field, unless it is absent or empty. -/
def filled? (fields : List (Text × Document)) (name : Text) : Option Document :=
  (valueOf? name fields).filter Document.truthy

/-- The location of a node; one without a start has none. An absent end is the start, an absent
source is `file`. Lines, columns and ranges are integers and a source is a text. Other values are not
passed on as they are: where an integer is due they are refused, and a source is turned into its
description. -/
def readLocation (file : Text) (fields : List (Text × Document)) :
    Except Fault (Option Location) :=
  match valueOf? "loc" fields with
  | some (.object loc) =>
    match valueOf? "start" loc with
    | none => .ok none
    | some start => do
      let stop := (filled? loc "end").getD start
      let span := (filled? fields "range").getD
        (.list [.scalar (.int 0), .scalar (.int 0)])
      let file := ((filled? loc "source").map asText).getD file
      let line ← asInt (← member start "line")
      let column ← asInt (← member start "column")
      let first ← asInt (← item span 0)
      let last ← asInt (← item span 1)
      let endLine ← asInt (← member stop "line")
      let endColumn ← asInt (← member stop "column")
      return some ⟨file, line, column + 1, first, last, endLine, endColumn + 1⟩
  | _ => .ok none

/-! ## Reading nodes -/

/-- Fields that describe a node of unknown type and are not kept among its own. -/
def reserved : List Text := ["type", "loc", "range", "start", "end"]

/-- The kind that a type name stands for. A name that is a list or an object is refused. -/
def readKind : Document → Except Fault (Option Kind)
  | .scalar (.text name) => .ok (Kind.ofTypeName? name)
  | .scalar _ => .ok none
  | _ => .error .unsuitable

/-- Generators and asynchronous functions are refused. -/
def checkFlags (k : Kind) (location : Option Location) (fields : List (Text × Document)) :
    Except Fault Unit :=
  let flags := (["generator", "async"] : List Text).filter fun f => (filled? fields f).isSome
  if k.isFunction && ! flags.isEmpty then
    .error (.source {
      message := Text.join " " flags ++ " functions are not supported"
      location := location
      help := some "only plain (non-async, non-generator) functions can be lowered" })
  else .ok ()

/-- The slot of a field that a document gives or leaves out. -/
def fillSlot (f : Field) : Option Tree → Except Fault Tree
  | some t => .ok t
  | none =>
    match f.default with
    | .required => .error .unsuitable
    | .scalar s => .ok (.scalar s)
    | .emptyList => .ok (.list [])

/-- The slots of a known kind: what the document gives is read in the order of the layout, and only
then are the fields that are missing looked at. -/
def readSlots (k : Kind) (parts : List (Text × Except Fault Tree)) : Except Fault (List Tree) := do
  let given ← k.layout.mapM fun f =>
    match valueOf? f.name parts with
    | some r => r.map some
    | none => .ok none
  (k.layout.zip given).mapM fun (f, t) => fillSlot f t

/-- A node from the fields of its object and what they were read as. A literal that is a regular
expression counts as a node of unknown type. -/
def readNode (file : Text) (fields : List (Text × Document))
    (parts : List (Text × Except Fault Tree)) : Except Fault Tree := do
  let type ← match valueOf? "type" fields with
    | some t => .ok t
    | none => .error (.missingKey (some "type"))
  let location ← readLocation file fields
  let kind ← readKind type
  if let some k := kind then checkFlags k location fields
  let regex := (valueOf? "regex" fields).isSome
  match kind.filter fun k => ! (k = .literal && regex) with
  | some k => return .mk k location (← readSlots k parts)
  | none =>
    let own := parts.filter fun p => ! reserved.contains p.1
    let slots ← own.mapM (·.2)
    let type := match type with
      | .scalar s => s
      | _ => .null
    return .node ⟨.unset, location⟩ (.other type (own.map (·.1))) slots

mutual

/-- A value inside a document: objects with a type are nodes. -/
def readValue (file : Text) : Document → Except Fault Tree
  | .scalar s => .ok (.scalar s)
  | .list items => (readItems file items).map .list
  | .object fields =>
    if (valueOf? "type" fields).isSome then readNode file fields (readFields file fields)
    else .ok (.object fields)

def readItems (file : Text) : List Document → Except Fault (List Tree)
  | [] => .ok []
  | d :: ds => do
    let t ← readValue file d
    let ts ← readItems file ds
    return t :: ts

def readFields (file : Text) : List (Text × Document) → List (Text × Except Fault Tree)
  | [] => []
  | (name, d) :: fs => (name, readValue file d) :: readFields file fs

end

/-- The tree of a document, its nodes numbered. The root has to be a node. -/
def read (file : Text) : Document → Except Fault Tree
  | .object fields => (readNode file fields (readFields file fields)).map Tree.numbered
  | _ => .error .unsuitable

/-! ## Writing -/

def flag (name : String) : Text × Document := (name, .scalar (.bool false))

def typeField (s : Shape) : Text × Document := ("type", .scalar s.type)

/-- Fields that functions have in documents besides their own. -/
def functionFlags : Shape → List (Text × Document)
  | .known k =>
    if k.isOrdinaryFunction then [flag "generator", flag "expression", flag "async"]
    else if k.isArrow then [("id", Document.null), flag "generator", flag "async"]
    else []
  | .other .. => []

/-- The first of two positions that is known, positions being nonzero. -/
def known (i j : Int) : Int := if i = 0 then j else i

def position (line column : Int) : Document :=
  .object [("line", .scalar (.int line)), ("column", .scalar (.int column))]

def writeLocation (l : Location) : Document :=
  .object
    [("source", .scalar (.text l.file)),
     ("start", position l.line (l.column - 1)),
     ("end", position (known l.endLine l.line) (max (known l.endColumn l.column - 1) 0))]

def locationFields (located : Bool) (l : Option Location) : List (Text × Document) :=
  match located, l with
  | true, some l => [("loc", writeLocation l)]
  | _, _ => []

mutual

/-- The document of a tree, with the locations of its nodes if asked for. -/
def write (located : Bool) : Tree → Document
  | .scalar s => .scalar s
  | .list items => .list (writeItems located items)
  | .object fields => .object fields
  | .node i s slots =>
    .object (typeField s :: writeSlots located s.fields slots ++ functionFlags s ++
      locationFields located i.location)

def writeItems (located : Bool) : List Tree → List Document
  | [] => []
  | t :: ts => write located t :: writeItems located ts

def writeSlots (located : Bool) : List Field → List Tree → List (Text × Document)
  | f :: fs, t :: ts => (f.name, write located t) :: writeSlots located fs ts
  | _, _ => []

end

end ArrowFree.Estree
