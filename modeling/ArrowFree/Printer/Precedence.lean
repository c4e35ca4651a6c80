import ArrowFree.Literal

/-!
# Precedence and parentheses

How tightly expressions bind, and which of them need parentheses where they stand.
-/

namespace ArrowFree.Printer

/-! ## Levels, loosest first -/

def sequenceLevel : Nat := 0
def assignmentLevel : Nat := 1
def conditionalLevel : Nat := 2
def unaryLevel : Nat := 14
def suffixLevel : Nat := 15
def callLevel : Nat := 17
def primaryLevel : Nat := 18

/-- The levels of the binary operators. -/
def binaryLevels : List (Text × Nat) :=
  [("||", 3), ("&&", 4), ("|", 5), ("^", 6), ("&", 7),
   ("==", 8), ("!=", 8), ("===", 8), ("!==", 8),
   ("<", 9), (">", 9), ("<=", 9), (">=", 9), ("in", 9), ("instanceof", 9),
   ("<<", 10), (">>", 10), (">>>", 10), ("+", 11), ("-", 11),
   ("*", 12), ("/", 12), ("%", 12)]

/-- The level of a binary operator that has one. -/
def binaryLevel : Tree → Except Fault Nat
  | .scalar (.text op) =>
    match binaryLevels.lookup op with
    | some n => .ok n
    | none => .error (.missingKey (some op))
  | .list _ | .object _ => .error .unsuitable
  | _ => .error (.missingKey none)

/-- The level of an expression; whatever is no operator expression binds tightest. -/
def precedence : Tree → Except Fault Nat
  | .node _ (.known .sequenceExpression) _ => .ok sequenceLevel
  | .node _ (.known .assignmentExpression) _ => .ok assignmentLevel
  | .node _ (.known .arrowFunctionExpression) _ => .ok assignmentLevel
  | .node _ (.known .conditionalExpression) _ => .ok conditionalLevel
  | .node _ (.known .binaryExpression) (op :: _) => binaryLevel op
  | .node _ (.known .logicalExpression) (op :: _) => binaryLevel op
  | .node _ (.known .unaryExpression) _ => .ok unaryLevel
  | .node _ (.known .updateExpression) [_, _, before] =>
    .ok (if before.truthy then unaryLevel else suffixLevel)
  | .node _ (.known .callExpression) _ => .ok callLevel
  | .node _ (.known .memberExpression) _ => .ok callLevel
  | .node _ (.known .newExpression) _ => .ok callLevel
  | _ => .ok primaryLevel

/-! ## Parentheses -/

/-- Characters that show a number to be no plain integer. -/
def marksNumber (c : CodePoint) : Bool := (".eExX" : Text).contains c

def hasNumberMark : Tree → Except Fault Bool
  | .scalar (.text raw) => .ok (raw.any marksNumber)
  | .list items => .ok (items.any fun t => t.asText?.any fun s => s.length = 1 && s.any marksNumber)
  | .object fields => .ok (fields.any fun f => f.1.length = 1 && f.1.any marksNumber)
  | _ => .error .unsuitable

def isNumber : Tree → Bool
  | .scalar (.int _) | .scalar (.float _) => true
  | _ => false

/-- An integer literal whose digits would swallow a point behind them. -/
def isBareInteger : Tree → Except Fault Bool
  | .node _ (.known .literal) [value, raw] =>
    if isNumber value then do
      let text ← if raw.isNull then (Literal.write value).map Tree.text else .ok raw
      return ! (← hasNumberMark text)
    else .ok false
  | _ => .ok false

/-- Whether a chain of members begins with a call. -/
def containsCall : Tree → Bool
  | .node _ (.known .memberExpression) (object :: _) => containsCall object
  | .node _ (.known .callExpression) _ => true
  | _ => false

/-- Whether an expression needs parentheses in a field of a parent of that kind; `operator` is the
parent's first slot. -/
def needsParens (parent : Kind) (operator : Tree) (field : Text) (child : Tree) :
    Except Fault Bool := do
  let level ← precedence child
  match parent with
  | .binaryExpression | .logicalExpression =>
    let parentLevel ← binaryLevel operator
    return if field = "left" then level < parentLevel else level ≤ parentLevel
  | .assignmentExpression => return field = "right" && level < assignmentLevel
  | .conditionalExpression =>
    return if field = "test" then level ≤ conditionalLevel else level < assignmentLevel
  | .unaryExpression => return level < unaryLevel
  | .updateExpression => return level < callLevel
  | .callExpression =>
    return child.is .functionExpression || child.is .arrowFunctionExpression || level < callLevel
  | .memberExpression =>
    if child.is .functionExpression || child.is .arrowFunctionExpression then return true
    if ← isBareInteger child then return true
    return level < callLevel
  | .newExpression =>
    return level < callLevel || containsCall child || child.is .functionExpression
  | _ => return false

/-- Goes on with the first subexpression, unless parentheses hide how it begins. -/
def throughParens (parent : Kind) (operator : Tree) (field : Text) (child : Tree)
    (inside : Except Fault Bool) : Except Fault Bool :=
  match child with
  | .list _ => inside
  | child => do
    if ← needsParens parent operator field child then return false
    inside

/-- Whether an expression begins with a brace, or with `function` if that counts, which would make
it a block or a declaration at the start of a statement. -/
def beginsLikeStatement (functions : Bool) : Tree → Except Fault Bool
  | .list [] => .error .outOfRange
  | .list (t :: _) => beginsLikeStatement functions t
  | .node _ (.known .objectExpression) _ => .ok true
  | .node _ (.known .functionExpression) _ => .ok functions
  | .node _ (.known .updateExpression) [op, argument, before] =>
    if before.truthy then .ok false
    else throughParens .updateExpression op "argument" argument
      (beginsLikeStatement functions argument)
  | .node _ (.known .callExpression) [callee, _] =>
    throughParens .callExpression .null "callee" callee (beginsLikeStatement functions callee)
  | .node _ (.known .memberExpression) [object, _, _] =>
    throughParens .memberExpression .null "object" object (beginsLikeStatement functions object)
  | .node _ (.known .binaryExpression) [op, left, _] =>
    throughParens .binaryExpression op "left" left (beginsLikeStatement functions left)
  | .node _ (.known .logicalExpression) [op, left, _] =>
    throughParens .logicalExpression op "left" left (beginsLikeStatement functions left)
  | .node _ (.known .assignmentExpression) [op, left, _] =>
    throughParens .assignmentExpression op "left" left (beginsLikeStatement functions left)
  | .node _ (.known .conditionalExpression) [test, _, _] =>
    throughParens .conditionalExpression .null "test" test (beginsLikeStatement functions test)
  | .node _ (.known .sequenceExpression) [expressions] =>
    throughParens .sequenceExpression .null "expressions" expressions
      (beginsLikeStatement functions expressions)
  | _ => .ok false

/-- As `beginsLikeStatement` for what stands in the place of one expression. -/
def opensLikeStatement (functions : Bool) (t : Tree) : Except Fault Bool :=
  match t with
  | .list _ => .ok false
  | t => beginsLikeStatement functions t

end ArrowFree.Printer
