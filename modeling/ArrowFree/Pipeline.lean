import ArrowFree.Estree
import ArrowFree.Lowering.Apply
import ArrowFree.Pass
import ArrowFree.Sexpr
import ArrowFree.Tree.Visit

/-!
# Running passes

The passes of one run share a session: what the analyses found, the report, and the events. A pass
that fails leaves the session and the tree as they are at that moment.
-/

namespace ArrowFree

structure Session where
  /-- `arguments` that no function provides is an error, not a warning. -/
  strict : Bool := false
  /-- The tree is dumped after each pass of the whole lowering. -/
  dump : Bool := false
  report : Report := {}
  scopes : Option ScopeTable := none
  analysis : Option Lowering.Analysis := none
  events : List Event := []

/-- A session with its tree, and the fault that ended the run. -/
structure Run where
  session : Session
  tree : Tree
  fault : Option Fault := none

namespace Session

def tell (s : Session) (events : List Event) : Session := { s with events := s.events ++ events }

/-! ## Scope analysis -/

def analyzeScopes (s : Session) (t : Tree) : Run :=
  match ScopeTable.ofTree t with
  | .ok scopes => ⟨{ s with scopes := some scopes }.tell [.scoped scopes.size], t, none⟩
  | .error f => ⟨s, t, some f⟩

/-! ## Lowering -/

def unresolvedHelp : Text := "wrap the code in an ordinary function, or use a parameter instead"

/-- The error for a reference that no function provides. -/
def unresolvedError (s : Session) (u : Lowering.Unresolved) : SourceError where
  message := Event.unresolvedMessage
  location := u.location
  code := Code.unresolvedArguments.text
  source := u.location.bind fun l => s.report.sources.lookup l.file
  help := some unresolvedHelp
  label := some "no enclosing function provides `arguments`"

/-- The warning for it. -/
def unresolvedWarning (u : Lowering.Unresolved) : Diagnostic where
  severity := .warning
  message := Event.unresolvedMessage
  location := u.location
  code := some Code.topLevelArguments.text
  help := some unresolvedHelp
  label := some "left untouched"

def warn (s : Session) (u : Lowering.Unresolved) : Session :=
  { s with report := s.report.add (unresolvedWarning u) }.tell [.untouched u.location]

/-- What an analysis tells: the names that it gave, and what it counted. -/
def analysisEvents (root : Tree) (a : Lowering.Analysis) : List Event :=
  a.names.entries.map (fun (id, name) =>
    .named ((((root.find? id).map Lowering.describeTarget).bind Except.toOption).getD []) name) ++
  [.analyzed a.thisCaptures.size a.argumentTargets.size a.hoistedNames.size a.renamed.size]

/-- The arrows of a tree, each after those inside of it. -/
def arrowsInsideOut (t : Tree) : List Tree :=
  (t.visit (m := StateM (List Tree)) (fun _ => pure {}) fun p => do
    if p.node.isArrow then modify (· ++ [p.node])
    return {}).run [] |>.2

def loweringEvents (t : Tree) (a : Lowering.Analysis) : List Event :=
  (arrowsInsideOut t).map fun arrow => .lowered arrow.location (a.capturesThis arrow.id)

def lower (s : Session) (t : Tree) : Run :=
  match s.scopes with
  | none => ⟨s, t, some (.misuse ("Analysis " ++ Pass.scopes.name ++ " not available"))⟩
  | some scopes =>
    match Lowering.analyze scopes t with
    | .error f => ⟨s, t, some f⟩
    | .ok a =>
      let s := { s with analysis := some a }.tell (analysisEvents t a)
      match s.strict, a.unresolved with
      | true, u :: _ => ⟨s, t, some (.source (s.unresolvedError u))⟩
      | _, unresolved =>
        let s := (unresolved.foldl warn s).tell (loweringEvents t a)
        let (lowered, fault) := Lowering.apply a t
        ⟨s, lowered, fault⟩

/-! ## Validation -/

def validate (s : Session) (t : Tree) : Run :=
  match Lowering.validate t with
  | .ok () => ⟨s.tell [.arrowFree], t, none⟩
  | .error f => ⟨s, t, some f⟩

end Session

/-! ## The whole lowering -/

/-- Runs one pass. -/
def Pass.run (p : Pass) (s : Session) (t : Tree) : Run :=
  match p with
  | .scopes => s.analyzeScopes t
  | .lowering => s.lower t
  | .validation => s.validate t

namespace Run

/-- The dump of the tree after a pass, if the session wants one. -/
def dumpAfter (p : Pass) (r : Run) : Run :=
  if r.session.dump && r.fault.isNone then
    match r.tree.sexpr false true with
    | .ok text => { r with session := r.session.tell [.dumped p text] }
    | .error f => { r with fault := some f }
  else r

/-- One more pass, unless the run has failed. -/
def next (r : Run) (p : Pass) : Run :=
  match r.fault with
  | some _ => r
  | none => (p.run (r.session.tell [.started p]) r.tree).dumpAfter p

end Run

/-- Runs all passes in order until one fails. -/
def Session.transform (s : Session) (t : Tree) : Run := Pass.all.foldl Run.next ⟨s, t, none⟩

/-- The tree without arrows. -/
def Tree.withoutArrows (t : Tree) (strict : Bool := false) : Except Fault Tree :=
  let r := Session.transform { strict } t
  match r.fault with
  | none => .ok r.tree
  | some f => .error f

/-- The document without arrows. Locations are written if the root has one. -/
def Document.withoutArrows (d : Document) (strict : Bool := false) : Except Fault Document := do
  let t ← Estree.read "<estree>" d
  let u ← t.withoutArrows strict
  return Estree.write (d.field? "loc").isSome u

end ArrowFree
