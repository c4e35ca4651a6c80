import ArrowFree.Fault

/-!
# Schedules

Passes that require others are put into an order in which every pass comes after what it requires.
Passes that are ready run first in, first out.
-/

namespace ArrowFree.Schedule

variable {π : Type} [DecidableEq π]

/-- Why there is no order. -/
inductive Problem (π : Type) where
  | unregistered (pass : π) (missing : List π)
  | circular
deriving DecidableEq, Repr

def Problem.message (name : π → Text) : Problem π → Text
  | .unregistered pass missing =>
    name pass ++ " requires unregistered pass(es): " ++ Text.join ", " (missing.map name)
  | .circular => "Circular dependency detected in passes"

/-- The first pass that requires something that is not registered. -/
def firstUnmet (requires : π → List π) (registered : List π) : Option (Problem π) :=
  registered.findSome? fun p =>
    match (requires p).eraseDups.filter fun q => ! registered.contains q with
    | [] => none
    | missing => some (.unregistered p missing)

/-- For each pass how many requirements are still to run, and the passes that are ready. -/
structure State (π : Type) where
  waiting : List (π × Int)
  ready : List π

/-- One requirement fewer for a pass; it is ready when none is left. -/
def release (s : State π) (p : π) : State π :=
  let left := (s.waiting.lookup p).getD 0 - 1
  { waiting := s.waiting.map fun (q, n) => if q = p then (q, left) else (q, n)
    ready := if left = 0 then s.ready ++ [p] else s.ready }

/-- Releases every registered pass that requires the one that has run. -/
def finish (requires : π → List π) (registered : List π) (ran : π) (s : State π) : State π :=
  (registered.filter fun p => (requires p).contains ran).foldl release s

/-- The passes in the order in which they become ready. Each is ready at most once, so that their
number bounds the steps. -/
def drain (requires : π → List π) (registered : List π) : Nat → State π → List π
  | 0, _ => []
  | fuel + 1, s =>
    match s.ready with
    | [] => []
    | p :: ready => p :: drain requires registered fuel (finish requires registered p { s with ready })

def start (requires : π → List π) (registered : List π) : State π :=
  let waiting := registered.eraseDups.map fun p => (p, ((requires p).eraseDups.length : Int))
  { waiting, ready := (waiting.filter fun (_, n) => n = 0).map Prod.fst }

/-- The registered passes in order. A pass that was registered twice never gets its second turn. -/
def order (requires : π → List π) (registered : List π) : Except (Problem π) (List π) :=
  match firstUnmet requires registered with
  | some problem => .error problem
  | none =>
    let ordered := drain requires registered registered.length (start requires registered)
    if ordered.length = registered.length then .ok ordered else .error .circular

end ArrowFree.Schedule
