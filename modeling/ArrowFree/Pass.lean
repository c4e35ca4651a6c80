import ArrowFree.Schedule

/-!
# Passes

The three passes of the lowering and the events that they tell of.
-/

namespace ArrowFree

inductive Pass where
  | scopes
  | lowering
  | validation
deriving DecidableEq, Repr

namespace Pass

def name : Pass → Text
  | .scopes => "ScopeAnalysisPass"
  | .lowering => "ArrowFunctionLoweringPass"
  | .validation => "ArrowFreeValidationPass"

def requires : Pass → List Pass
  | .scopes => []
  | .lowering => [.scopes]
  | .validation => [.lowering]

/-- The whole lowering. -/
def all : List Pass := [.scopes, .lowering, .validation]

end Pass

/-- What a run tells of itself on the way. -/
inductive Event where
  | parsed (file : Text) (statements : Nat)
  | started (pass : Pass)
  | scoped (scopes : Nat)
  | named (target name : Text)
  | analyzed (arrows references targets identifiers : Nat)
  | untouched (location : Option Location)
  | lowered (location : Option Location) (bound : Bool)
  | arrowFree
  | printed (lines : Nat)
  | failed (file code message : Text)
  /-- The tree after a pass. -/
  | dumped (pass : Pass) (tree : Text)
deriving DecidableEq, Repr

namespace Event

/-- The message about `arguments` that no function provides. -/
def unresolvedMessage : Text := "`arguments` used in an arrow function outside any function"

def rule : Text := Text.repeated "=" 80

/-- The part of the program that speaks. -/
def speaker : Event → Text
  | .parsed .. => "unarrow.frontend.parser"
  | .started _ | .dumped .. => "unarrow.passes.base"
  | .scoped _ => "unarrow.passes.scope_analysis"
  | .named .. => "unarrow.analysis.arguments_hoister"
  | .analyzed .. | .untouched _ | .lowered .. => "unarrow.passes.arrow_lowering"
  | .arrowFree => "unarrow.passes.validation"
  | .printed _ => "unarrow.backends.javascript"
  | .failed .. => "unarrow.compiler.driver"

/-- Only what is left untouched is worth a warning. -/
def isWarning : Event → Bool
  | .untouched _ => true
  | _ => false

def message : Event → Text
  | .parsed file n => "Parsed " ++ file ++ ": " ++ Text.ofNat n ++ " top-level statements"
  | .started pass => "Running " ++ pass.name
  | .scoped n => "Scope analysis: " ++ Text.ofNat n ++ " scopes"
  | .named target name => "Generated arguments binding name for " ++ target ++ ": " ++ name
  | .analyzed arrows references targets identifiers =>
    "Arrow analysis: " ++ Text.ofNat arrows ++ " arrows, " ++
      Text.ofNat references ++ " hoisted `arguments` references, " ++
      Text.ofNat targets ++ " target functions, " ++
      Text.ofNat identifiers ++ " renamed `arguments` variable identifiers"
  | .untouched location =>
    unresolvedMessage ++ " at " ++ Location.describe location ++ "; left untouched"
  | .lowered location bound =>
    "Lowered arrow function at " ++ Location.describe location ++
      (if bound then " (bound to this)" else "" : String)
  | .arrowFree => "Validation: tree is arrow-free"
  | .printed n => "Printed " ++ Text.ofNat n ++ " lines"
  | .failed file code message =>
    "Compilation of " ++ file ++ " failed: [" ++ code ++ "] " ++ message
  | .dumped pass tree => "\n" ++ rule ++ "\nAfter " ++ pass.name ++ ":\n" ++ rule ++ "\n" ++ tree

/-- What is shown of an event. A dump was asked for and is shown as it is; of the others a quiet
run shows only the warnings. -/
def render (verbose : Bool) (e : Event) : Text :=
  match e with
  | .dumped .. => e.message ++ "\n"
  | _ =>
    if e.isWarning then e.speaker ++ ": WARNING: " ++ e.message ++ "\n"
    else if verbose then e.speaker ++ ": DEBUG: " ++ e.message ++ "\n"
    else []

end Event

end ArrowFree
