import ArrowFree.Diagnostic

/-!
# Faults

Everything that can stop an operation. A fault of the source has a diagnostic; the others say what
was wrong with the tree or the request.
-/

namespace ArrowFree

/-- An error in the script, with the source it is to be shown in. -/
structure SourceError where
  /-- The script does not parse at all. -/
  malformed : Bool := false
  message : Text
  location : Option Location := none
  code : Text := Code.invalidSource.text
  source : Option Text := none
  help : Option Text := none
  note : Option Text := none
  label : Option Text := none
deriving DecidableEq, Repr

namespace SourceError

def diagnostic (e : SourceError) : Diagnostic where
  message := e.message
  location := e.location
  code := some e.code
  help := e.help
  note := e.note
  label := e.label

/-- The diagnostic in its own source, if that is known. -/
def render (e : SourceError) : Text :=
  let sources : Sources :=
    match Diagnostic.present e.source, e.location with
    | some source, some l => [(l.file, source)]
    | _, _ => []
  e.diagnostic.render sources false

end SourceError

inductive Fault where
  /-- The script is at fault. -/
  | source (e : SourceError)
  /-- The library met something that it has no answer for. -/
  | unsupported (code message : Text)
  /-- Nothing is recorded under a key; a key that is no text is not named. -/
  | missingKey (key : Option Text)
  /-- A step was taken out of order. -/
  | misuse (message : Text)
  /-- A value has no such attribute. -/
  | noAttribute
  /-- A value is of a kind that the operation does not take. -/
  | unsuitable
  /-- An index lies outside its list. -/
  | outOfRange
  /-- A text denotes no value. -/
  | invalidText
  /-- Bytes are no encoded text. -/
  | undecodable
deriving DecidableEq, Repr

namespace Fault

/-- The message of a fault in this library, after its code. -/
def unsupportedText (code message : Text) : Text := "[" ++ code ++ "] " ++ message

/-- A plain error: the message and, on a line of its own, the place. -/
def plainText (message : Text) (location : Option Location) : Text :=
  match location with
  | some l => message ++ "\n --> " ++ l.toText
  | none => message

end Fault

end ArrowFree
