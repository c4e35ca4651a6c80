import ArrowFree.Document

/-!
# Documents as JSON

One line, a space after each comma and colon, everything outside ASCII escaped.
-/

namespace ArrowFree

def Scalar.json : Scalar → Text
  | .null => "null"
  | .bool b => if b then "true" else "false"
  | .int i => Text.ofInt i
  | .float .nan => "NaN"
  | .float (.infinity negative) => if negative then "-Infinity" else "Infinity"
  | .float x => x.toText
  | .text t => t.asciiQuoted

namespace Document

mutual

def json : Document → Text
  | .scalar s => s.json
  | .list items => "[" ++ Text.join ", " (jsonItems items) ++ "]"
  | .object fields => "\x7b" ++ Text.join ", " (jsonFields fields) ++ "\x7d"

def jsonItems : List Document → List Text
  | [] => []
  | d :: ds => json d :: jsonItems ds

def jsonFields : List (Text × Document) → List Text
  | [] => []
  | (name, d) :: fs => (name.asciiQuoted ++ ": " ++ json d) :: jsonFields fs

end

end Document

end ArrowFree
