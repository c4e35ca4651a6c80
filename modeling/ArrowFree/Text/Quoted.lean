import ArrowFree.Text.Printable

/-!
# Quoted text

Three ways to write a text between quotes: in plain ASCII for a script, with few escapes for an
S-expression, and for the description of a value in a message.
-/

namespace ArrowFree.Text

/-- The letter of the short escape for a control character. -/
def controlLetter? (c : CodePoint) : Option CodePoint :=
  if c = '\n' then some 'n'
  else if c = '\r' then some 'r'
  else if c = '\t' then some 't'
  else if c.val = 0x8 then some 'b'
  else if c.val = 0xC then some 'f'
  else none

/-- A code point in a script's string; past the first plane it is written as two surrogates. -/
def asciiEscape (c : CodePoint) : Text :=
  if c = '"' || c = '\\' then ['\\', c]
  else match controlLetter? c with
    | some letter => ['\\', letter]
    | none =>
      if 0x20 ≤ c.val && c.val ≤ 0x7E then [c]
      else if c.val < 0x10000 then "\\u" ++ hex 4 c.val
      else
        let n := c.val - 0x10000
        "\\u" ++ hex 4 (0xD800 + n / 0x400) ++ "\\u" ++ hex 4 (0xDC00 + n % 0x400)

/-- Double quotes, every character outside printable ASCII escaped. -/
def asciiQuoted (t : Text) : Text := "\"" ++ t.flatMap asciiEscape ++ "\""

def plainEscape (c : CodePoint) : Text :=
  if c = '"' || c = '\\' then ['\\', c]
  else match controlLetter? c with
    | some letter => ['\\', letter]
    | none => [c]

/-- Double quotes, only quotes, backslashes and the common controls escaped. -/
def plainQuoted (t : Text) : Text := "\"" ++ t.flatMap plainEscape ++ "\""

def describedEscape (quote c : CodePoint) : Text :=
  if c = quote || c = '\\' then ['\\', c]
  else if c = '\n' then "\\n"
  else if c = '\r' then "\\r"
  else if c = '\t' then "\\t"
  else if c.isPrintable then [c]
  else if c.val < 0x100 then "\\x" ++ hex 2 c.val
  else if c.val < 0x10000 then "\\u" ++ hex 4 c.val
  else "\\U" ++ hex 8 c.val

/-- Single quotes, or double ones around a text that has single quotes only; what is not printable
is escaped. -/
def described (t : Text) : Text :=
  let quote : CodePoint :=
    if t.contains ('\'' : CodePoint) && ! t.contains ('"' : CodePoint) then '"' else '\''
  [quote] ++ t.flatMap (describedEscape quote) ++ [quote]

example : asciiQuoted [0x1F600] = "\"\\ud83d\\ude00\"" := by decide
example : described "it's" = "\"it's\"" := by decide +kernel

end ArrowFree.Text
