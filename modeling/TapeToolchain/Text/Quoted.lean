import TapeToolchain.Text.Graphic
import TapeToolchain.Text.Hex

/-!
Quoted characters and texts, as they appear in messages. The delimiter in use, the backslash and
five control characters have short escapes, every other character that is not graphic is written by
its code point, and the rest stands for itself.
-/

namespace TapeToolchain.Text

/-- One character inside quotation marks of the given kind. -/
def escaped (delimiter c : Char) : String :=
  if c = delimiter ∨ c = '\\' then String.ofList ['\\', c]
  else if c = '\n' then "\\n"
  else if c = '\r' then "\\r"
  else if c = '\t' then "\\t"
  else if c = '\x00' then "\\0"
  else if isGraphic c then String.singleton c
  else "\\u\x7b" ++ Hex.text c.toNat ++ "\x7d"

def quotedChar (c : Char) : String :=
  "'" ++ escaped '\x27' c ++ "'"

def quoted (s : String) : String :=
  "\"" ++ String.join (s.toList.map (escaped '"')) ++ "\""

end TapeToolchain.Text
