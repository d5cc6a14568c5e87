/-!
Variable names. A hidden name is made by the expansion rules only, so it differs from every name
that a macro's author can write, even with the same text.
-/

namespace TapeToolchain

structure Symbol where
  text : String
  hidden : Bool
deriving DecidableEq

namespace Symbol

/-- A name as an author writes it. -/
def visible (text : String) : Symbol :=
  ⟨text, false⟩

/-- A name that no author can write. -/
def concealed (text : String) : Symbol :=
  ⟨text, true⟩

def render (s : Symbol) : String :=
  if s.hidden then "<hidden " ++ s.text ++ ">" else s.text

/-- The order of names: by text, code point by code point, and visible before hidden. -/
def le (a b : Symbol) : Bool :=
  a.text < b.text || (a.text == b.text && (!a.hidden || b.hidden))

end Symbol

end TapeToolchain
