import TapeToolchain.Term.Symbol
import TapeToolchain.Text.Quoted

/-!
The atomic values of the macro language: names, integer and string constants, and cell addresses.
-/

namespace TapeToolchain

/-- The text of a cell address, an offset from the base of the current frame. -/
def addressText (offset : Int) : String :=
  "stack[" ++ toString offset ++ "]"

inductive Atom where
  | name (symbol : Symbol)
  | int (value : Int)
  | text (value : String)
  | address (offset : Int)
deriving DecidableEq

namespace Atom

instance : Coe String Atom where
  coe text := .name (.visible text)

instance : Coe Int Atom where
  coe value := .int value

/-- The code point of a character, as an integer constant. -/
def ofChar (c : Char) : Atom :=
  .int c.toNat

/-- What sort of value an atom is, in words. -/
def kind : Atom → String
  | name _ => "name"
  | int _ => "integer constant"
  | text _ => "string constant"
  | address _ => "stack address"

/-- Constants and addresses evaluate to themselves, names do not. -/
def selfEvaluating : Atom → Bool
  | name _ => false
  | _ => true

/-- An atom as shown in messages and terms. -/
def render : Atom → String
  | name symbol => symbol.render
  | int value => toString value
  | text value => Text.quoted value
  | address offset => addressText offset

end Atom

end TapeToolchain
