import TapeToolchain.Term.Atom
import TapeToolchain.Term.Tag

/-!
Terms of the macro language. A term is an atom or a tag with a list of children; its text is an
S-expression.
-/

namespace TapeToolchain

inductive Node where
  | literal (atom : Atom)
  | compound (tag : Tag) (children : List Node)

namespace Node

def atom? : Node → Option Atom
  | literal atom => some atom
  | compound .. => none

def children? : Node → Option (List Node)
  | literal _ => none
  | compound _ children => some children

def hasTag (tag : Tag) : Node → Bool
  | literal _ => false
  | compound found _ => found == tag

mutual

def render : Node → String
  | literal atom => atom.render
  | compound tag children => "(" ++ tag.text ++ renderChildren children ++ ")"

/-- The texts of the children, each after a space. -/
def renderChildren : List Node → String
  | [] => ""
  | child :: rest => " " ++ child.render ++ renderChildren rest

end

end Node

end TapeToolchain
