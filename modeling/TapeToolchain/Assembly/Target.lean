import TapeToolchain.Assembly.Ia32
import TapeToolchain.Assembly.X64

/-!
The processors that assembly can be written for, and the names by which they are chosen.
-/

namespace TapeToolchain

inductive Target where
  | x64
  | ia32
deriving DecidableEq

namespace Target

def all : List Target :=
  [x64, ia32]

def name : Target → String
  | x64 => "x86-64"
  | ia32 => "ia32"

def fragments : Target → Fragments
  | x64 => x64Fragments
  | ia32 => ia32Fragments

/-- The target that a text names. The case of the letters A to Z does not matter. -/
def ofName? (text : String) : Option Target :=
  let lower := text.toList.map Char.toLower
  if lower = "x86-64".toList ∨ lower = "x86_64".toList then some x64
  else if lower = "ia32".toList ∨ lower = "i386".toList then some ia32
  else none

def unknownMessage (text : String) : String :=
  "Unknown architecture `" ++ text ++ "`"

end Target

end TapeToolchain
