import TapeToolchain.Instruction

/-!
Finished tape code, shown in lines of a fixed width. The width changes only the layout.
-/

namespace TapeToolchain

/-- Tape code and the width at which it is shown. -/
structure Listing where
  code : Array Instruction
  lineWidth : Nat
deriving DecidableEq

def codeText (code : Array Instruction) : String :=
  String.ofList (code.toList.map Instruction.toChar)

namespace Listing

def text (l : Listing) : String :=
  codeText l.code

/-- The number of instructions in a full line: the width, or one if the width is zero. -/
def lineLength (l : Listing) : Nat :=
  max 1 l.lineWidth

/-- The number of lines: the code's length over the line length, rounded up. -/
def lineCount (l : Listing) : Nat :=
  (l.code.size + (l.lineLength - 1)) / l.lineLength

/-- The instructions of the line with index `i`. -/
def line (l : Listing) (i : Nat) : Array Instruction :=
  l.code.extract (i * l.lineLength) (i * l.lineLength + l.lineLength)

/-- The lines, all full except perhaps the last. -/
def lines (l : Listing) : List String :=
  (List.range l.lineCount).map fun i => codeText (l.line i)

/-- The lines, each with a line feed after it. -/
def render (l : Listing) : String :=
  String.join (l.lines.map (· ++ "\n"))

end Listing

end TapeToolchain
