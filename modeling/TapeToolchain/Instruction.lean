/-!
The eight instructions of the tape machine and the characters that write them.
-/

namespace TapeToolchain

inductive Instruction where
  /-- Moves the cursor one cell to the left. -/
  | left
  /-- Moves the cursor one cell to the right. -/
  | right
  /-- Adds one to the cell under the cursor. -/
  | increment
  /-- Subtracts one from the cell under the cursor. -/
  | decrement
  /-- Enters the loop unless the cell under the cursor is zero. -/
  | loopBegin
  /-- Goes back to the start of the loop unless the cell under the cursor is zero. -/
  | loopEnd
  /-- Reads a byte into the cell under the cursor. -/
  | read
  /-- Writes the cell under the cursor. -/
  | write
deriving DecidableEq

namespace Instruction

/-- The character that writes an instruction. -/
def toChar : Instruction → Char
  | left => '<'
  | right => '>'
  | increment => '+'
  | decrement => '-'
  | loopBegin => '['
  | loopEnd => ']'
  | read => ','
  | write => '.'

/-- The instruction that a character writes; every other character is a comment. -/
def ofChar? : Char → Option Instruction
  | '<' => some left
  | '>' => some right
  | '+' => some increment
  | '-' => some decrement
  | '[' => some loopBegin
  | ']' => some loopEnd
  | ',' => some read
  | '.' => some write
  | _ => none

@[simp] theorem ofChar?_toChar (i : Instruction) : ofChar? i.toChar = some i := by
  cases i <;> rfl

theorem eq_toChar {c : Char} {i : Instruction} (h : ofChar? c = some i) : c = i.toChar := by
  unfold ofChar? at h
  split at h <;> cases h <;> rfl

end Instruction

end TapeToolchain
