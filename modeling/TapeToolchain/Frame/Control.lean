import TapeToolchain.Frame.Arithmetic

/-!
Input and output of bytes, loops on cells, and resizing of the frame.
-/

namespace TapeToolchain.Frame

open Emitter (moveTo add sub)

def getChar (dst : Int) : Action Unit := emit do
  moveTo dst
  Emitter.read

def putChar (src : Int) : Action Unit := emit do
  moveTo src
  Emitter.write

/-- The code points of a text, which must all fit in a cell. -/
def byteCodes : List Char → Except CompileError (List Nat)
  | [] => .ok []
  | c :: rest =>
    if c.toNat ≤ 0xff then (byteCodes rest).map (c.toNat :: ·) else .error (.nonByteChar c)

/-- Writes bytes one after the other from a cell that holds `current`, changing it by the
differences. -/
def putCodes (current : Nat) : List Nat → Emitter.Action Unit
  | [] => pure ()
  | code :: rest => do
    if current ≤ code then add (code - current) else sub (current - code)
    Emitter.write
    putCodes code rest

/-- Writes a text that is known beforehand. -/
def putStringConstant (text : String) : Action Unit := do
  let codes ← MonadExcept.ofExcept (byteCodes text.toList)
  withScratch .putStringConstant [] fun scratch => do
    clear scratch
    emit (putCodes 0 codes)

/-- Opens a loop that runs while a cell is not zero. -/
def beginLoop (src : Int) : Action Unit := emit do
  moveTo src
  Emitter.beginLoop

/-- Closes a loop on the cell that it was opened on. -/
def endLoop (src : Int) : Action Unit := emit do
  moveTo src
  Emitter.endLoop

/-- Moves the values of cells by a distance, in the given order. -/
def moveAll (distance : Int) : List Int → Action Unit
  | [] => pure ()
  | offset :: rest => do
    move offset (offset + distance)
    moveAll distance rest

def clearRange (first : Int) : (count : Nat) → Action Unit
  | 0 => pure ()
  | count + 1 => do
    clear first
    clearRange (first + 1) count

/-- The occupied offsets in ascending order. -/
def occupied : Action (List Int) := do
  return (← get).cells.offsets

/-- Moves the frame up by `size` cells. Occupied cells keep their values at their offsets, the
highest being moved first, and the cells that fall below the new base are cleared. -/
def growStack (size : Int) : Action Unit := do
  let count ← naturalCount size
  if count = 0 then pure ()
  else
    moveAll count (← occupied).reverse
    clearRange 0 count
    emit (Emitter.rebase count)

/-- Moves the frame down by `size` cells. Occupied cells keep their values at their offsets, the
lowest being moved first. -/
def shrinkStack (size : Int) : Action Unit := do
  let count ← naturalCount size
  if count = 0 then pure ()
  else
    moveAll (-count) (← occupied)
    emit (Emitter.rebase (-count))

end TapeToolchain.Frame
