import TapeToolchain.CompileError
import TapeToolchain.Listing

/-!
Writing tape code while keeping track of the cursor. The emitter knows where the cursor will be
after each instruction, and refuses two things: to leave the tape, and to close a loop at another
offset from the frame's base than it was opened at, since the cursor after such a loop would be
unknown.

An action keeps the state it has reached also when it fails.
-/

namespace TapeToolchain

/-- The code written so far and what is known about the machine after it. -/
structure Emitter where
  tapeSize : UInt64
  cursor : Int
  /-- The position of the current frame's cell with offset zero. -/
  base : Int
  code : Array Instruction
  /-- The cursor's offset at the start of each open loop, the innermost first. -/
  loops : List Int

/-- A 64-bit count read as a signed number: the upper half of the range is negative. -/
def signedSize (n : UInt64) : Int :=
  if n.toNat < 0x8000000000000000 then n.toNat else n.toNat - 0x10000000000000000

namespace Emitter

/-- A step that writes code, and keeps what it wrote when it fails. -/
abbrev Action := EStateM CompileError Emitter

def new (tapeSize : UInt64) : Emitter :=
  { tapeSize, cursor := 0, base := 0, code := #[], loops := [] }

/-- The end of the tape in range checks. -/
def limit (e : Emitter) : Int :=
  signedSize e.tapeSize

/-- The cursor's offset from the frame's base. -/
@[inline] def relative (e : Emitter) : Int :=
  e.cursor - e.base

def openLoops (e : Emitter) : Nat :=
  e.loops.length

def onTape (e : Emitter) (position : Int) : Bool :=
  0 ≤ position && position < e.limit

/-- Fails unless a position lies on the tape. -/
def check (position : Int) : Action Unit := fun e =>
  if e.onTape position then .ok () e else .error (.outOfRange position e.tapeSize) e

/-- Fails unless a cell of the current frame lies on the tape. -/
def checkAddress (offset : Int) : Action Unit := fun e =>
  check (e.base + offset) e

def repeated (i : Instruction) (count : Nat) : Action Unit := fun e =>
  .ok () { e with code := e.code ++ Array.replicate count i }

/-- The instructions that move the cursor by a signed distance. -/
def motion (distance : Int) : Array Instruction :=
  Array.replicate distance.natAbs (if distance < 0 then .left else .right)

def shift (distance : Int) : Action Unit := fun e =>
  let target := e.cursor + distance
  if e.onTape target then
    .ok () { e with cursor := target, code := e.code ++ motion distance }
  else .error (.outOfRange target e.tapeSize) e

/-- Moves the cursor to a cell of the current frame. -/
def moveTo (offset : Int) : Action Unit := fun e =>
  shift (e.base + offset - e.cursor) e

def add (count : Nat) : Action Unit :=
  repeated .increment count

def sub (count : Nat) : Action Unit :=
  repeated .decrement count

/-- Opens a loop on the cell under the cursor. -/
def beginLoop : Action Unit := fun e =>
  .ok () { e with code := e.code.push .loopBegin, loops := e.relative :: e.loops }

/-- Closes the innermost loop. If the cursor is at another offset than at the loop's start, the loop
is given up and nothing is written. -/
def endLoop : Action Unit := fun e =>
  match e.loops with
  | [] => .error .unmatchedLoopEnd e
  | opened :: rest =>
    if opened = e.relative then
      .ok () { e with code := e.code.push .loopEnd, loops := rest }
    else .error (.loopImbalance opened e.relative) { e with loops := rest }

def read : Action Unit :=
  repeated .read 1

def write : Action Unit :=
  repeated .write 1

/-- Follows a single instruction. -/
def step : Instruction → Action Unit
  | .left => shift (-1)
  | .right => shift 1
  | .increment => add 1
  | .decrement => sub 1
  | .loopBegin => beginLoop
  | .loopEnd => endLoop
  | .read => read
  | .write => write

/-- Follows instructions one by one, up to the first that fails. -/
def replay : List Instruction → Action Unit
  | [] => pure ()
  | i :: rest => do
    step i
    replay rest

/-- The instructions that a text writes, without room for comments. -/
def parseFragment : List Char → Except CompileError (List Instruction)
  | [] => .ok []
  | c :: rest =>
    match Instruction.ofChar? c with
    | none => .error (.badInstruction c)
    | some i => (parseFragment rest).map (i :: ·)

/-- Follows the instructions of a text. A text with another character in it is refused as a whole.
-/
def raw (fragment : String) : Action Unit := do
  replay (← MonadExcept.ofExcept (parseFragment fragment.toList))

/-- Moves the base of the frame, up to the end of the tape. No code is written. -/
def rebase (distance : Int) : Action Unit := fun e =>
  let base := e.base + distance
  if 0 ≤ base ∧ base ≤ e.limit then .ok () { e with base }
  else .error (.outOfRange base e.tapeSize) e

/-- The finished code, unless a loop is still open. -/
def finish (e : Emitter) (lineWidth : Nat) : Except CompileError Listing :=
  if e.loops.isEmpty then .ok ⟨e.code, lineWidth⟩ else .error (.unclosedLoops e.openLoops)

end Emitter

end TapeToolchain
