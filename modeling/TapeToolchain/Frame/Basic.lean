import TapeToolchain.Frame.CellPool
import TapeToolchain.Frame.Emitter
import TapeToolchain.Repetition

/-!
A frame pairs the emitter with the pool of occupied cells. Operands are cells by their offsets from
the frame's base. An operation that needs room for an intermediate value runs with a scratch cell,
which is none of its operands and is given back whatever comes of it.
-/

namespace TapeToolchain

/-- The tape as the built-ins see it. -/
structure Frame where
  emitter : Emitter
  cells : CellPool

namespace Frame

/-- A step on a frame, which keeps what it did when it fails. -/
abbrev Action := EStateM CompileError Frame

def new (tapeSize : UInt64) : Frame :=
  ⟨.new tapeSize, .empty⟩

@[inline] def emit (action : Emitter.Action α) : Action α := fun ⟨emitter, cells⟩ =>
  match action emitter with
  | .ok a emitter => .ok a ⟨emitter, cells⟩
  | .error cause emitter => .error cause ⟨emitter, cells⟩

/-- Occupies the least free cell, if that cell lies on the tape. -/
def allocate : Action Int := fun ⟨emitter, cells⟩ =>
  let (offset, extended) := cells.allocate
  let position := emitter.base + offset
  if emitter.onTape position then .ok offset ⟨emitter, extended⟩
  else .error (.outOfRange position emitter.tapeSize) ⟨emitter, cells⟩

/-- Gives a cell back, which must be occupied. -/
def free (offset : Int) : Action Unit := fun ⟨emitter, cells⟩ =>
  match cells.free? offset with
  | some cells => .ok () ⟨emitter, cells⟩
  | none => .error (.notAllocated offset) ⟨emitter, cells⟩

def freeAll : List Int → Action Unit
  | [] => pure ()
  | offset :: rest => do
    free offset
    freeAll rest

/-- Occupies cells in order and lists those that were free. -/
def reserveAll (offsets : List Int) : Action (List Int) := fun ⟨emitter, cells⟩ =>
  let (fresh, cells) := cells.reserveAll offsets
  .ok fresh ⟨emitter, cells⟩

/-- Runs `closing` after `action`, also when `action` fails. -/
def andThen (action closing : Action Unit) : Action Unit := fun f =>
  match action f with
  | .ok () f => closing f
  | .error cause f =>
    match closing f with
    | .ok () f => .error cause f
    | .error other f => .error other f

/-- Fails if a cell appears twice among the operands. -/
def distinct (builtin : Builtin) (operands : List Int) : Action Unit :=
  match firstRepeated? [] operands with
  | some offset => throw (.aliasing builtin offset)
  | none => pure ()

/-- Runs `body` with a scratch cell. If the least free cell is one of the operands, there is none to
be had and nothing is run. Operands that are not occupied are reserved for the time being, so that
scratch cells of operations inside `body` do not fall on them either. -/
def withScratch (builtin : Builtin) (operands : List Int) (body : Int → Action Unit) :
    Action Unit := do
  let scratch ← allocate
  if operands.contains scratch then
    free scratch
    throw (.aliasing builtin scratch)
  else
    let reserved ← reserveAll operands
    andThen (body scratch) (freeAll (reserved ++ [scratch]))

/-- A count that must not be negative. -/
def naturalCount (count : Int) : Action Nat :=
  if count < 0 then throw (.negativeCount count) else pure count.toNat

/-- The finished code, unless a loop is still open. -/
def finish (f : Frame) (lineWidth : Nat) : Except CompileError Listing :=
  f.emitter.finish lineWidth

end Frame

end TapeToolchain
