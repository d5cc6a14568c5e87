import TapeToolchain.Assembly.Target
import TapeToolchain.Source.Program

/-!
Assembly text of a program: the pieces of its commands between the program's start and end. A run of
instructions becomes either as many pieces as its count, or immediates.
-/

namespace TapeToolchain

/-- How runs of a repeatable instruction are written. -/
inductive RunStyle where
  /-- A piece for each instruction. -/
  | plain
  /-- Pieces with immediates. -/
  | immediates
deriving DecidableEq

namespace Fragments

def single (f : Fragments) : Repeatable → String
  | .right => f.right
  | .left => f.left
  | .increment => f.increment
  | .decrement => f.decrement

def immediate (f : Fragments) : Repeatable → ImmediateFragment
  | .right => f.rightBy
  | .left => f.leftBy
  | .increment => f.incrementBy
  | .decrement => f.decrementBy

end Fragments

/-- The text of a piece with an immediate, which has two hexadecimal digits. -/
def ImmediateFragment.render (f : ImmediateFragment) (value : Nat) : String :=
  f.before ++ Hex.padded 2 value ++ f.after

/-- The text of a loop's piece, with the label in both places. -/
def LoopFragment.render (f : LoopFragment) (label : Nat) : String :=
  f.first ++ labelText label ++ f.second ++ labelText label ++ f.third

/-- A distance as immediates of at most 255, all of them full except perhaps the last. -/
def splitDistance (distance : Nat) : List Nat :=
  List.replicate (distance / 0xff) 0xff ++
    (if distance % 0xff = 0 then [] else [distance % 0xff])

/-- The immediates of a run. Cells count modulo 256, so one immediate is enough for them. -/
def Repeatable.immediates (kind : Repeatable) (count : Nat) : List Nat :=
  match kind with
  | .right | .left => splitDistance count
  | .increment | .decrement => [count % 0x100]

def Fragments.run (f : Fragments) (style : RunStyle) (kind : Repeatable) (count : Nat) : String :=
  match style with
  | .plain => String.join (List.replicate count (f.single kind))
  | .immediates => String.join ((kind.immediates count).map (f.immediate kind).render)

def Fragments.command (f : Fragments) (style : RunStyle) : Command → String
  | .run kind count => f.run style kind count
  | .read => f.readChar
  | .write => f.writeChar
  | .beginLoop label => f.loopBegin.render label
  | .endLoop label => f.loopEnd.render label

def Program.assembly (p : Program) (target : Target) (style : RunStyle) : String :=
  let f := target.fragments
  f.programStart ++ String.join (p.commands.map fun c => f.command style c.command) ++ f.programEnd

end TapeToolchain
