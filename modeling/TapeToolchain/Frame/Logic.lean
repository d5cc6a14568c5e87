import TapeToolchain.Frame.Arithmetic

/-!
Truth values in cells: zero is false, every other byte is true, and results are zero or one.
-/

namespace TapeToolchain.Frame

open Emitter (moveTo add sub)

/-- Sets `dst` to one if `src` is not zero, else to zero. -/
def asLogical (src dst : Int) : Action Unit := do
  distinct .asLogical [src, dst]
  withScratch .asLogical [src, dst] fun scratch => do
    copy src scratch
    clear dst
    emit do
      moveTo scratch
      Emitter.beginLoop
      moveTo dst
      add 1
    clear scratch
    emit Emitter.endLoop

/-- Sets `dst` to one if `src` is zero, else to zero. -/
def logicalNot (src dst : Int) : Action Unit := do
  distinct .logicalNot [src, dst]
  withScratch .logicalNot [src, dst] fun scratch => do
    copy src scratch
    clear dst
    emit do
      add 1
      moveTo scratch
      Emitter.beginLoop
      moveTo dst
      sub 1
    clear scratch
    emit Emitter.endLoop

/-- Sets `dst` to the truth of `a` and `b`, as the negation of `not a + not b`. -/
def logicalAnd (a b dst : Int) : Action Unit := do
  distinct .logicalAnd [a, dst]
  distinct .logicalAnd [b, dst]
  withScratch .logicalAnd [a, b, dst] fun scratch => do
    clear dst
    logicalNot a scratch
    stackAdd scratch dst
    logicalNot b scratch
    stackAdd scratch dst
    logicalNot dst scratch
    move scratch dst

/-- Sets `dst` to the truth of `a` or `b`, as the truth of the sum of their truth values. -/
def logicalOr (a b dst : Int) : Action Unit := do
  distinct .logicalOr [a, dst]
  distinct .logicalOr [b, dst]
  withScratch .logicalOr [a, b, dst] fun scratch => do
    clear dst
    asLogical a scratch
    stackAdd scratch dst
    asLogical b scratch
    stackAdd scratch dst
    asLogical dst scratch
    move scratch dst

end TapeToolchain.Frame
