import TapeToolchain.Frame.Basic

/-!
Arithmetic on cells, modulo 256. The destructive operations empty their source; the others restore
it from a scratch cell.
-/

namespace TapeToolchain.Frame

open Emitter (moveTo add sub)

def clear (dst : Int) : Action Unit := emit do
  moveTo dst
  Emitter.replay [.loopBegin, .decrement, .loopEnd]

/-- Takes a step at each target in turn. -/
def atEach (targets : List Int) (step : Emitter.Action Unit) : Emitter.Action Unit :=
  match targets with
  | [] => pure ()
  | target :: rest => do
    moveTo target
    step
    atEach rest step

/-- Empties `src`, taking a step at each target for every unit of its value. -/
def transfer (src : Int) (targets : List Int) (step : Emitter.Action Unit) : Action Unit := emit do
  moveTo src
  Emitter.beginLoop
  sub 1
  atEach targets step
  moveTo src
  Emitter.endLoop

/-- Sets `dst := dst + src` and `src := 0`. -/
def destructiveAdd (src dst : Int) : Action Unit := do
  distinct .destructiveAdd [src, dst]
  transfer src [dst] (add 1)

/-- Sets `dst := dst - src` and `src := 0`. -/
def destructiveSub (src dst : Int) : Action Unit := do
  distinct .destructiveSub [src, dst]
  transfer src [dst] (sub 1)

/-- Sets `dst := src` and `src := 0`. -/
def move (src dst : Int) : Action Unit := do
  distinct .move [src, dst]
  clear dst
  destructiveAdd src dst

/-- Sets `dst := src`. -/
def copy (src dst : Int) : Action Unit := do
  distinct .copy [src, dst]
  withScratch .copy [src, dst] fun scratch => do
    clear dst
    clear scratch
    transfer src [dst, scratch] (add 1)
    destructiveAdd scratch src

/-- Sets `dst := dst + src`. -/
def stackAdd (src dst : Int) : Action Unit :=
  withScratch .stackAdd [src, dst] fun scratch => do
    copy src scratch
    destructiveAdd scratch dst

/-- Sets `dst := dst - src`. -/
def stackSub (src dst : Int) : Action Unit :=
  withScratch .stackSub [src, dst] fun scratch => do
    copy src scratch
    destructiveSub scratch dst

/-- Sets `dst := dst + constant`. -/
def constantAdd (constant dst : Int) : Action Unit := do
  let count ← naturalCount constant
  emit do
    moveTo dst
    add count

/-- Sets `dst := dst - constant`. -/
def constantSub (constant dst : Int) : Action Unit := do
  let count ← naturalCount constant
  emit do
    moveTo dst
    sub count

end TapeToolchain.Frame
