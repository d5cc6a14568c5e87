import TapeToolchain.Frame.Control
import TapeToolchain.Frame.Logic

/-!
Calling a built-in on atoms. The number of arguments is looked at first, then their kinds from left
to right.
-/

namespace TapeToolchain

namespace Atom

def asAddress : Atom → Except CompileError Int
  | address offset => .ok offset
  | other => .error (.typeMismatch .stackAddress other.render)

def asInt : Atom → Except CompileError Int
  | int value => .ok value
  | other => .error (.typeMismatch .integerConstant other.render)

def asText : Atom → Except CompileError String
  | text value => .ok value
  | other => .error (.typeMismatch .stringConstant other.render)

end Atom

namespace Frame

def onCell (operation : Int → Action Unit) (a : Atom) : Action Unit := do
  operation (← MonadExcept.ofExcept a.asAddress)

def onCells (operation : Int → Int → Action Unit) (a b : Atom) : Action Unit := do
  let first ← MonadExcept.ofExcept a.asAddress
  operation first (← MonadExcept.ofExcept b.asAddress)

def onThreeCells (operation : Int → Int → Int → Action Unit) (a b c : Atom) : Action Unit := do
  let first ← MonadExcept.ofExcept a.asAddress
  let second ← MonadExcept.ofExcept b.asAddress
  operation first second (← MonadExcept.ofExcept c.asAddress)

def onConstantAndCell (operation : Int → Int → Action Unit) (a b : Atom) : Action Unit := do
  let constant ← MonadExcept.ofExcept a.asInt
  operation constant (← MonadExcept.ofExcept b.asAddress)

def onConstant (operation : Int → Action Unit) (a : Atom) : Action Unit := do
  operation (← MonadExcept.ofExcept a.asInt)

def onText (operation : String → Action Unit) (a : Atom) : Action Unit := do
  operation (← MonadExcept.ofExcept a.asText)

def invoke (builtin : Builtin) (arguments : List Atom) : Action Unit :=
  match builtin, arguments with
  | .clear, [a] => onCell clear a
  | .destructiveAdd, [a, b] => onCells destructiveAdd a b
  | .destructiveSub, [a, b] => onCells destructiveSub a b
  | .move, [a, b] => onCells move a b
  | .copy, [a, b] => onCells copy a b
  | .stackAdd, [a, b] => onCells stackAdd a b
  | .stackSub, [a, b] => onCells stackSub a b
  | .constantAdd, [a, b] => onConstantAndCell constantAdd a b
  | .constantSub, [a, b] => onConstantAndCell constantSub a b
  | .asLogical, [a, b] => onCells asLogical a b
  | .logicalNot, [a, b] => onCells logicalNot a b
  | .logicalAnd, [a, b, c] => onThreeCells logicalAnd a b c
  | .logicalOr, [a, b, c] => onThreeCells logicalOr a b c
  | .getChar, [a] => onCell getChar a
  | .putChar, [a] => onCell putChar a
  | .putStringConstant, [a] => onText putStringConstant a
  | .beginLoop, [a] => onCell beginLoop a
  | .endLoop, [a] => onCell endLoop a
  | .growStack, [a] => onConstant growStack a
  | .shrinkStack, [a] => onConstant shrinkStack a
  | builtin, arguments =>
    throw (.arityMismatch builtin.name builtin.arity arguments.length)

end Frame

end TapeToolchain
