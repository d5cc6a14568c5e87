import TapeToolchain.Evaluation.Scopes
import TapeToolchain.Frame.Invocation
import TapeToolchain.Term.Statement

/-!
Evaluation of expanded bodies. A literal evaluates to itself; a compound term evaluates its children
from left to right and then does what its tag says, on the scopes and on the frame.
-/

namespace TapeToolchain

/-- What a term evaluates to. -/
inductive Value where
  | unit
  | atom (atom : Atom)
  | builtin (builtin : Builtin)
  | arguments (atoms : List Atom)

namespace Value

def render : Value → String
  | unit => "()"
  | atom a => a.render
  | builtin b => b.name
  | arguments _ => "argument list"

def asAtom : Value → Except CompileError Atom
  | atom a => .ok a
  | other => .error (.typeMismatch .literal other.render)

def asSymbol : Value → Except CompileError Symbol
  | atom (.name symbol) => .ok symbol
  | other => .error (.typeMismatch .name other.render)

def asAddress : Value → Except CompileError Int
  | atom (.address offset) => .ok offset
  | other => .error (.typeMismatch .stackAddress other.render)

end Value

structure Evaluator where
  frame : Frame
  scopes : Scopes

namespace Evaluator

/-- A step of an evaluation, which keeps what it did when it fails. -/
abbrev Action := EStateM CompileError Evaluator

def new (tapeSize : UInt64) : Evaluator :=
  ⟨.new tapeSize, .root⟩

@[inline] def onFrame (action : Frame.Action α) : Action α := fun ⟨frame, scopes⟩ =>
  match action frame with
  | .ok a frame => .ok a ⟨frame, scopes⟩
  | .error cause frame => .error cause ⟨frame, scopes⟩

/-- Replaces the scopes, unless that fails. -/
@[inline] def onScopes (change : Scopes → Except CompileError Scopes) : Action Unit :=
  fun ⟨frame, scopes⟩ =>
    match change scopes with
    | .ok scopes => .ok () ⟨frame, scopes⟩
    | .error cause => .error cause ⟨frame, scopes⟩

@[inline] def askScopes (question : Scopes → Except CompileError α) : Action α :=
  fun ⟨frame, scopes⟩ =>
    match question scopes with
    | .ok a => .ok a ⟨frame, scopes⟩
    | .error cause => .error cause ⟨frame, scopes⟩

/-- Closes the current scope and frees its cells in order. -/
def closeScope : Action Unit := do
  let (release, scopes) ← askScopes Scopes.pop
  modify fun s => { s with scopes }
  onFrame (Frame.freeAll release)

/-- The values of arguments, names among them being looked up. -/
def resolveAll : List Value → Action (List Atom)
  | [] => pure []
  | value :: rest => do
    let atom ← MonadExcept.ofExcept value.asAtom
    let resolved ← askScopes (·.resolve atom)
    return resolved :: (← resolveAll rest)

def builtinNamed (name : Symbol) : Except CompileError Builtin :=
  match Builtin.ofName? name.text with
  | some builtin => .ok builtin
  | none => .error (.unknownOperation name.render)

/-- Does what a tag says with the values of the children. Tags that expansion removes have no
meaning here, and a wrong number of children is refused. -/
def dispatch (tag : Tag) (values : List Value) : Action Value :=
  match tag, values with
  | .envBegin, [] => do
    onScopes fun s => .ok s.push
    return .unit
  | .envEnd, [] => do
    closeScope
    return .unit
  | .envDeclare, [name] => do
    let name ← MonadExcept.ofExcept name.asSymbol
    onScopes (·.declare name)
    return .unit
  | .envSet, [name, value] => do
    let name ← MonadExcept.ofExcept name.asSymbol
    let value ← MonadExcept.ofExcept value.asAtom
    onScopes (·.set name value)
    return .unit
  | .envGet, [value] => do
    let atom ← MonadExcept.ofExcept value.asAtom
    return .atom (← askScopes (·.resolve atom))
  | .outerEnvGet, [value] => do
    let atom ← MonadExcept.ofExcept value.asAtom
    return .atom (← askScopes (·.outerResolve atom))
  | .arguments, values => do
    return .arguments (← resolveAll values)
  | .allocateLocal, [] => do
    return .atom (.address (← onFrame Frame.allocate))
  | .freeLocal, [value] => do
    let offset ← MonadExcept.ofExcept value.asAddress
    onFrame (Frame.free offset)
    return .unit
  | .freeLocalOnEnvExit, [value] => do
    let offset ← MonadExcept.ofExcept value.asAddress
    onScopes fun s => .ok (s.releaseOnExit offset)
    return .unit
  | .name, [value] => do
    let name ← MonadExcept.ofExcept value.asSymbol
    return .builtin (← MonadExcept.ofExcept (builtinNamed name))
  | .callBuiltin, [.builtin builtin, .arguments atoms] => do
    onFrame (Frame.invoke builtin atoms)
    return .unit
  | .callBuiltin, [other, _] => throw (.typeMismatch .builtinCall other.render)
  | tag, values =>
    match tag with
    | .localCell | .whileBlock | .ifBlock | .callMacro | .body | .parameters | .userMacro =>
      throw (.unknownOperation tag.text)
    | _ =>
      match tag.arity with
      | .fixed expected => throw (.badArity tag expected values.length)
      | .variadic => throw (.unknownOperation tag.text)

mutual

def evaluate : Node → Action Value
  | .literal atom => pure (.atom atom)
  | .compound tag children => do
    dispatch tag (← evaluateAll children)

/-- Evaluates terms from left to right. -/
def evaluateAll : List Node → Action (List Value)
  | [] => pure []
  | node :: rest => do
    let value ← evaluate node
    return value :: (← evaluateAll rest)

end

/-- Evaluates statements in order, up to the first that fails. -/
def run : List Node → Action Unit
  | [] => pure ()
  | statement :: rest => do
    let _ ← evaluate statement
    run rest

/-- The finished code, unless a scope or a loop is still open. -/
def finish (s : Evaluator) (lineWidth : Nat) : Except CompileError Listing :=
  if s.scopes.depth = 0 then s.frame.finish lineWidth else .error .unbalancedScope

end Evaluator

end TapeToolchain
