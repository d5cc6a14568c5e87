import TapeToolchain.Expansion.Desugaring

/-!
Inlining: a call of a macro becomes the macro's desugared body in a scope that binds each parameter
to what its argument means to the caller; a call of a built-in becomes a direct one. Rounds over the
top level follow each other until one changes nothing, so a recursive macro runs into the limit.

The steps are written over any way of desugaring a macro by name, so that they can be used both with
the plain function and with one that remembers its results.
-/

namespace TapeToolchain

namespace Inlining

/-- The shape of a call, which captures the name and the arguments. -/
def callPattern : Pattern :=
  .compound .callMacro
    [.compound .name [.bind "macro"], .cons (.tag .arguments) (.bind "args")]

/-- The macro that a matched call names. -/
def calleeOf (captures : Bindings) : Except CompileError String := do
  let callee ← captures.node "macro"
  match callee.atom? with
  | some (.name symbol) => return symbol.text
  | _ => throw (.typeMismatch .macroName callee.render)

/-- Declares a parameter and sets it to what the argument means outside of the new scope. -/
def bindParameter (param : Symbol) (argument : Node) : List Node :=
  let name := Node.literal (.name param)
  [.compound .envDeclare [name], .compound .envSet [name, .compound .outerEnvGet [argument]]]

/-- The body of a called macro in a scope that binds its parameters. -/
def callBody (d : Definition) (arguments : List Node) : List Node :=
  Statement.inScope <|
    (List.zipWith bindParameter d.params arguments).flatten ++ d.body

def builtinCall (builtin : Builtin) (arguments : List Node) : Node :=
  .compound .callBuiltin [Statement.name builtin.name, .compound .arguments arguments]

section
variable {m : Type → Type} [Monad m] [MonadExceptOf CompileError m]

/-- The replacement of a call with this callee and these arguments. A macro of the table comes
before a built-in of the same name. -/
@[specialize] def expandCall (t : MacroTable) (desugar : String → m Definition) (callee : String)
    (arguments : List Node) : m (List Node) :=
  match t.find? callee with
  | none =>
    match Builtin.ofName? callee with
    | some builtin => pure [builtinCall builtin arguments]
    | none => throw (.unknownMacro callee)
  | some _ => do
    let d ← desugar callee
    if d.params.length = arguments.length then pure (callBody d arguments)
    else throw (.arityMismatch callee d.params.length arguments.length)

/-- The replacement of a statement, or nothing when it is not a call. -/
@[specialize] def inline? (t : MacroTable) (desugar : String → m Definition) (statement : Node) :
    m (Option (List Node)) :=
  match callPattern.match? (.node statement) with
  | none => pure none
  | some captures => do
    let callee ← MonadExcept.ofExcept (calleeOf captures)
    let arguments ← MonadExcept.ofExcept (captures.seq "args")
    return some (← expandCall t desugar callee arguments)

/-- At most `limit` rounds, until one changes nothing. -/
@[specialize] def rounds (t : MacroTable) (desugar : String → m Definition) :
    (limit : Nat) → List Node → m (Option (List Node))
  | 0, _ => pure none
  | limit + 1, body => do
    let (next, changed) ← sweep (inline? t desugar) body
    if changed then rounds t desugar limit next else pure (some next)

/-- The body of the entry macro with all calls inlined. -/
@[specialize] def expandWith (t : MacroTable) (desugar : String → m Definition) (limit : Nat)
    (entry : String) : m (List Node) := do
  let d ← desugar entry
  match ← rounds t desugar limit d.body with
  | none => throw (.roundLimit .inlining entry limit)
  | some body => pure body

end

end Inlining

structure RoundLimits where
  desugaring : Nat
  inlining : Nat

/-- The body of a macro with everything expanded. -/
def MacroTable.expand (t : MacroTable) (limits : RoundLimits) (entry : String) :
    Except CompileError (List Node) :=
  Inlining.expandWith t (t.desugar limits.desugaring) limits.inlining entry

end TapeToolchain
