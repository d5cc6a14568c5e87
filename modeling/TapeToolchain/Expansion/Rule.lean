import TapeToolchain.Expansion.Pattern

/-!
Replacement rules: a statement that the pattern matches is replaced by what the action makes of the
captures, any other statement stays. A sweep takes such a step over the top level of a body.
-/

namespace TapeToolchain

/-- A pattern and what replaces the statements it matches. -/
structure Rule where
  pattern : Pattern
  action : Bindings → Except CompileError (List Node)

namespace Rule

/-- A rule, refused when its pattern captures a name twice. -/
def build (pattern : Pattern) (action : Bindings → Except CompileError (List Node)) :
    Except CompileError Rule := do
  pattern.validate
  return ⟨pattern, action⟩

/-- The replacement of a statement, or nothing when the pattern does not match. -/
def replacement? (r : Rule) (statement : Node) : Except CompileError (Option (List Node)) :=
  match r.pattern.match? (.node statement) with
  | none => .ok none
  | some captures => (r.action captures).map some

/-- The replacement of a statement; one that does not match is its own. -/
def apply (r : Rule) (statement : Node) : Except CompileError (List Node) :=
  (r.replacement? statement).map fun new => new.getD [statement]

end Rule

/-- Replaces the statements of a body from left to right, not looking into them, and says whether
any was replaced. -/
@[specialize] def sweep {m : Type → Type} [Monad m] (step : Node → m (Option (List Node))) :
    List Node → m (List Node × Bool)
  | [] => pure ([], false)
  | statement :: rest => do
    let replacement ← step statement
    let (swept, changed) ← sweep step rest
    match replacement with
    | none => pure (statement :: swept, changed)
    | some new => pure (new ++ swept, true)

def Rule.applyAll (r : Rule) (body : List Node) : Except CompileError (List Node) := do
  return (← sweep r.replacement? body).1

end TapeToolchain
