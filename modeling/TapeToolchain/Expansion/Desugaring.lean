import TapeToolchain.Expansion.Rule

/-!
Desugaring: local cells, conditionals and loops become scope primitives and built-in calls. Three
rules are applied to the top level of a body, round after round, until a round changes nothing; more
than one round is needed because the body of a block comes to the top level only when the block is
expanded.
-/

namespace TapeToolchain

namespace Desugaring

/-- The hidden cell that a conditional copies its condition to. -/
def conditionCopy : Symbol :=
  .concealed "if_tmp"

/-- The statements for a local cell: declare the name, give it a fresh cell, and let the scope free
it. -/
def localStatements (name : Node) : List Node :=
  [.compound .envDeclare [name],
   .compound .envSet [name, .compound .allocateLocal []],
   .compound .freeLocalOnEnvExit [.compound .envGet [name]]]

/-- The statements for a conditional: a loop on a copy of the condition, which is cleared at its
end, so that the body runs at most once. -/
def ifStatements (condition : Atom) (body : List Node) : List Node :=
  let copy : Atom := .name conditionCopy
  Statement.inScope <|
    [.compound .localCell [.literal copy], Statement.invoke .copy [condition, copy],
     Statement.invoke .beginLoop [copy]] ++ body ++
    [Statement.invoke .clear [copy], Statement.invoke .endLoop [copy]]

/-- The statements for a loop on its condition. -/
def whileStatements (condition : Atom) (body : List Node) : List Node :=
  Statement.inScope <|
    [Statement.invoke .beginLoop [condition]] ++ body ++ [Statement.invoke .endLoop [condition]]

/-- The shape of a block: one condition and a body. -/
def blockPattern (tag : Tag) : Pattern :=
  .compound tag [.compound .arguments [.bind "cond"], .cons (.tag .body) (.bind "body")]

/-- The condition of a matched block, which must be a literal. -/
def conditionOf (captures : Bindings) : Except CompileError Atom := do
  let condition ← captures.node "cond"
  match condition.atom? with
  | some atom => return atom
  | none => throw (.typeMismatch .literalCondition condition.render)

/-- Replaces the declaration of a local cell. -/
def allocateLocals : Rule where
  pattern := .compound .localCell [.bind "name"]
  action captures := do return localStatements (← captures.node "name")

def expandIfBlock : Rule where
  pattern := blockPattern .ifBlock
  action captures := do
    let condition ← conditionOf captures
    return ifStatements condition (← captures.seq "body")

def expandWhileBlock : Rule where
  pattern := blockPattern .whileBlock
  action captures := do
    let condition ← conditionOf captures
    return whileStatements condition (← captures.seq "body")

/-- The rules with their names, in the order in which a round applies them. -/
def rules : List (String × Rule) :=
  [("allocate_locals", allocateLocals), ("expand_if_block", expandIfBlock),
   ("expand_while_block", expandWhileBlock)]

/-- Applies rules one after the other, each to the whole body, and says whether any replaced a
statement. -/
def applyRules : List Rule → List Node → Except CompileError (List Node × Bool)
  | [], body => .ok (body, false)
  | rule :: rest, body => do
    let (swept, changed) ← sweep rule.replacement? body
    let (final, changedLater) ← applyRules rest swept
    return (final, changed || changedLater)

/-- One round: each rule once, in order. -/
def round (body : List Node) : Except CompileError (List Node × Bool) :=
  applyRules (rules.map (·.2)) body

/-- Rounds after `done` earlier ones, at most `limit` of them, until one changes nothing. -/
def roundsFrom (done : Nat) :
    (limit : Nat) → List Node → Except CompileError (Option (List Node × Nat))
  | 0, _ => .ok none
  | limit + 1, body => do
    let (next, changed) ← round body
    if changed then roundsFrom (done + 1) limit next else return some (next, done + 1)

/-- The body that rounds lead to and their number, the last one without a change included; nothing
when `limit` rounds do not suffice. -/
def fixedPoint (limit : Nat) (body : List Node) : Except CompileError (Option (List Node × Nat)) :=
  roundsFrom 0 limit body

end Desugaring

/-- The macro with its body desugared, in a scope of its own. -/
def MacroTable.desugar (t : MacroTable) (limit : Nat) (name : String) :
    Except CompileError Definition :=
  match t.find? name with
  | none => .error (.unknownMacro name)
  | some d => do
    match ← Desugaring.fixedPoint limit d.body with
    | none => throw (.roundLimit .desugaring name limit)
    | some (body, _) => return { d with body := Statement.inScope body }

end TapeToolchain
