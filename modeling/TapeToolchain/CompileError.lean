import TapeToolchain.Term.Builtin
import TapeToolchain.Term.Atom
import TapeToolchain.Term.Tag

/-!
Why a compilation stops. Each constructor is one cause with the values that its message shows;
`CompileError.message` holds the wording.
-/

namespace TapeToolchain

/-- What an operand should have been. -/
inductive Expectation where
  | name
  | literal
  | literalCondition
  | macroName
  | stackAddress
  | integerConstant
  | stringConstant
  | builtinCall
deriving DecidableEq

def Expectation.text : Expectation → String
  | name => "name"
  | literal => "literal"
  | literalCondition => "literal condition"
  | macroName => "macro name"
  | stackAddress => "stack address"
  | integerConstant => "integer constant"
  | stringConstant => "string constant"
  | builtinCall => "built-in call"

/-- What a rule takes a pattern variable to stand for. -/
inductive CaptureKind where
  | node
  | sequence
deriving DecidableEq

def CaptureKind.text : CaptureKind → String
  | node => "node"
  | sequence => "sequence"

/-- The two stages that repeat until nothing changes. -/
inductive RoundStage where
  | desugaring
  | inlining
deriving DecidableEq

def RoundStage.text : RoundStage → String
  | desugaring => "Desugaring"
  | inlining => "Inlining"

inductive CompileError where
  /-- No scope from here outwards declares the name. -/
  | unboundName (name : Symbol)
  /-- The scope, or the parameter list, has the name already. -/
  | duplicateDeclaration (name : Symbol)
  /-- A value was given to a name that the current scope does not declare. -/
  | undeclared (name : Symbol)
  /-- The name is declared but has no value. -/
  | unset (name : Symbol)
  | unbalancedScope
  | unknownMacro (name : String)
  | duplicateMacro (name : String)
  | arityMismatch (name : String) (expected found : Nat)
  /-- Two operands that must differ are the same cell. -/
  | aliasing (builtin : Builtin) (address : Int)
  /-- A loop body ends at another offset than it began. -/
  | loopImbalance (expected found : Int)
  | unmatchedLoopEnd
  | unclosedLoops (count : Nat)
  /-- The cursor or a cell would lie outside of the tape. -/
  | outOfRange (position : Int) (tapeSize : UInt64)
  | unknownOperation (name : String)
  /-- A cell was freed that is not occupied. -/
  | notAllocated (address : Int)
  /-- A term was built with the wrong number of children. -/
  | badArity (tag : Tag) (expected found : Nat)
  | duplicateBinding (name : String)
  /-- A rule asked for a capture that is missing or of the other kind. -/
  | missingCapture (name : String) (expected : CaptureKind)
  | typeMismatch (expected : Expectation) (found : String)
  | badInstruction (char : Char)
  | negativeCount (count : Int)
  /-- A character of a string constant is above U+00FF. -/
  | nonByteChar (char : Char)
  /-- A stage did not come to rest within its limit of rounds. -/
  | roundLimit (stage : RoundStage) (name : String) (rounds : Nat)
deriving DecidableEq

/-- A text between the marks that messages put around names. -/
private def marked (s : String) : String :=
  "`" ++ s ++ "`"

def CompileError.message : CompileError → String
  | unboundName name => "Name " ++ marked name.render ++ " is not bound in any enclosing scope"
  | duplicateDeclaration name =>
    "Name " ++ marked name.render ++ " is already declared in this scope"
  | undeclared name => "Name " ++ marked name.render ++ " was not declared in the current scope"
  | unset name => "Name " ++ marked name.render ++ " is declared but has no value yet"
  | unbalancedScope => "Scope end without a matching scope begin"
  | unknownMacro name => "Call to undefined macro " ++ marked name
  | duplicateMacro name => "Macro " ++ marked name ++ " is defined more than once"
  | arityMismatch name expected found =>
    marked name ++ s!" expects {expected} argument(s), found {found}"
  | aliasing builtin address =>
    "Operands of " ++ marked builtin.name ++ " must be distinct cells, " ++
      marked (addressText address) ++ " appears twice"
  | loopImbalance expected found =>
    s!"Loop body is not position-neutral: opened at frame offset {expected}, closed at {found}"
  | unmatchedLoopEnd => "Loop end without a matching loop begin"
  | unclosedLoops count => s!"{count} loop(s) left open at the end of the program"
  | outOfRange position tapeSize =>
    s!"Tape position {position} is outside of [0, {tapeSize})"
  | unknownOperation name => "No handler for operation " ++ marked name
  | notAllocated address => "Cell " ++ marked (addressText address) ++ " is not allocated"
  | badArity tag expected found =>
    marked tag.text ++ s!" takes {expected} children, found {found}"
  | duplicateBinding name => "Pattern binds " ++ marked name ++ " more than once"
  | missingCapture name expected =>
    "Pattern variable " ++ marked name ++ " is not bound to a " ++ expected.text
  | typeMismatch expected found => "Expected " ++ expected.text ++ ", found " ++ marked found
  | badInstruction char => "Bad character " ++ Text.quotedChar char ++ " in instruction fragment"
  | negativeCount count => s!"Count must not be negative, found {count}"
  | nonByteChar char => "Character " ++ Text.quotedChar char ++ " does not fit in a tape cell"
  | roundLimit stage name rounds =>
    stage.text ++ " of macro " ++ marked name ++
      s!" did not reach a fixed point after {rounds} rounds"

end TapeToolchain
