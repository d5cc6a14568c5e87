import TapeToolchain.CompileError
import TapeToolchain.Term.Node

/-!
Building terms. `Node.build` checks the number of children; the statement constructors below it
always have the right number, so they need no check.
-/

namespace TapeToolchain

/-- A compound term, refused when its tag takes another number of children. -/
def Node.build (tag : Tag) (children : List Node) : Except CompileError Node :=
  match tag.arity with
  | .variadic => .ok (.compound tag children)
  | .fixed expected =>
    if children.length = expected then .ok (.compound tag children)
    else .error (.badArity tag expected children.length)

namespace Statement

/-- A reference to a macro or built-in by name. -/
def name (text : String) : Node :=
  .compound .name [.literal text]

/-- A list of atomic arguments. -/
def arguments (atoms : List Atom) : Node :=
  .compound .arguments (atoms.map .literal)

/-- Declares a local cell in the current scope. -/
def localCell (text : String) : Node :=
  .compound .localCell [.literal text]

/-- Repeats the body while the condition's cell is not zero. -/
def whileNonzero (condition : Atom) (body : List Node) : Node :=
  .compound .whileBlock [arguments [condition], .compound .body body]

/-- Runs the body once if the condition's cell is not zero, and leaves that cell as it is. -/
def ifNonzero (condition : Atom) (body : List Node) : Node :=
  .compound .ifBlock [arguments [condition], .compound .body body]

def call (callee : String) (atoms : List Atom) : Node :=
  .compound .callMacro [name callee, arguments atoms]

def invoke (builtin : Builtin) (atoms : List Atom) : Node :=
  .compound .callBuiltin [name builtin.name, arguments atoms]

def envBegin : Node :=
  .compound .envBegin []

def envEnd : Node :=
  .compound .envEnd []

/-- Statements in a scope of their own. -/
def inScope (body : List Node) : List Node :=
  envBegin :: (body ++ [envEnd])

end Statement

end TapeToolchain
