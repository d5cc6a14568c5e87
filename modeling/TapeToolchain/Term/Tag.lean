/-!
The closed vocabulary of compound terms: each tag has a name and a number of children.
-/

namespace TapeToolchain

/-- How many children a tag takes. -/
inductive Arity where
  | fixed (count : Nat)
  | variadic
deriving DecidableEq

/-- The head of a compound term. -/
inductive Tag where
  /-- A reference to a macro or a built-in. -/
  | name
  | localCell
  | parameters
  | arguments
  | callMacro
  | callBuiltin
  | userMacro
  | body
  | whileBlock
  | ifBlock
  | envBegin
  /-- Closes a scope and frees the cells it owns. -/
  | envEnd
  | envDeclare
  | envSet
  | envGet
  /-- Looks a name up from the enclosing scope on. -/
  | outerEnvGet
  | allocateLocal
  | freeLocal
  /-- Hands a cell to the current scope, which frees it on exit. -/
  | freeLocalOnEnvExit
deriving DecidableEq

namespace Tag

/-- Every tag, in the order of the vocabulary. -/
def all : List Tag :=
  [name, localCell, parameters, arguments, callMacro, callBuiltin, userMacro, body, whileBlock,
   ifBlock, envBegin, envEnd, envDeclare, envSet, envGet, outerEnvGet, allocateLocal, freeLocal,
   freeLocalOnEnvExit]

def arity : Tag → Arity
  | parameters | arguments | body => .variadic
  | envBegin | envEnd | allocateLocal => .fixed 0
  | name | localCell | envDeclare | envGet | outerEnvGet | freeLocal | freeLocalOnEnvExit =>
    .fixed 1
  | callMacro | callBuiltin | whileBlock | ifBlock | envSet => .fixed 2
  | userMacro => .fixed 3

/-- The tag as written at the head of a term. -/
def text : Tag → String
  | name => "name"
  | localCell => "local"
  | parameters => "parameters"
  | arguments => "arguments"
  | callMacro => "call_macro"
  | callBuiltin => "call_builtin"
  | userMacro => "user_macro"
  | body => "body"
  | whileBlock => "while"
  | ifBlock => "if"
  | envBegin => "env_begin"
  | envEnd => "env_end"
  | envDeclare => "env_declare"
  | envSet => "env_set"
  | envGet => "env_get"
  | outerEnvGet => "outer_env_get"
  | allocateLocal => "allocate_local"
  | freeLocal => "free_local"
  | freeLocalOnEnvExit => "free_local_on_env_exit"

def ofText? (text : String) : Option Tag :=
  all.find? fun tag => tag.text == text

theorem mem_all (tag : Tag) : tag ∈ all := by
  cases tag <;> decide

end Tag

end TapeToolchain
