import TapeToolchain.Repetition
import TapeToolchain.Term.Statement

/-!
Macro definitions and tables of them. A table holds at most one definition of a name and keeps
its definitions in the order of their names.
-/

namespace TapeToolchain

/-- A macro: its name, its parameters and the statements of its body. -/
structure Definition where
  name : String
  params : List Symbol
  body : List Node

def Definition.toNode (d : Definition) : Node :=
  .compound .userMacro
    [Statement.name d.name, .compound .parameters (d.params.map fun p => .literal (.name p)),
     .compound .body d.body]

def Definition.render (d : Definition) : String :=
  d.toNode.render

/-- A set of macros with different names. -/
structure MacroTable where
  definitions : List Definition

namespace MacroTable

def empty : MacroTable :=
  ⟨[]⟩

def find? (t : MacroTable) (name : String) : Option Definition :=
  t.definitions.find? fun d => d.name == name

def size (t : MacroTable) : Nat :=
  t.definitions.length

/-- Puts a definition in front of the first one with a greater name. -/
def insertSorted (d : Definition) : List Definition → List Definition
  | [] => [d]
  | e :: rest => if d.name < e.name then d :: e :: rest else e :: insertSorted d rest

/-- Adds a macro. Its name must be new, and no parameter may be named twice. -/
def define (t : MacroTable) (name : String) (params : List String) (body : List Node) :
    Except CompileError MacroTable :=
  if (t.find? name).isSome then .error (.duplicateMacro name)
  else
    let symbols := params.map Symbol.visible
    match firstRepeated? [] symbols with
    | some repeated => .error (.duplicateDeclaration repeated)
    | none => .ok ⟨insertSorted ⟨name, symbols, body⟩ t.definitions⟩

/-- Adds macros one after the other, each given by its name, its parameters and its body. -/
def defineAll (t : MacroTable) :
    List (String × List String × List Node) → Except CompileError MacroTable
  | [] => .ok t
  | (name, params, body) :: rest => do
    let extended ← t.define name params body
    extended.defineAll rest

end MacroTable

end TapeToolchain
