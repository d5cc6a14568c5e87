import TapeToolchain.Expansion.Inlining

/-!
The structured language that macros are written in: local cells, conditionals, loops, calls of
macros and of built-ins. A block is its statements in order, so that a function of blocks goes
through the statements and into the blocks inside of them by one recursion.
-/

namespace TapeToolchain

/-- The statements of a block, each with those that come after it. -/
inductive Block where
  | done
  | localCell (name : String) (rest : Block)
  | ifNonzero (condition : Atom) (body rest : Block)
  | whileNonzero (condition : Atom) (body rest : Block)
  | call (callee : String) (arguments : List Atom) (rest : Block)
  | builtin (b : Builtin) (arguments : List Atom) (rest : Block)

namespace Block

def nodes : Block → List Node
  | done => []
  | localCell x rest => Statement.localCell x :: rest.nodes
  | ifNonzero c body rest => Statement.ifNonzero c body.nodes :: rest.nodes
  | whileNonzero c body rest => Statement.whileNonzero c body.nodes :: rest.nodes
  | call f args rest => Statement.call f args :: rest.nodes
  | builtin b args rest => Statement.invoke b args :: rest.nodes

/-- The names that the block itself declares, without those of blocks inside of it. -/
def locals : Block → List String
  | done => []
  | localCell x rest => x :: rest.locals
  | ifNonzero _ _ rest | whileNonzero _ _ rest | call _ _ rest | builtin _ _ rest => rest.locals

/-- The operands of the block: arguments and conditions, also those in blocks inside of it. -/
def operands : Block → List Atom
  | done => []
  | localCell _ rest => rest.operands
  | ifNonzero c body rest | whileNonzero c body rest => c :: (body.operands ++ rest.operands)
  | call _ args rest | builtin _ args rest => args ++ rest.operands

end Block

structure Macro where
  name : String
  params : List String
  body : Block

def Macro.definition (m : Macro) : Definition :=
  ⟨m.name, m.params.map .visible, m.body.nodes⟩

structure MacroProgram where
  macros : List Macro

namespace MacroProgram

def table (p : MacroProgram) : MacroTable :=
  ⟨p.macros.map Macro.definition⟩

def find? (p : MacroProgram) (name : String) : Option Macro :=
  p.macros.find? fun m => m.name == name

theorem find?_table (p : MacroProgram) (name : String) :
    p.table.find? name = (p.find? name).map Macro.definition := by
  rw [MacroTable.find?, table, List.find?_map]
  rfl

theorem mem_of_find? {p : MacroProgram} {name : String} {m : Macro} (h : p.find? name = some m) :
    m ∈ p.macros :=
  List.mem_of_find?_eq_some h

/-- The built-ins that the block names itself, also in blocks inside of it. A call names a built-in
when the program has no macro of that name. -/
def builtins (p : MacroProgram) : Block → List Builtin
  | .done => []
  | .localCell _ rest => p.builtins rest
  | .ifNonzero _ body rest | .whileNonzero _ body rest => p.builtins body ++ p.builtins rest
  | .call f _ rest =>
    (match p.find? f with
      | some _ => []
      | none => (Builtin.ofName? f).toList) ++ p.builtins rest
  | .builtin b _ rest => b :: p.builtins rest

end MacroProgram

end TapeToolchain
