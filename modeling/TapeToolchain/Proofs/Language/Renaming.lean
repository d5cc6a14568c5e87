import TapeToolchain.Proofs.Expansion.Shape
import TapeToolchain.Proofs.Language.Syntax
import Mathlib.Logic.Function.Basic

/-!
Renaming the variables of macros. Each macro may have its own renaming, of its parameters, its local
cells and the operands of its body. The names of macros and built-ins stay, and so do hidden names,
which no author can write. A renamed program has the shape of the program, so the two expand alike.
-/

namespace TapeToolchain

/-! ## Closed macros -/

/-- The operand is a constant, an address or one of the given variables. -/
def Atom.Known (known : List String) : Atom → Prop
  | .name x => x ∈ known.map Symbol.visible
  | .int _ | .text _ | .address _ => True

instance (known : List String) : (a : Atom) → Decidable (a.Known known)
  | .name _ => inferInstanceAs (Decidable (_ ∈ _))
  | .int _ | .text _ | .address _ => inferInstanceAs (Decidable True)

/-- Every variable that stands in the block is one of the given ones, or a local cell that is
declared before it in the same block or in one around it. -/
def Block.Closed (known : List String) : Block → Prop
  | .done => True
  | .localCell x rest => rest.Closed (x :: known)
  | .ifNonzero c body rest | .whileNonzero c body rest =>
    c.Known known ∧ body.Closed known ∧ rest.Closed known
  | .call _ args rest | .builtin _ args rest => (∀ a ∈ args, a.Known known) ∧ rest.Closed known

instance Block.decidableClosed :
    (known : List String) → (block : Block) → Decidable (block.Closed known)
  | _, .done => inferInstanceAs (Decidable True)
  | known, .localCell x rest => decidableClosed (x :: known) rest
  | known, .ifNonzero _ body rest | known, .whileNonzero _ body rest =>
    have := decidableClosed known body
    have := decidableClosed known rest
    inferInstanceAs (Decidable (_ ∧ _ ∧ _))
  | known, .call _ _ rest | known, .builtin _ _ rest =>
    have := decidableClosed known rest
    inferInstanceAs (Decidable (_ ∧ _))

/-- The body uses no variables but the parameters and its own local cells. -/
def Macro.Closed (m : Macro) : Prop :=
  m.body.Closed m.params

instance (m : Macro) : Decidable m.Closed :=
  inferInstanceAs (Decidable (m.body.Closed m.params))

/-! ## Renaming -/

/-- Renames a variable, unless it is hidden. -/
def Symbol.rename (r : String → String) (x : Symbol) : Symbol :=
  if x.hidden then x else .visible (r x.text)

def Atom.rename (r : String → String) : Atom → Atom
  | .name x => .name (x.rename r)
  | a => a

def Block.rename (r : String → String) : Block → Block
  | .done => .done
  | .localCell x rest => .localCell (r x) (rest.rename r)
  | .ifNonzero c body rest => .ifNonzero (c.rename r) (body.rename r) (rest.rename r)
  | .whileNonzero c body rest => .whileNonzero (c.rename r) (body.rename r) (rest.rename r)
  | .call f args rest => .call f (args.map (Atom.rename r)) (rest.rename r)
  | .builtin b args rest => .builtin b (args.map (Atom.rename r)) (rest.rename r)

def Macro.rename (r : String → String) (m : Macro) : Macro :=
  ⟨m.name, m.params.map r, m.body.rename r⟩

/-- Renames the variables of each macro by the renaming that goes with its name. -/
def MacroProgram.rename (p : MacroProgram) (r : String → String → String) : MacroProgram :=
  ⟨p.macros.map fun m => m.rename (r m.name)⟩

theorem Symbol.rename_injective {r : String → String} (hr : Function.Injective r) :
    Function.Injective (Symbol.rename r) := by
  rintro ⟨x, hx⟩ ⟨y, hy⟩ h
  cases hx <;> cases hy <;> simp_all [rename, visible, hr.eq_iff]

theorem Symbol.beq_rename {r : String → String} (hr : Function.Injective r) (x y : Symbol) :
    (x.rename r == y.rename r) = (x == y) := by
  rw [Bool.eq_iff_iff, beq_iff_eq, beq_iff_eq, (rename_injective hr).eq_iff]

theorem MacroProgram.find?_rename (p : MacroProgram) (r : String → String → String)
    (name : String) :
    (p.rename r).find? name = (p.find? name).map fun m => m.rename (r m.name) := by
  rw [find?, rename, List.find?_map]
  rfl

/-! ## The shape of renamed programs -/

theorem Atom.shape_rename (r : String → String) (a : Atom) : (a.rename r).shape = a.shape := by
  cases a <;> rfl

theorem shape_arguments_rename (r : String → String) (args : List Atom) :
    (Statement.arguments (args.map (Atom.rename r))).shape = (Statement.arguments args).shape := by
  have hargs : shapes ((args.map (Atom.rename r)).map .literal) = shapes (args.map .literal) := by
    simp [shapes, Function.comp_def, Node.shape, Atom.shape_rename]
  rw [Statement.arguments, Statement.arguments, Node.shape_compound (by decide),
    Node.shape_compound (by decide), hargs]

/-- Blocks with a condition, of the same shape. -/
theorem shape_block_rename {tag : Tag} (htag : tag ≠ .name) (r : String → String) (c : Atom)
    {body body' : List Node} (hbody : shapes body' = shapes body) :
    (Node.compound tag [Statement.arguments [c.rename r], .compound .body body']).shape =
      (Node.compound tag [Statement.arguments [c], .compound .body body]).shape := by
  have hcondition := shape_arguments_rename r [c]
  rw [List.map_cons, List.map_nil] at hcondition
  rw [Node.shape_compound htag, Node.shape_compound htag]
  simp only [shapes_cons, shapes_nil, hcondition, @Node.shape_compound .body (by decide), hbody]

theorem Block.shapes_rename (r : String → String) (block : Block) :
    shapes (block.rename r).nodes = shapes block.nodes := by
  induction block with
  | done => rfl
  | localCell x rest ih =>
    rw [rename, nodes, nodes, shapes_cons, shapes_cons, ih]
    rfl
  | ifNonzero c body rest ihbody ihrest =>
    rw [rename, nodes, nodes, shapes_cons, shapes_cons, ihrest]
    exact congrArg (· :: _) (shape_block_rename (by decide) r c ihbody)
  | whileNonzero c body rest ihbody ihrest =>
    rw [rename, nodes, nodes, shapes_cons, shapes_cons, ihrest]
    exact congrArg (· :: _) (shape_block_rename (by decide) r c ihbody)
  | call f args rest ih =>
    rw [rename, nodes, nodes, shapes_cons, shapes_cons, ih, Statement.call, Statement.call,
      Node.shape_compound (by decide), Node.shape_compound (by decide)]
    simp only [shapes_cons, shapes_nil, shape_arguments_rename]
  | builtin b args rest ih =>
    rw [rename, nodes, nodes, shapes_cons, shapes_cons, ih, Statement.invoke, Statement.invoke,
      Node.shape_compound (by decide), Node.shape_compound (by decide)]
    simp only [shapes_cons, shapes_nil, shape_arguments_rename]

theorem MacroProgram.shape_rename (p : MacroProgram) (r : String → String → String) :
    (p.rename r).table.shape = p.table.shape := by
  have hmacro : ∀ m : Macro, (m.rename (r m.name)).definition.shape = m.definition.shape := by
    intro m
    simp [Definition.shape, Macro.definition, Macro.rename, Block.shapes_rename]
  simp [MacroTable.shape, table, rename, hmacro, Function.comp_def]

end TapeToolchain
