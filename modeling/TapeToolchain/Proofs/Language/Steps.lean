import TapeToolchain.Proofs.Language.Expansion

/-!
Expanded blocks as sequences of steps. An expanded block is flat: scopes are opened and closed,
local cells and parameters are declared, and built-ins are invoked. An outline follows such a
sequence without evaluating it. It holds the names of the local cells of each open scope, and
refuses steps that are out of place; those of an expanded block never are (`Expands.outlines`).
-/

namespace TapeToolchain

open Desugaring (localStatements conditionCopy)

/-- A statement of an expanded block. The three terms of a local cell count as one. -/
inductive Step where
  | openScope
  | closeScope
  | localCell (name : Symbol)
  | declare (param : Symbol)
  | bind (param : Symbol) (argument : Atom)
  | invoke (b : Builtin) (arguments : List Atom)

def Step.nodes : Step → List Node
  | openScope => [Statement.envBegin]
  | closeScope => [Statement.envEnd]
  | localCell x => localStatements (.literal (.name x))
  | declare x => [.compound .envDeclare [.literal (.name x)]]
  | bind x a => [.compound .envSet [.literal (.name x), .compound .outerEnvGet [.literal a]]]
  | invoke b args => [Statement.invoke b args]

/-- What is known of a sequence of steps without evaluating it. -/
structure Outline where
  /-- The names of the local cells of each open scope, the current scope first. -/
  locals : List (List Symbol)
  /-- The parameter that is declared and has no value yet. -/
  waiting : Option Symbol

namespace Outline

/-- Nothing but the root scope. -/
def start : Outline :=
  ⟨[[]], none⟩

/-- The outline after one more step. A parameter is given its value at once, and the root stays
open. -/
def advance : Outline → Step → Option Outline
  | ⟨locals, none⟩, .openScope => some ⟨[] :: locals, none⟩
  | ⟨_ :: parent :: outer, none⟩, .closeScope => some ⟨parent :: outer, none⟩
  | ⟨own :: outer, none⟩, .localCell x => some ⟨(own ++ [x]) :: outer, none⟩
  | ⟨locals, none⟩, .declare x => some ⟨locals, some x⟩
  | ⟨locals, some x⟩, .bind y _ => if x = y then some ⟨locals, none⟩ else none
  | ⟨locals, none⟩, .invoke _ _ => some ⟨locals, none⟩
  | _, _ => none

def follow (g : Outline) (steps : List Step) : Option Outline :=
  steps.foldlM advance g

theorem follow_cons (g : Outline) (step : Step) (rest : List Step) :
    g.follow (step :: rest) = (g.advance step).bind (·.follow rest) :=
  List.foldlM_cons

theorem follow_append (g : Outline) (a b : List Step) :
    g.follow (a ++ b) = (g.follow a).bind (·.follow b) :=
  List.foldlM_append

theorem follow_append_of_some {g g' : Outline} {a : List Step} (h : g.follow a = some g')
    (b : List Step) : g.follow (a ++ b) = g'.follow b := by
  rw [follow_append, h]
  rfl

end Outline

/-- The terms are those of steps that add the given local cells to the current scope and are never
out of place. -/
def Outlines (nodes : List Node) (names : List Symbol) : Prop :=
  ∃ steps : List Step, nodes = steps.flatMap Step.nodes ∧
    ∀ own outer, Outline.follow ⟨own :: outer, none⟩ steps = some ⟨(own ++ names) :: outer, none⟩

namespace Outlines

theorem nil : Outlines [] [] :=
  ⟨[], rfl, fun own outer => by rw [List.append_nil]; rfl⟩

theorem append {a b : List Node} {names names' : List Symbol} (ha : Outlines a names)
    (hb : Outlines b names') : Outlines (a ++ b) (names ++ names') := by
  obtain ⟨steps, rfl, hsteps⟩ := ha
  obtain ⟨steps', rfl, hsteps'⟩ := hb
  refine ⟨steps ++ steps', List.flatMap_append.symm, fun own outer => ?_⟩
  rw [Outline.follow_append_of_some (hsteps own outer), hsteps', List.append_assoc]

theorem localCell (x : Symbol) : Outlines (localStatements (.literal (.name x))) [x] :=
  ⟨[.localCell x], (List.append_nil _).symm, fun _ _ => rfl⟩

theorem invoke (b : Builtin) (args : List Atom) : Outlines [Statement.invoke b args] [] :=
  ⟨[.invoke b args], rfl, fun own outer => by rw [List.append_nil]; rfl⟩

/-- A scope takes its local cells with it. -/
theorem inScope {body : List Node} {names : List Symbol} (h : Outlines body names) :
    Outlines (Statement.inScope body) [] := by
  obtain ⟨steps, rfl, hsteps⟩ := h
  refine ⟨.openScope :: (steps ++ [.closeScope]), ?_, fun own outer => ?_⟩
  · rw [Statement.inScope, List.flatMap_cons, List.flatMap_append]
    rfl
  · rw [Outline.follow_cons]
    show Outline.follow ⟨[] :: own :: outer, none⟩ (steps ++ [.closeScope]) = _
    rw [Outline.follow_append_of_some (hsteps [] (own :: outer)), List.append_nil]
    rfl

theorem bindParameters :
    ∀ (params : List String) (args : List Atom), Outlines (bindParameters params args) []
  | [], _ | _ :: _, [] => nil
  | x :: params, a :: args => by
    have hfirst : Outlines (Inlining.bindParameter (.visible x) (.literal a)) [] := by
      refine ⟨[.declare (.visible x), .bind (.visible x) a], rfl, fun own outer => ?_⟩
      rw [List.append_nil, Outline.follow_cons]
      show Outline.follow ⟨own :: outer, some (.visible x)⟩ [.bind (.visible x) a] = _
      rw [Outline.follow_cons, Outline.advance, if_pos rfl]
      rfl
    exact hfirst.append (bindParameters params args)

theorem expandedIf (c : Atom) {inner : List Node} {names : List Symbol} (h : Outlines inner names) :
    Outlines (expandedIf c inner) [] := by
  have hcopy := (localCell conditionCopy).append
    ((invoke .copy [c, conditionOperand]).append (invoke .beginLoop [conditionOperand]))
  have hend := (invoke .clear [conditionOperand]).append (invoke .endLoop [conditionOperand])
  exact ((hcopy.append h).append hend).inScope

theorem whileStatements (c : Atom) {inner : List Node} {names : List Symbol}
    (h : Outlines inner names) : Outlines (Desugaring.whileStatements c inner) [] :=
  (((invoke .beginLoop [c]).append h).append (invoke .endLoop [c])).inScope

theorem expandedCall (params : List String) (args : List Atom) {inner : List Node}
    {names : List Symbol} (h : Outlines inner names) :
    Outlines (expandedCall params args inner) [] :=
  ((bindParameters params args).append h.inScope).inScope

end Outlines

/-- An expanded block is a sequence of steps that add its own local cells. -/
theorem Expands.outlines {p : MacroProgram} {block : Block} {nodes : List Node}
    (h : Expands p block nodes) : Outlines nodes (block.locals.map .visible) := by
  induction h with
  | done => exact .nil
  | localCell _ ih => exact (Outlines.localCell _).append ih
  | ifNonzero _ _ ihbody ihrest => exact (ihbody.expandedIf _).append ihrest
  | whileNonzero _ _ ihbody ihrest => exact (ihbody.whileStatements _).append ihrest
  | callMacro _ _ _ _ ihbody ihrest => exact (ihbody.expandedCall _ _).append ihrest
  | callBuiltin _ _ _ ih => exact (Outlines.invoke _ _).append ih
  | builtin _ ih => exact (Outlines.invoke _ _).append ih

end TapeToolchain
