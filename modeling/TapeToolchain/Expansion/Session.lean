import TapeToolchain.Expansion.Inlining

/-!
Several requests on one table. A session remembers the macros it has desugared, so that each is
desugared once; failures are not remembered.
-/

namespace TapeToolchain

/-- The desugared macros of a session, by name. -/
structure Desugared where
  known : List (String × Definition)

namespace Desugared

def empty : Desugared :=
  ⟨[]⟩

/-- A request that may use and extend what is known. -/
abbrev Request := EStateM CompileError Desugared

/-- The desugared macro, from memory if it is known. -/
def desugar (t : MacroTable) (limits : RoundLimits) (name : String) : Request Definition :=
  fun memory =>
    match memory.known.lookup name with
    | some d => .ok d memory
    | none =>
      match t.desugar limits.desugaring name with
      | .ok d => .ok d ⟨(name, d) :: memory.known⟩
      | .error cause => .error cause memory

/-- The body of a macro with everything expanded. -/
def expand (t : MacroTable) (limits : RoundLimits) (entry : String) : Request (List Node) :=
  Inlining.expandWith t (desugar t limits) limits.inlining entry

end Desugared

end TapeToolchain
