import TapeToolchain.Evaluation.Evaluator
import TapeToolchain.Expansion.Session

/-!
The macro compiler: expansion of an entry macro, then evaluation of the expanded body.
-/

namespace TapeToolchain

structure Options where
  /-- The number of cells on the target's tape. -/
  tapeSize : UInt64 := 30000
  /-- The width of the lines in which the code is shown. -/
  lineWidth : Nat := 70
  /-- The limit on desugaring rounds for each macro. -/
  maxDesugarRounds : Nat := 256
  /-- The limit on inlining rounds for the entry. -/
  maxInlineRounds : Nat := 256

def Options.limits (o : Options) : RoundLimits :=
  ⟨o.maxDesugarRounds, o.maxInlineRounds⟩

/-- Compiles the entry macro of a table. There is code only if all of it succeeds. -/
def compile (o : Options) (t : MacroTable) (entry : String) : Except CompileError Listing := do
  let body ← t.expand o.limits entry
  match Evaluator.run body (.new o.tapeSize) with
  | .ok () final => final.finish o.lineWidth
  | .error cause _ => throw cause

end TapeToolchain
