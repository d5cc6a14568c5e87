import TapeToolchain.Proofs.Compilation.LiveCells
import TapeToolchain.Proofs.Compilation.LoopFaults
import TapeToolchain.Proofs.Language.Tables

/-!
Errors that no author of macros can see. The stages of a compilation rely on each other: actions of
rules on what patterns capture, evaluation on the shape of expanded bodies, scopes on the pool of
cells. Where one stage would break its part of the contract, there is an error for it; none of these
errors comes of a table of macros that are built of statements.
-/

namespace TapeToolchain

/-- The errors of one stage about another. -/
def CompileError.IsInternal : CompileError → Prop
  | .notAllocated _ | .unbalancedScope | .undeclared _ | .unset _ | .unknownOperation _
      | .missingCapture ..
  | .duplicateBinding _ | .badArity .. | .badInstruction _ => True
  | _ => False

theorem CompileError.StopsExpansion.not_internal {c : CompileError} (h : c.StopsExpansion) :
    ¬ c.IsInternal := by
  intro hinternal
  cases c <;> first | (cases h; done) | cases hinternal

theorem CompileError.StopsEvaluation.not_internal {c : CompileError} (h : c.StopsEvaluation) :
    ¬ c.IsInternal := by
  intro hinternal
  cases c <;> first | (cases h; done) | cases hinternal

/-! ## Checks that always pass -/

/-- Every rule of desugaring captures each name once. -/
theorem rules_build :
    ∀ rule ∈ Desugaring.rules, Rule.build rule.2.pattern rule.2.action = .ok rule.2 := by
  simp only [Desugaring.rules, List.forall_mem_cons]
  exact ⟨rfl, rfl, rfl, List.forall_mem_nil _⟩

/-- The text that clears a cell consists of instructions. -/
theorem Frame.clear_eq_raw (dst : Int) :
    Frame.clear dst = Frame.emit (do Emitter.moveTo dst; Emitter.raw "[-]") := by
  have htext : "[-]".toList = ['[', '-', ']'] := by decide
  have hraw : Emitter.raw "[-]" = Emitter.replay [.loopBegin, .decrement, .loopEnd] := by
    rw [Emitter.raw, htext]
    rfl
  rw [Frame.clear, hraw]

/-! ## Compilation -/

theorem finish_not_internal {s : Evaluator} (hdepth : s.scopes.depth = 0) {lineWidth : Nat}
    {c : CompileError} (h : s.finish lineWidth = .error c) : ¬ c.IsInternal := by
  rw [Evaluator.finish, if_pos hdepth, Frame.finish, Emitter.finish] at h
  split at h
  · cases h
  · cases h
    intro hinternal
    cases hinternal

theorem compile_not_internal {p : MacroProgram} {o : Options} {entry : String} {c : CompileError}
    (h : compile o p.table entry = .error c) : ¬ c.IsInternal := by
  rcases compile_eq_error.1 h with hexpand | ⟨body, hexpand, hrun⟩
  · exact (FailsInExpansion.expand _ _ _ c hexpand).not_internal
  obtain ⟨steps, rfl, hfollow⟩ := exists_steps_of_expand hexpand
  have hsound := (Evaluator.sound_new o.tapeSize).follow hfollow
  rcases hrun with ⟨s, hs⟩ | ⟨s, hs, hfinish⟩
  · rw [hs] at hsound
    exact CompileError.StopsEvaluation.not_internal hsound
  · rw [hs] at hsound
    exact finish_not_internal hsound.settled.2 hfinish

/-- **No stage of a compilation fails over another.** The rules of desugaring and the pattern of a
call capture each name once, and the text that clears a cell consists of instructions. Take any
table to which macros were added that are built of local cells, conditionals, loops, calls and
built-ins, with any operands. If the compilation of an entry fails, then for a cause that lies in
the macros: no cell is freed that is not occupied, no scope is closed that is not open, no name gets
or lacks a value out of turn, and no term is left that evaluation does not know. -/
theorem internal_errors_are_unreachable :
    (∀ rule ∈ Desugaring.rules, Rule.build rule.2.pattern rule.2.action = .ok rule.2) ∧
    Inlining.callPattern.validate = .ok () ∧
    (∀ dst, Frame.clear dst = Frame.emit (do Emitter.moveTo dst; Emitter.raw "[-]")) ∧
    ∀ (macros : List Macro) (t : MacroTable),
      MacroTable.empty.defineAll (macros.map Macro.entry) = .ok t →
      ∀ (o : Options) (entry : String) (c : CompileError), compile o t entry = .error c →
        ¬ c.IsInternal := by
  refine ⟨rules_build, rfl, Frame.clear_eq_raw, fun macros t ht o entry c hc => ?_⟩
  rw [MacroProgram.defineAll_ok (p := ⟨[]⟩) ht] at hc
  exact compile_not_internal hc

/-- An entry macro that passes on a parameter of its own, which has no argument. -/
def passedOn : MacroProgram where
  macros := [
    ⟨"main", ["x"], .call "show" ["x"] .done⟩,
    ⟨"show", ["x"], .localCell "y" <| .ifNonzero "x" (.builtin .putChar ["x"] .done) .done⟩]

theorem internal_errors_are_unreachable_passedOn :
    MacroTable.empty.defineAll (passedOn.macros.map Macro.entry) = .ok passedOn.table ∧
      compile {} passedOn.table "main" = .error (.unboundName (.visible "x")) ∧
      ¬ (CompileError.unboundName (.visible "x")).IsInternal := by
  have htable : MacroTable.empty.defineAll (passedOn.macros.map Macro.entry) = .ok passedOn.table :=
    rfl
  have hcompile : compile {} passedOn.table "main" = .error (.unboundName (.visible "x")) := by
    decide +kernel
  obtain ⟨-, -, -, hunreachable⟩ := internal_errors_are_unreachable
  exact ⟨htable, hcompile, hunreachable _ _ htable {} "main" _ hcompile⟩

end TapeToolchain
