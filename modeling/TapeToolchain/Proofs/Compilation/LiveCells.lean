import TapeToolchain.Proofs.Compilation.OnTape
import TapeToolchain.Proofs.Language.Ledger
import TapeToolchain.Proofs.Preliminaries

/-!
The cells that are live in the course of a compilation. The books of an evaluation hold throughout
the expanded body of a macro: the cells that are occupied after a statement are those of the local
cells that are still in scope, each with a single owner, and in the end none is left.
-/

namespace TapeToolchain

open Evaluator (run Balances Sound)

namespace Evaluator.Balances

variable {s : Evaluator} {ledger : List (List (Symbol × Int))}

theorem releases (h : s.Balances ledger) :
    (s.scopes.current :: s.scopes.outer).map (·.release) = ledger.map (List.map (·.2)) := by
  rw [← List.forall₂_eq_eq_eq, List.forall₂_map_left_iff, List.forall₂_map_right_iff]
  exact h.scopes.imp fun _ _ hscope => hscope.release

/-- An occupied cell is freed by one of the open scopes. -/
theorem existsUnique_release (h : s.Balances ledger) {o : Int} (ho : o ∈ s.frame.cells.offsets) :
    ∃! i : Nat, ∃ scope, (s.scopes.current :: s.scopes.outer)[i]? = some scope ∧
      o ∈ scope.release := by
  have hflatten : (ledger.map (List.map (·.2))).flatten = ledger.flatten.map (·.2) :=
    List.map_flatten.symm
  have hnodup := h.nodup
  rw [h.occupied, ← hflatten, ← h.releases] at ho
  rw [← hflatten, ← h.releases] at hnodup
  obtain ⟨i, ⟨list, hlist, hmem⟩, hunique⟩ := List.existsUnique_of_nodup_flatten hnodup ho
  rw [List.getElem?_map, Option.map_eq_some_iff] at hlist
  obtain ⟨scope, hscope, rfl⟩ := hlist
  refine ⟨i, ⟨scope, hscope, hmem⟩, ?_⟩
  rintro j ⟨other, hother, hmem'⟩
  exact hunique j ⟨other.release, by rw [List.getElem?_map, hother]; rfl, hmem'⟩

end Evaluator.Balances

/-- The expanded body of an entry macro is a sequence of steps that ends where it started, in the
root scope. -/
theorem exists_steps_of_expand {p : MacroProgram} {limits : RoundLimits} {entry : String}
    {body : List Node} (h : p.table.expand limits entry = .ok body) :
    ∃ steps : List Step, body = steps.flatMap Step.nodes ∧
      Outline.start.follow steps = some .start := by
  obtain ⟨m, inner, -, hinner, rfl⟩ := expand_eq_ok h
  obtain ⟨steps, hnodes, hfollow⟩ := hinner.outlines.inScope
  exact ⟨steps, hnodes, hfollow [] []⟩

/-- **Every live cell has one owner.** Take the expanded body of any macro that is built of local
cells, conditionals, loops, calls and built-ins, with any operands. It is a sequence of steps. After
each of them, as long as the evaluation succeeds, there is a ledger with the names of the local
cells that the steps have declared in each scope that is still open. It agrees with the state: a
cell is occupied if and only if it stands in the ledger, no cell stands there twice, each scope
binds the cells of its part to their names and will free them, and an occupied cell is freed by one
open scope only. At the end of the body no cell is occupied and no scope is open. -/
theorem live_cells_have_one_owner (p : MacroProgram) (limits : RoundLimits) (entry : String)
    (tapeSize : UInt64) (body : List Node) (h : p.table.expand limits entry = .ok body) :
    ∃ steps : List Step, body = steps.flatMap Step.nodes ∧
      (∀ before after s, steps = before ++ after →
        run (before.flatMap Step.nodes) (.new tapeSize) = .ok () s →
        ∃ g ledger, Outline.start.follow before = some g ∧ ledger.map (List.map (·.1)) = g.locals ∧
          s.Balances ledger ∧ ∀ o ∈ s.frame.cells.offsets,
            ∃! i : Nat, ∃ scope, (s.scopes.current :: s.scopes.outer)[i]? = some scope ∧
              o ∈ scope.release) ∧
      ∀ s, run body (.new tapeSize) = .ok () s → s.frame.cells.offsets = [] ∧
        s.scopes.depth = 0 := by
  obtain ⟨steps, rfl, hfollow⟩ := exists_steps_of_expand h
  refine ⟨steps, rfl, ?_, fun s hs => ?_⟩
  · rintro before after s rfl hs
    rw [Outline.follow_append] at hfollow
    obtain ⟨g, hg, -⟩ := Option.bind_eq_some_iff.1 hfollow
    have hsound := (Evaluator.sound_new tapeSize).follow hg
    rw [hs] at hsound
    obtain ⟨ledger, hnames, hbalances⟩ := hsound.balanced
    exact ⟨g, ledger, hg, hnames, hbalances, fun o ho => hbalances.existsUnique_release ho⟩
  · have hsound := (Evaluator.sound_new tapeSize).follow hfollow
    rw [hs] at hsound
    exact hsound.settled

/-- A variable that is set to one in a conditional on another, by a macro. -/
def raisedFlag : MacroProgram where
  macros := [
    ⟨"main", [], .localCell "x" <| .builtin .clear ["x"] <| .localCell "flag" <|
      .ifNonzero "x" (.localCell "y" <| .call "raise" ["flag"] .done) .done⟩,
    ⟨"raise", ["x"], .builtin .clear ["x"] <| .builtin .constantAdd [.int 1, "x"] .done⟩]

theorem live_cells_have_one_owner_raisedFlag :
    ∃ (body : List Node) (steps : List Step) (s : Evaluator),
      raisedFlag.table.expand ⟨256, 256⟩ "main" = .ok body ∧ body = steps.flatMap Step.nodes ∧
      run body (.new 30000) = .ok () s ∧ s.frame.cells.offsets = [] ∧
      ∀ before after u, steps = before ++ after →
        run (before.flatMap Step.nodes) (.new 30000) = .ok () u → ∃ ledger, u.Balances ledger := by
  have hok : (compile {} raisedFlag.table "main").isOk := by decide +kernel
  obtain ⟨l, hl⟩ := Except.exists_eq_ok_of_isOk hok
  obtain ⟨body, s, hbody, hrun, -⟩ := compile_eq_ok.1 hl
  obtain ⟨steps, hsteps, hprefix, hend⟩ :=
    live_cells_have_one_owner raisedFlag ⟨256, 256⟩ "main" 30000 body hbody
  refine ⟨body, steps, s, hbody, hsteps, hrun, (hend s hrun).1, fun before after u hsplit hu => ?_⟩
  obtain ⟨-, ledger, -, -, hbalances, -⟩ := hprefix before after u hsplit hu
  exact ⟨ledger, hbalances⟩

end TapeToolchain
