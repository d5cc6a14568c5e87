import TapeToolchain.Proofs.Compilation.OnTape
import TapeToolchain.Proofs.Language.Lockstep
import TapeToolchain.Proofs.Preliminaries
import Mathlib.Logic.Equiv.Basic

/-!
Hygiene of macros: the author of a macro is free in the choice of its variables. No variable of a
macro can be mistaken for one of its callers or callees, nor for the cells that conditionals take
for themselves, so another choice of names gives the same code.
-/

namespace TapeToolchain

open Evaluator (final? Alike)

/-- The expanded bodies of an entry and of its copy lead to the same state. -/
theorem final?_expand_rename {p : MacroProgram} (hclosed : ∀ m ∈ p.macros, m.Closed)
    {r : String → String → String} (hr : ∀ m ∈ p.macros, Function.Injective (r m.name))
    {limits : RoundLimits} {entry : String} {body body' : List Node}
    (h : p.table.expand limits entry = .ok body)
    (h' : (p.rename r).table.expand limits entry = .ok body') (tapeSize : UInt64) :
    final? body' (.new tapeSize) = final? body (.new tapeSize) := by
  obtain ⟨m, inner, hm, hinner, rfl⟩ := expand_eq_ok h
  obtain ⟨m', inner', hm', hinner', rfl⟩ := expand_eq_ok h'
  rw [MacroProgram.find?_rename, hm] at hm'
  cases hm'
  have hmem := MacroProgram.mem_of_find? hm
  -- the parameters of the entry are bound to nothing, whatever their names
  have hnew : Alike (r m.name) (m.params.map .visible) (.new tapeSize) (.new tapeSize) :=
    ⟨rfl, fun _ => rfl, fun _ _ => rfl⟩
  have hlockstep :=
    hinner.lockstep hr hclosed (hr m hmem) hinner' (hclosed m hmem) (List.Subset.refl _) hnew.push
  rw [Evaluator.final?_inScope hinner.owns_something,
    Evaluator.final?_inScope hinner'.owns_something]
  exact Option.Rel.map_eq hlockstep fun u u' hu => by rw [hu.frame]

/-- **Names do not matter.** Take any program built of local cells, conditionals, loops, calls and
built-ins, in which each macro uses no variables but its parameters and the local cells that it
declares before, in the same block or around it. Rename the variables of each macro by an injective
map of its own, be it to names that other macros use. The renamed program compiles if and only if
the program does, and to the same code. -/
theorem renamed_variables_keep_code (p : MacroProgram) (hclosed : ∀ m ∈ p.macros, m.Closed)
    (r : String → String → String) (hr : ∀ m ∈ p.macros, Function.Injective (r m.name))
    (o : Options) (entry : String) (l : Listing) :
    compile o (p.rename r).table entry = .ok l ↔ compile o p.table entry = .ok l := by
  -- expansion sees shapes only, so that both bodies exist or neither does
  have hagree := expand_agree (p.shape_rename r) o.limits entry
  rw [compile_eq_ok, compile_eq_ok]
  cases h : p.table.expand o.limits entry with
  | error c =>
    cases h' : (p.rename r).table.expand o.limits entry with
    | error c' => simp
    | ok body' =>
      rw [h, h'] at hagree
      cases hagree
  | ok body =>
    cases h' : (p.rename r).table.expand o.limits entry with
    | error c' =>
      rw [h, h'] at hagree
      cases hagree
    | ok body' =>
      have hfinal := final?_expand_rename hclosed hr h h' o.tapeSize
      simp only [Except.ok.injEq, exists_and_left, exists_eq_left', ← Evaluator.final?_eq_some,
        hfinal]

/-- Two variables that a macro clears, if one of them is set. -/
def clearedPair : MacroProgram where
  macros := [
    ⟨"main", [], .localCell "x" <| .builtin .clear ["x"] <| .localCell "y" <|
      .ifNonzero "x" (.call "clearBoth" ["x", "y"] .done) .done⟩,
    ⟨"clearBoth", ["a", "b"], .builtin .clear ["a"] <| .builtin .clear ["b"] .done⟩]

/-- New names that clash: the variable of the conditional takes the name of the hidden cell, and so
does the first parameter of the callee. Its second parameter takes the name of a variable of the
caller. -/
def clashing : String → Equiv.Perm String
  | "main" => Equiv.swap "x" "if_tmp"
  | _ => (Equiv.swap "a" "if_tmp").trans (Equiv.swap "b" "y")

theorem renamed_variables_keep_code_clearedPair :
    (∀ m ∈ clearedPair.macros, m.Closed) ∧ ∃ l, compile {} clearedPair.table "main" = .ok l ∧
      compile {} (clearedPair.rename fun name => clashing name).table "main" = .ok l := by
  have hclosed : ∀ m ∈ clearedPair.macros, m.Closed := by decide
  have hok : (compile {} clearedPair.table "main").isOk := by decide +kernel
  obtain ⟨l, hl⟩ := Except.exists_eq_ok_of_isOk hok
  have hsame := renamed_variables_keep_code clearedPair hclosed (fun name => clashing name)
    (fun m _ => (clashing m.name).injective) {} "main" l
  exact ⟨hclosed, l, hl, hsame.2 hl⟩

end TapeToolchain
