import TapeToolchain.Proofs.Actions
import TapeToolchain.Proofs.Expansion.Rules

/-!
Why expansion fails. It looks at calls, at the shapes of blocks and at the number of rounds, and has
nothing to do with scopes, cells or loops.
-/

namespace TapeToolchain

/-- The causes that stop expansion. -/
def CompileError.StopsExpansion : CompileError → Prop
  | .unknownMacro _ | .arityMismatch .. | .roundLimit .. | .typeMismatch .. => True
  | _ => False

/-- If the computation fails, then for one of the causes that stop expansion. -/
def FailsInExpansion {α : Type} (x : Except CompileError α) : Prop :=
  ∀ c, x = .error c → c.StopsExpansion

namespace FailsInExpansion

theorem ok {α : Type} (a : α) : FailsInExpansion (Except.ok a) := nofun

theorem error {α : Type} {c : CompileError} (h : c.StopsExpansion) :
    FailsInExpansion (Except.error c : Except CompileError α) := by
  rintro _ ⟨⟩
  exact h

theorem bind {α β : Type} {x : Except CompileError α} {f : α → Except CompileError β}
    (hx : FailsInExpansion x) (hf : ∀ a, FailsInExpansion (f a)) : FailsInExpansion (x >>= f) := by
  cases x with
  | ok a => exact hf a
  | error c => exact error (hx c rfl)

theorem map {α β : Type} {x : Except CompileError α} (f : α → β) (hx : FailsInExpansion x) :
    FailsInExpansion (x.map f) := by
  cases x with
  | ok a => exact ok _
  | error c => exact error (hx c rfl)

theorem sweep {step : Node → Except CompileError (Option (List Node))}
    (hstep : ∀ n, FailsInExpansion (step n)) (body : List Node) :
    FailsInExpansion (sweep step body) := by
  induction body with
  | nil => exact ok _
  | cons n rest ih =>
    refine bind (hstep n) fun replacement => bind ih fun _ => ?_
    cases replacement <;> exact ok _

/-! ## Desugaring -/

theorem blockReplacement? (tag : Tag) (statements : Atom → List Node → List Node) (n : Node) :
    FailsInExpansion (Desugaring.blockReplacement? tag statements n) := by
  rw [Desugaring.blockReplacement?]
  split
  · exact ok _
  · split
    · exact ok _
    · exact error trivial

theorem rules : ∀ rule ∈ Desugaring.rules, ∀ n, FailsInExpansion (rule.2.replacement? n) := by
  intro rule hrule n
  simp only [Desugaring.rules, List.mem_cons, List.not_mem_nil, or_false] at hrule
  rcases hrule with rfl | rfl | rfl
  · rw [Desugaring.allocateLocals_replacement?]
    exact ok _
  · rw [Desugaring.expandIfBlock_replacement?]
    exact blockReplacement? _ _ _
  · rw [Desugaring.expandWhileBlock_replacement?]
    exact blockReplacement? _ _ _

theorem applyRules :
    ∀ {rules : List Rule}, (∀ rule ∈ rules, ∀ n, FailsInExpansion (rule.replacement? n)) →
    ∀ body, FailsInExpansion (Desugaring.applyRules rules body)
  | [], _, _ => ok _
  | rule :: _, h, body =>
    bind (sweep (h rule List.mem_cons_self) body) fun _ =>
      bind (applyRules (fun r hr => h r (List.mem_cons_of_mem _ hr)) _) fun _ => ok _

theorem roundsFrom (done limit : Nat) (body : List Node) :
    FailsInExpansion (Desugaring.roundsFrom done limit body) := by
  induction limit generalizing done body with
  | zero => exact ok _
  | succ limit ih =>
    refine bind (applyRules (fun rule hrule => ?_) body) fun ⟨next, changed⟩ => ?_
    · obtain ⟨named, hnamed, rfl⟩ := List.mem_map.1 hrule
      exact rules named hnamed
    · cases changed with
      | true => exact ih _ _
      | false => exact ok _

theorem desugar (t : MacroTable) (limit : Nat) (name : String) :
    FailsInExpansion (t.desugar limit name) := by
  rw [MacroTable.desugar]
  split
  · exact error trivial
  · refine bind (roundsFrom _ _ _) fun result => ?_
    cases result with
    | none => exact error trivial
    | some result => exact ok _

/-! ## Inlining -/

section
variable {t : MacroTable} {desugar : String → Except CompileError Definition}
variable (h : ∀ name, FailsInExpansion (desugar name))
include h

theorem expandCall (callee : String) (arguments : List Node) :
    FailsInExpansion (Inlining.expandCall t desugar callee arguments) := by
  rw [Inlining.expandCall]
  split
  · split
    · exact ok _
    · exact error trivial
  · refine bind (h callee) fun d => ?_
    split
    · exact ok _
    · exact error trivial

theorem inline? (n : Node) : FailsInExpansion (Inlining.inline? t desugar n) := by
  rw [Inlining.inline?_eq]
  split
  · exact ok _
  · split
    · exact map some (expandCall h _ _)
    · exact error trivial

theorem rounds (limit : Nat) (body : List Node) :
    FailsInExpansion (Inlining.rounds t desugar limit body) := by
  induction limit generalizing body with
  | zero => exact ok _
  | succ limit ih =>
    refine bind (sweep (inline? h) body) fun ⟨next, changed⟩ => ?_
    cases changed with
    | true => exact ih _
    | false => exact ok _

end

/-- Expansion fails for a cause of its own. -/
theorem expand (t : MacroTable) (limits : RoundLimits) (entry : String) :
    FailsInExpansion (t.expand limits entry) := by
  refine bind (desugar _ _ _) fun d => bind (rounds (desugar _ _) _ _) fun result => ?_
  cases result with
  | none => exact error trivial
  | some body => exact ok _

end FailsInExpansion

end TapeToolchain
