import TapeToolchain.Proofs.Expansion.Rewriting

/-!
Expansion under higher limits. A limit only says when to give up: rounds that come to rest under it
take the same steps under a higher one. So what is expanded under some limits is expanded to the
same under higher ones.
-/

namespace TapeToolchain

/-- Whenever the first succeeds, so does the second, with the same result. -/
def KeepsSuccess {α : Type} (x y : Except CompileError α) : Prop :=
  ∀ a, x = .ok a → y = .ok a

namespace KeepsSuccess

theorem refl {α : Type} (x : Except CompileError α) : KeepsSuccess x x :=
  fun _ h => h

theorem bind {α β : Type} {x y : Except CompileError α} {f g : α → Except CompileError β}
    (hx : KeepsSuccess x y) (hf : ∀ a, KeepsSuccess (f a) (g a)) :
    KeepsSuccess (x >>= f) (y >>= g) := by
  intro b h
  obtain ⟨a, ha, hb⟩ := except_bind_eq_ok.1 h
  exact except_bind_eq_ok.2 ⟨a, hx a ha, hf a b hb⟩

/-! ## Desugaring -/

theorem roundsFrom (done : Nat) {limit limit' : Nat} (hle : limit ≤ limit') (body : List Node) :
    ∀ result, Desugaring.roundsFrom done limit body = .ok (some result) →
      Desugaring.roundsFrom done limit' body = .ok (some result) := by
  induction limit generalizing done limit' body with
  | zero => intro result h; cases h
  | succ limit ih =>
    obtain ⟨limit', rfl⟩ : ∃ k, limit' = k + 1 := ⟨limit' - 1, by omega⟩
    intro result h
    -- both take the same round; if it changes nothing, neither limit is looked at again
    obtain ⟨⟨next, changed⟩, hround, hnext⟩ := except_bind_eq_ok.1 h
    refine except_bind_eq_ok.2 ⟨(next, changed), hround, ?_⟩
    cases changed with
    | true => exact ih (done + 1) (Nat.le_of_succ_le_succ hle) next result hnext
    | false => exact hnext

theorem desugar (t : MacroTable) {limit limit' : Nat} (hle : limit ≤ limit') (name : String) :
    KeepsSuccess (t.desugar limit name) (t.desugar limit' name) := by
  intro d h
  obtain ⟨source, body, rounds, hsource, hfix, rfl⟩ := MacroTable.desugar_ok_iff.1 h
  exact MacroTable.desugar_ok_iff.2 ⟨source, body, rounds, hsource,
    roundsFrom 0 hle source.body _ hfix, rfl⟩

/-! ## Inlining -/

section
variable {t : MacroTable} {desugar desugar' : String → Except CompileError Definition}
variable (hdesugar : ∀ name, KeepsSuccess (desugar name) (desugar' name))
include hdesugar

theorem expandCall (callee : String) (arguments : List Node) :
    KeepsSuccess (Inlining.expandCall t desugar callee arguments)
      (Inlining.expandCall t desugar' callee arguments) := by
  unfold Inlining.expandCall
  split
  · exact .refl _
  · exact .bind (hdesugar callee) fun d => .refl _

theorem inline? (n : Node) :
    KeepsSuccess (Inlining.inline? t desugar n) (Inlining.inline? t desugar' n) := by
  unfold Inlining.inline?
  split
  · exact .refl _
  · refine .bind (.refl _) fun callee => .bind (.refl _) fun arguments => ?_
    exact .bind (expandCall hdesugar callee arguments) fun new => .refl _

omit hdesugar in
theorem sweep {step step' : Node → Except CompileError (Option (List Node))}
    (hstep : ∀ n, KeepsSuccess (step n) (step' n)) (body : List Node) :
    KeepsSuccess (TapeToolchain.sweep step body) (TapeToolchain.sweep step' body) := by
  induction body with
  | nil => exact .refl _
  | cons n rest ih => exact .bind (hstep n) fun replacement => .bind ih fun swept => .refl _

theorem rounds {limit limit' : Nat} (hle : limit ≤ limit') (body : List Node) :
    ∀ out, Inlining.rounds t desugar limit body = .ok (some out) →
      Inlining.rounds t desugar' limit' body = .ok (some out) := by
  induction limit generalizing limit' body with
  | zero => intro out h; cases h
  | succ limit ih =>
    obtain ⟨limit', rfl⟩ : ∃ k, limit' = k + 1 := ⟨limit' - 1, by omega⟩
    intro out h
    obtain ⟨⟨next, changed⟩, hsweep, hnext⟩ := except_bind_eq_ok.1 h
    refine except_bind_eq_ok.2 ⟨(next, changed), sweep (inline? hdesugar) body _ hsweep, ?_⟩
    cases changed with
    | true => exact ih (Nat.le_of_succ_le_succ hle) next out hnext
    | false => exact hnext

end

theorem expand (t : MacroTable) {limits limits' : RoundLimits}
    (hdesugaring : limits.desugaring ≤ limits'.desugaring)
    (hinlining : limits.inlining ≤ limits'.inlining) (entry : String) :
    KeepsSuccess (t.expand limits entry) (t.expand limits' entry) := by
  intro out h
  obtain ⟨d, hd, hrounds⟩ := MacroTable.expand_ok_iff.1 h
  have hdesugar := desugar t hdesugaring
  exact MacroTable.expand_ok_iff.2 ⟨d, hdesugar entry d hd,
    rounds hdesugar hinlining d.body out hrounds⟩

end KeepsSuccess

end TapeToolchain
