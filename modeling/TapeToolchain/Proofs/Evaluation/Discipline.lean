import TapeToolchain.Proofs.Evaluation.Composition
import TapeToolchain.Proofs.Frame.Discipline

/-!
Evaluation and the emitter. Scopes and their names never touch the emitter, and none of their
failures is one of loops; so what a term does to the emitter is what the built-ins do that it
invokes.
-/

namespace TapeToolchain

/-- The emitter of an evaluation meets what an action of emitters meets. -/
def Evaluator.Obeys (R : Emitter → Emitter → Prop) (E : CompileError → Prop) {α : Type}
    (x : Action α) : Prop :=
  Meets (fun s s' => R s.frame.emitter s'.frame.emitter) E x

namespace Discipline

variable {R : Emitter → Emitter → Prop} {E : CompileError → Prop} (h : Discipline R E)
include h

/-! ## Composition -/

theorem eval_pure {α : Type} (a : α) : Evaluator.Obeys R E (pure a) :=
  Meets.of_pure (fun s => h.refl s.frame.emitter) a

theorem eval_throw {α : Type} {c : CompileError} (hc : ¬ c.IsLoopFault) :
    Evaluator.Obeys R E (throw c : Evaluator.Action α) :=
  Meets.of_throw (h.cause c hc)

theorem eval_bind {α β : Type} {x : Evaluator.Action α} {f : α → Evaluator.Action β}
    (hx : Evaluator.Obeys R E x) (hf : ∀ a, Evaluator.Obeys R E (f a)) :
    Evaluator.Obeys R E (x >>= f) :=
  Meets.of_bind (fun s₁ s₂ s₃ => h.trans s₁.frame.emitter s₂.frame.emitter s₃.frame.emitter) hx hf

omit h in
theorem onFrame {α : Type} {x : Frame.Action α} (hx : Frame.Obeys R E x) :
    Evaluator.Obeys R E (Evaluator.onFrame x) := by
  refine ⟨fun s a s' hs => ?_, fun s c s' hs => ?_⟩
  · simp only [Evaluator.onFrame] at hs
    split at hs
    · next hok => cases hs; exact hx.1 _ _ _ hok
    · cases hs
  · simp only [Evaluator.onFrame] at hs
    split at hs
    · cases hs
    · next herr => cases hs; exact hx.2 _ _ _ herr

theorem onScopes {change : Scopes → Except CompileError Scopes}
    (hc : ∀ s c, change s = .error c → ¬ c.IsLoopFault) :
    Evaluator.Obeys R E (Evaluator.onScopes change) := by
  refine ⟨fun s a s' hs => ?_, fun s c s' hs => ?_⟩
  · simp only [Evaluator.onScopes] at hs
    split at hs
    · cases hs; exact h.refl _
    · cases hs
  · simp only [Evaluator.onScopes] at hs
    split at hs
    · cases hs
    · next herr => cases hs; exact h.cause _ (hc _ _ herr)

theorem askScopes {α : Type} {question : Scopes → Except CompileError α}
    (hc : ∀ s c, question s = .error c → ¬ c.IsLoopFault) :
    Evaluator.Obeys R E (Evaluator.askScopes question) := by
  refine ⟨fun s a s' hs => ?_, fun s c s' hs => ?_⟩
  · simp only [Evaluator.askScopes] at hs
    split at hs
    · cases hs; exact h.refl _
    · cases hs
  · simp only [Evaluator.askScopes] at hs
    split at hs
    · cases hs
    · next herr => cases hs; exact h.cause _ (hc _ _ herr)

theorem setScopes (scopes : Scopes) :
    Evaluator.Obeys R E (modify fun s => { s with scopes } : Evaluator.Action Unit) := by
  refine ⟨fun s a s' hs => ?_, fun s c s' hs => ?_⟩
  · cases hs; exact h.refl _
  · cases hs

/-- The evaluation of every term obeys a discipline. -/
theorem evaluation :
    CompositionalEvaluation (fun _ x => Frame.Obeys R E x) (fun _ x => Evaluator.Obeys R E x) where
  pure := h.eval_pure
  throw := h.eval_throw
  bind := h.eval_bind
  onFrame := onFrame
  onScopes := h.onScopes
  askScopes := h.askScopes
  setScopes := h.setScopes
  allocate := h.allocate
  free := h.free
  freeAll := h.freeAll

/-! ## Statements that invoke nothing -/

theorem evaluateAll_nil : Evaluator.Obeys R E (Evaluator.evaluateAll []) :=
  h.eval_pure []

theorem evaluateAll_cons {n : Node} {rest : List Node}
    (hn : Evaluator.Obeys R E (Evaluator.evaluate n))
    (hrest : Evaluator.Obeys R E (Evaluator.evaluateAll rest)) :
    Evaluator.Obeys R E (Evaluator.evaluateAll (n :: rest)) := by
  rw [Evaluator.evaluateAll]
  exact h.eval_bind hn fun _ => h.eval_bind hrest fun _ => h.eval_pure _

theorem literal (a : Atom) : Evaluator.Obeys R E (Evaluator.evaluate (.literal a)) := by
  rw [Evaluator.evaluate]
  exact h.eval_pure _

theorem compound {tag : Tag} {children : List Node} (htag : tag ≠ .callBuiltin)
    (hchildren : Evaluator.Obeys R E (Evaluator.evaluateAll children)) :
    Evaluator.Obeys R E (Evaluator.evaluate (.compound tag children)) := by
  rw [Evaluator.evaluate]
  exact h.eval_bind hchildren fun _ => h.evaluation.dispatch _ _ fun _ _ hcall => absurd hcall htag

/-! ## Sequences -/

theorem run_cons {n : Node} {rest : List Node} (hn : Evaluator.Obeys R E (Evaluator.evaluate n))
    (hrest : Evaluator.Obeys R E (Evaluator.run rest)) :
    Evaluator.Obeys R E (Evaluator.run (n :: rest)) :=
  h.eval_bind hn fun _ => hrest

theorem run_append {a b : List Node} (ha : Evaluator.Obeys R E (Evaluator.run a))
    (hb : Evaluator.Obeys R E (Evaluator.run b)) :
    Evaluator.Obeys R E (Evaluator.run (a ++ b)) := by
  rw [Evaluator.run_append]
  exact h.eval_bind ha fun _ => hb

theorem inScope {body : List Node} (hbody : Evaluator.Obeys R E (Evaluator.run body)) :
    Evaluator.Obeys R E (Evaluator.run (Statement.inScope body)) := by
  have hempty : ∀ tag, tag ≠ .callBuiltin →
      Evaluator.Obeys R E (Evaluator.evaluate (.compound tag [])) :=
    fun tag htag => h.compound htag h.evaluateAll_nil
  refine h.run_cons (hempty .envBegin (by decide)) (h.run_append hbody ?_)
  exact h.run_cons (hempty .envEnd (by decide)) (h.eval_pure ())

end Discipline

end TapeToolchain
