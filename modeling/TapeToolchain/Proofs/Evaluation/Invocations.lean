import TapeToolchain.Proofs.Emission.OnTape
import TapeToolchain.Proofs.Evaluation.Discipline

/-!
The built-ins that an evaluation invokes, in order. An evaluation that does not invoke a resizing
one never moves the base of the frame.
-/

namespace TapeToolchain.Evaluator

mutual

/-- The built-ins that the evaluation of a term invokes, up to its first failure. -/
def invocations : Node → Evaluator → List Builtin
  | .literal _, _ => []
  | .compound tag children, s =>
    invocationsAll children s ++
      match tag, evaluateAll children s with
      | .callBuiltin, .ok [.builtin b, .arguments _] _ => [b]
      | _, _ => []

/-- The built-ins that the evaluation of terms invokes, from left to right. -/
def invocationsAll : List Node → Evaluator → List Builtin
  | [], _ => []
  | node :: rest, s =>
    invocations node s ++
      match evaluate node s with
      | .ok _ s' => invocationsAll rest s'
      | .error _ _ => []

end

/-- The built-in moves the base of the frame. -/
def Resizes (b : Builtin) : Prop :=
  b = .growStack ∨ b = .shrinkStack

instance (b : Builtin) : Decidable (Resizes b) :=
  inferInstanceAs (Decidable (_ ∨ _))

open Emitter (Steady)

/-! ## Steady evaluation -/

theorem steady_discipline : Discipline Steady (fun _ => True) where
  refl := Steady.refl
  trans := Steady.trans
  moveTo o := Emitter.Operation.meets_steady (.moveTo o) nofun
  add n := Emitter.Operation.meets_steady (.add n) nofun
  sub n := Emitter.Operation.meets_steady (.sub n) nofun
  read := Emitter.Operation.meets_steady .read nofun
  write := Emitter.Operation.meets_steady .write nofun
  loopOn o body hbody := by
    have hbind := @Meets.of_bind Emitter Unit Unit Steady (fun _ => True) Steady.trans
    have hmove := Emitter.Operation.meets_steady (.moveTo o) nofun
    refine hbind hmove fun _ => hbind (Emitter.Operation.meets_steady .beginLoop nofun) fun _ => ?_
    exact hbind hbody fun _ => hbind hmove fun _ => Emitter.Operation.meets_steady .endLoop nofun
  cause _ _ := trivial

theorem steady_loops (o : Int) : Frame.Obeys Steady (fun _ => True) (Frame.beginLoop o) ∧
    Frame.Obeys Steady (fun _ => True) (Frame.endLoop o) := by
  have hmove := Emitter.Operation.meets_steady (.moveTo o) nofun
  constructor
  · exact Discipline.emit (steady_discipline.bind hmove fun _ =>
      Emitter.Operation.meets_steady .beginLoop nofun)
  · exact Discipline.emit (steady_discipline.bind hmove fun _ =>
      Emitter.Operation.meets_steady .endLoop nofun)

theorem steady_dispatch {tag : Tag} {values : List Value}
    (h : ∀ b atoms, tag = .callBuiltin → values = [.builtin b, .arguments atoms] → ¬ Resizes b) :
    Obeys Steady (fun _ => True) (dispatch tag values) :=
  steady_discipline.evaluation.dispatch tag values fun b atoms htag hvalues =>
    steady_discipline.compositional.invoke atoms (fun _ => steady_loops) fun hb =>
      absurd hb (h b atoms htag hvalues)

mutual

theorem steady_evaluate : ∀ {node : Node} {s s' : Evaluator} {v : Value},
    evaluate node s = .ok v s' → (∀ b ∈ invocations node s, ¬ Resizes b) →
    Steady s.frame.emitter s'.frame.emitter
  | .literal _, s, _, _, h, _ => by cases h; exact Steady.refl _
  | .compound tag children, s, s', v, h, hb => by
    rw [evaluate] at h
    obtain ⟨values, u, hu, hd⟩ := bind_eq_ok.1 h
    have hchildren := steady_evaluateAll hu fun b hmem => hb b (by simp [invocations, hmem])
    refine hchildren.trans _ _ _ ((steady_dispatch ?_).1 _ _ _ hd)
    rintro b atoms rfl rfl
    exact hb b (by simp [invocations, hu])

theorem steady_evaluateAll : ∀ {nodes : List Node} {s s' : Evaluator} {values : List Value},
    evaluateAll nodes s = .ok values s' → (∀ b ∈ invocationsAll nodes s, ¬ Resizes b) →
    Steady s.frame.emitter s'.frame.emitter
  | [], s, _, _, h, _ => by cases h; exact Steady.refl _
  | node :: rest, s, s', values, h, hb => by
    rw [evaluateAll] at h
    obtain ⟨v, u, hu, hrest⟩ := bind_eq_ok.1 h
    obtain ⟨vs, w, hw, hpure⟩ := bind_eq_ok.1 hrest
    cases hpure
    have hnode := steady_evaluate hu fun b hmem => hb b (by simp [invocationsAll, hmem])
    exact hnode.trans _ _ _ (steady_evaluateAll hw fun b hmem =>
      hb b (by simp [invocationsAll, hu, hmem]))

end

theorem steady_run {statements : List Node} {s s' : Evaluator} (h : run statements s = .ok () s')
    (hb : ∀ b ∈ invocationsAll statements s, ¬ Resizes b) :
    Steady s.frame.emitter s'.frame.emitter := by
  induction statements generalizing s with
  | nil => cases h; exact Steady.refl _
  | cons statement rest ih =>
    obtain ⟨v, u, hu, hrest⟩ := bind_eq_ok.1 h
    have hfirst := steady_evaluate hu fun b hmem => hb b (by simp [invocationsAll, hmem])
    exact hfirst.trans _ _ _ (ih hrest fun b hmem => hb b (by simp [invocationsAll, hu, hmem]))

end TapeToolchain.Evaluator
