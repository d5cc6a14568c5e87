import TapeToolchain.Proofs.Emission.Operation
import TapeToolchain.Proofs.Evaluation.Discipline

/-!
The open loops of an evaluation. Whatever is evaluated, as long as it succeeds, the loops that the
emitter holds open are those that its code has opened and not closed.
-/

namespace TapeToolchain

namespace Emitter

/-- The second emitter has written more code, in which the open loops of the first become its
own. -/
def Nests (e e' : Emitter) : Prop :=
  ∃ written, e'.code.toList = e.code.toList ++ written ∧
    nesting e.loops.length written = some e'.loops.length

theorem Nests.refl (e : Emitter) : Nests e e :=
  ⟨[], (List.append_nil _).symm, rfl⟩

theorem Nests.trans (e₁ e₂ e₃ : Emitter) (h₁ : Nests e₁ e₂) (h₂ : Nests e₂ e₃) : Nests e₁ e₃ := by
  obtain ⟨a, ha, hna⟩ := h₁
  obtain ⟨b, hb, hnb⟩ := h₂
  refine ⟨a ++ b, by rw [hb, ha, List.append_assoc], ?_⟩
  rw [nesting_append, hna]
  exact hnb

/-- A run of one plain instruction leaves the loops as they are. -/
theorem nests_replicate {i : Instruction} (hi : i.IsPlain) (n : Nat) {e e' : Emitter}
    (hcode : e'.code = e.code ++ Array.replicate n i) (hloops : e'.loops = e.loops) :
    Nests e e' := by
  refine ⟨List.replicate n i, by rw [hcode]; simp, ?_⟩
  have h := nesting_add (Balanced.replicate hi n) e.loops.length
  rw [Nat.zero_add] at h
  rw [h, hloops]

theorem meets_repeated {i : Instruction} (hi : i.IsPlain) (n : Nat) :
    Meets Nests (fun _ => True) (repeated i n) := by
  refine ⟨fun e a e' h => ?_, fun _ _ _ _ => trivial⟩
  cases h
  exact nests_replicate hi n rfl rfl

theorem meets_moveTo (o : Int) : Meets Nests (fun _ => True) (moveTo o) := by
  refine ⟨fun e a e' h => ?_, fun _ _ _ _ => trivial⟩
  simp only [moveTo, shift] at h
  split at h
  · cases h
    refine nests_replicate ?_ _ rfl rfl
    split <;> decide
  · cases h

theorem meets_beginLoop : Meets Nests (fun _ => True) beginLoop := by
  refine ⟨fun e a e' h => ?_, fun _ _ _ _ => trivial⟩
  cases h
  exact ⟨[.loopBegin], Array.toList_push, rfl⟩

theorem meets_endLoop : Meets Nests (fun _ => True) endLoop := by
  refine ⟨fun e a e' h => ?_, fun _ _ _ _ => trivial⟩
  obtain ⟨-, -, -, hcode, -, -, hloops, -⟩ := step_ok (i := .loopEnd) h
  refine ⟨[.loopEnd], by rw [hcode, Array.toList_push], ?_⟩
  rw [hloops rfl]
  rfl

theorem meets_rebase (d : Int) : Meets Nests (fun _ => True) (rebase d) := by
  refine ⟨fun e a e' h => ?_, fun _ _ _ _ => trivial⟩
  rw [rebase_ok h]
  exact .refl e

theorem nests_discipline : Discipline Nests (fun _ => True) where
  refl := .refl
  trans := .trans
  moveTo := meets_moveTo
  add := meets_repeated (by decide)
  sub := meets_repeated (by decide)
  read := meets_repeated (by decide) 1
  write := meets_repeated (by decide) 1
  loopOn o body hbody := by
    have hbind := @Meets.of_bind Emitter Unit Unit Nests (fun _ => True) .trans
    refine hbind (meets_moveTo o) fun _ => hbind meets_beginLoop fun _ => ?_
    exact hbind hbody fun _ => hbind (meets_moveTo o) fun _ => meets_endLoop
  cause _ _ := trivial

end Emitter

open Emitter (Nests nests_discipline)

theorem Frame.nests_invoke (b : Builtin) (atoms : List Atom) :
    Obeys Nests (fun _ => True) (invoke b atoms) := by
  refine nests_discipline.compositional.invoke atoms (fun _ o => ?_) fun _ => Emitter.meets_rebase
  have hmove := Emitter.meets_moveTo o
  exact ⟨Discipline.emit (nests_discipline.bind hmove fun _ => Emitter.meets_beginLoop),
    Discipline.emit (nests_discipline.bind hmove fun _ => Emitter.meets_endLoop)⟩

/-- Statements of any kind, evaluated to their end, leave the loops open that their code leaves
open. -/
theorem Evaluator.nests_run {statements : List Node} {s s' : Evaluator}
    (h : run statements s = .ok () s') : Nests s.frame.emitter s'.frame.emitter :=
  (nests_discipline.evaluation.run Frame.nests_invoke statements).1 _ _ _ h

end TapeToolchain
