import TapeToolchain.Compiler
import TapeToolchain.Proofs.Evaluation.Invocations

/-!
Compiled code and the ends of the tape. The emitter refuses to let the cursor leave the tape when it
writes the code; the code then keeps the cursor on the tape in every run, as long as loops do not
carry the base of the frame away. Code that is compiled without resizing the frame is of this kind.
-/

namespace TapeToolchain

/-- The built-ins that the compilation of an entry macro invokes. -/
def invokedBuiltins (o : Options) (t : MacroTable) (entry : String) : List Builtin :=
  match t.expand o.limits entry with
  | .ok body => Evaluator.invocationsAll body (.new o.tapeSize)
  | .error _ => []

theorem compile_eq_ok {o : Options} {t : MacroTable} {entry : String} {l : Listing} :
    compile o t entry = .ok l ↔ ∃ body final, t.expand o.limits entry = .ok body ∧
      Evaluator.run body (.new o.tapeSize) = .ok () final ∧ final.finish o.lineWidth = .ok l := by
  rw [compile, except_bind_eq_ok]
  refine exists_congr fun body => ?_
  cases Evaluator.run body (.new o.tapeSize) with
  | ok a final => simp
  | error c final => simp [throw, throwThe, MonadExceptOf.throw]

theorem finish_eq_ok {s : Evaluator} {lineWidth : Nat} {l : Listing}
    (h : s.finish lineWidth = .ok l) :
    s.scopes.depth = 0 ∧ s.frame.emitter.loops = [] ∧ l = ⟨s.frame.emitter.code, lineWidth⟩ := by
  simp only [Evaluator.finish, Frame.finish, Emitter.finish] at h
  split at h
  · next hdepth =>
    split at h
    · next hloops => cases h; exact ⟨hdepth, List.isEmpty_iff.1 hloops, rfl⟩
    · cases h
  · cases h

open Emitter (perform trace LoopsKeepBase TracksCursor)

/-- **No run of accepted code leaves the tape.** For a tape of any size that a signed number can
hold, take any requests that all succeed and close their loops, each loop leaving the base of the
frame where it found it. Then every run of the code, from any contents of the tape and any input,
keeps the cursor on the tape and at the position that the emitter recorded, up to its final one if
the run halts. The code of a compilation that never resizes the frame is written by requests of this
kind. -/
theorem cursor_stays_on_tape :
    (∀ (n : UInt64) (ops : List Emitter.Operation) (e : Emitter), 1 ≤ n.toNat → n.toNat < 2 ^ 63 →
      perform ops (.new n) = .ok () e → e.loops = [] → LoopsKeepBase (trace ops (.new n)) (.new n) →
      TracksCursor n ops e) ∧
    ∀ (o : Options) (t : MacroTable) (entry : String) (l : Listing), 1 ≤ o.tapeSize.toNat →
      o.tapeSize.toNat < 2 ^ 63 → compile o t entry = .ok l →
      (∀ b ∈ invokedBuiltins o t entry, ¬ Evaluator.Resizes b) →
      ∃ ops body final, t.expand o.limits entry = .ok body ∧
        Evaluator.run body (.new o.tapeSize) = .ok () final ∧
        perform ops (.new o.tapeSize) = .ok () final.frame.emitter ∧
        l.code = final.frame.emitter.code ∧ TracksCursor o.tapeSize ops final.frame.emitter := by
  refine ⟨fun n ops e hpos hn h hclosed hkeep =>
    Emitter.tracksCursor_of_loopsKeepBase hpos hn h hclosed hkeep, ?_⟩
  intro o t entry l hpos hn hl hb
  obtain ⟨body, final, hbody, hrun, hfinish⟩ := compile_eq_ok.1 hl
  obtain ⟨-, hclosed, rfl⟩ := finish_eq_ok hfinish
  rw [invokedBuiltins, hbody] at hb
  obtain ⟨ops, hops, hperform⟩ := Evaluator.steady_run hrun hb
  refine ⟨ops, body, final, hbody, hrun, hperform, rfl, ?_⟩
  exact Emitter.tracksCursor_of_loopsKeepBase hpos hn hperform hclosed
    (Emitter.loopsKeepBase_of_no_rebase hops _)

/-- A loop that moves the base away and back, and the compiled code of a countdown. -/
theorem cursor_stays_on_tape_countdown :
    (∃ e, perform [.beginLoop, .rebase 2, .moveTo 0, .rebase (-2), .moveTo 0, .endLoop] (.new 3) =
        .ok () e ∧
      TracksCursor 3 [.beginLoop, .rebase 2, .moveTo 0, .rebase (-2), .moveTo 0, .endLoop] e) ∧
    ∃ l ops e, compile {}
        ⟨[⟨"main", [], [Statement.localCell "x", Statement.invoke .clear ["x"],
          Statement.whileNonzero "x" [Statement.invoke .constantSub [.int 1, "x"]]]⟩]⟩ "main" =
        .ok l ∧
      l.code.size = 6 ∧ e.code = l.code ∧ TracksCursor 30000 ops e := by
  obtain ⟨hemitter, hcompiler⟩ := cursor_stays_on_tape
  constructor
  · have h : perform [.beginLoop, .rebase 2, .moveTo 0, .rebase (-2), .moveTo 0,
        .endLoop] (.new 3) =
        .ok () ⟨3, 0, 0, #[.loopBegin, .right, .right, .left, .left, .loopEnd], []⟩ := rfl
    refine ⟨_, h, hemitter 3 _ _ (by decide) (by decide) h rfl ?_⟩
    intro first body rest r r' hsplit hb hr hr'
    have htrace : trace [.beginLoop, .rebase 2, .moveTo 0, .rebase (-2), .moveTo 0,
        .endLoop] (.new 3) =
      [.instruction .loopBegin, .rebase 2, .instruction .right, .instruction .right, .rebase (-2),
        .instruction .left, .instruction .left, .instruction .loopEnd] := rfl
    rw [htrace] at hsplit
    simp [List.cons_eq_append_iff, List.append_eq_cons_iff] at hsplit
    obtain ⟨rfl, rfl, rfl⟩ := hsplit
    cases hr
    cases hr'
    rfl
  · have h : compile {}
        ⟨[⟨"main", [], [Statement.localCell "x", Statement.invoke .clear ["x"],
          Statement.whileNonzero "x" [Statement.invoke .constantSub [.int 1, "x"]]]⟩]⟩ "main" =
        .ok ⟨#[.loopBegin, .decrement, .loopEnd, .loopBegin, .decrement, .loopEnd], 70⟩ := by
      decide +kernel
    obtain ⟨ops, -, final, -, -, -, hcode, htracks⟩ :=
      hcompiler _ _ _ _ (by decide) (by decide) h (by decide +kernel)
    exact ⟨_, ops, _, h, rfl, hcode.symm, htracks⟩

end TapeToolchain
