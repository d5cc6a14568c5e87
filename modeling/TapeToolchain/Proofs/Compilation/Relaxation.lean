import TapeToolchain.Proofs.Compilation.OnTape
import TapeToolchain.Proofs.Evaluation.LongerTape
import TapeToolchain.Proofs.Expansion.Limits

/-!
Compilation under relaxed settings. Limits and the size of the tape decide whether there is code,
and never which code there is.
-/

namespace TapeToolchain

theorem signedSize_le {n n' : UInt64} (hle : n ≤ n') (hbound : n'.toNat < 2 ^ 63) :
    signedSize n ≤ signedSize n' := by
  have htoNat : n.toNat ≤ n'.toNat := UInt64.le_iff_toNat_le.1 hle
  rw [signedSize, signedSize, if_pos (by omega), if_pos (by omega)]
  omega

/-- An evaluation that can be finished is finished with the same code on a tape of another size and
at another width. -/
theorem Evaluator.finish_resized {s : Evaluator} {width : Nat} {l : Listing}
    (size : UInt64 → UInt64) (width' : Nat) (h : s.finish width = .ok l) :
    (s.resized size).finish width' = .ok ⟨l.code, width'⟩ := by
  obtain ⟨hdepth, hloops, rfl⟩ := finish_eq_ok h
  have hdepth' : (s.resized size).scopes.depth = 0 := hdepth
  have hloops' : (s.resized size).frame.emitter.loops = [] := hloops
  rw [finish, if_pos hdepth', Frame.finish, Emitter.finish, hloops']
  rfl

/-- **Relaxing the settings never changes a successful compilation.** If the limits on rounds are
raised, the tape is made longer, up to the sizes that a signed number can hold, and the width of the
lines is changed in any way, then what was compiled is still compiled, and to the same code. -/
theorem compile_ok_of_relaxed (o o' : Options) (t : MacroTable) (entry : String) (l : Listing)
    (hdesugar : o.maxDesugarRounds ≤ o'.maxDesugarRounds)
    (hinline : o.maxInlineRounds ≤ o'.maxInlineRounds) (htape : o.tapeSize ≤ o'.tapeSize)
    (hbound : o'.tapeSize.toNat < 2 ^ 63) (h : compile o t entry = .ok l) :
    ∃ l', compile o' t entry = .ok l' ∧ l'.text = l.text ∧ l' = ⟨l.code, o'.lineWidth⟩ := by
  obtain ⟨body, final, hexpand, hrun, hfinish⟩ := compile_eq_ok.1 h
  -- only the size of this tape is changed, so the change of sizes never makes a tape shorter
  let longer : UInt64 → UInt64 := fun n => if n = o.tapeSize then o'.tapeSize else n
  have hlonger : NeverShorter longer := by
    intro n
    by_cases hn : n = o.tapeSize
    · rw [show longer n = o'.tapeSize from if_pos hn, hn]
      exact signedSize_le htape hbound
    · rw [show longer n = n from if_neg hn]
  have hnew : (Evaluator.new o.tapeSize).resized longer = .new o'.tapeSize := by
    show Evaluator.new (longer o.tapeSize) = _
    rw [show longer o.tapeSize = o'.tapeSize from if_pos rfl]
  have hrun' := Evaluator.carriesOver_run hlonger body _ _ _ hrun
  rw [hnew] at hrun'
  refine ⟨⟨l.code, o'.lineWidth⟩, compile_eq_ok.2 ⟨body, final.resized longer, ?_, hrun', ?_⟩, rfl,
    rfl⟩
  · exact KeepsSuccess.expand t hdesugar hinline entry body hexpand
  · exact Evaluator.finish_resized longer o'.lineWidth hfinish

/-- A macro that clears a cell through another macro. -/
def clearing : MacroTable :=
  ⟨[⟨"main", [], [Statement.localCell "x", Statement.call "reset" ["x"]]⟩,
    ⟨"reset", [.visible "c"], [Statement.invoke .clear ["c"]]⟩]⟩

/-- The settings are as tight as they can be for this table, and then the default ones. The bound on
the size of the tape is needed: with a size that is negative as a signed number, nothing is on the
tape. -/
theorem compile_ok_of_relaxed_clearing :
    (∃ l l', compile ⟨1, 2, 2, 2⟩ clearing "main" = .ok l ∧ compile {} clearing "main" = .ok l' ∧
      l'.text = l.text ∧ l.text = "[-]") ∧
    compile { tapeSize := 0x8000000000000000 } clearing "main" =
      .error (.outOfRange 0 0x8000000000000000) := by
  have h : compile ⟨1, 2, 2, 2⟩ clearing "main" = .ok ⟨#[.loopBegin, .decrement, .loopEnd], 2⟩ := by
    decide +kernel
  obtain ⟨l', hl', htext, -⟩ :=
    compile_ok_of_relaxed ⟨1, 2, 2, 2⟩ {} clearing "main" _ (by decide) (by decide)
    (by decide) (by decide) h
  exact ⟨⟨_, l', h, hl', htext, rfl⟩, by decide +kernel⟩

end TapeToolchain
