import TapeToolchain.Proofs.Frame.Discipline

/-!
The open loops. A built-in that opens a loop for itself closes it on the cell that it was opened on,
whatever its body does there; so apart from the two built-ins that are the ends of a loop, none
changes which loops are open, and none fails because of a loop.
-/

namespace TapeToolchain

namespace Emitter

/-- The same loops are open. -/
def SameLoops (e e' : Emitter) : Prop :=
  e'.loops = e.loops

/-- If the cause is a failure of loops, then it is an imbalance, and `P` is to blame. -/
def Blames (P : Prop) (c : CompileError) : Prop :=
  c.IsLoopFault → (∃ opened closed, c = .loopImbalance opened closed) ∧ P

theorem Blames.mono {P Q : Prop} (h : P → Q) {c : CompileError} (hc : Blames P c) : Blames Q c :=
  fun hfault => (hc hfault).imp_right h

theorem Blames.of_not_fault {P : Prop} {c : CompileError} (h : ¬ c.IsLoopFault) : Blames P c :=
  fun hfault => absurd hfault h

/-! ## Loops on a known cell -/

theorem moveTo_not_fault {o : Int} {e e' : Emitter} {c : CompileError}
    (h : moveTo o e = .error c e') : ¬ c.IsLoopFault := by
  obtain ⟨-, p, n, rfl⟩ := moveTo_error h
  exact nofun

/-- Where a loop cannot be closed, it is given up, and all else is as it was. -/
theorem endLoop_error {e e' : Emitter} {c : CompileError} (h : endLoop e = .error c e') :
    e' = { e with loops := e.loops.tail } ∧ c.IsLoopFault := by
  obtain ⟨tapeSize, cursor, base, code, loops⟩ := e
  simp only [endLoop] at h
  split at h
  · cases h
    exact ⟨rfl, trivial⟩
  · split at h
    · cases h
    · cases h
      exact ⟨rfl, trivial⟩

/-- A loop that is opened on a cell remembers that cell. -/
theorem loops_beginLoop {o : Int} {f f' : Frame} (h : Frame.beginLoop o f = .ok () f') :
    f'.emitter.loops = o :: f.emitter.loops := by
  obtain ⟨e, cells⟩ := f
  simp only [Frame.beginLoop, Frame.emit] at h
  split at h
  · next u hu =>
    cases h
    obtain ⟨_, v, hv, hb⟩ := bind_eq_ok.1 hu
    obtain ⟨hloops, hrel⟩ := loops_moveTo hv
    cases hb
    show v.relative :: v.loops = o :: e.loops
    rw [hloops, hrel]
  · cases h

theorem beginLoop_not_fault {o : Int} {f f' : Frame} {c : CompileError}
    (h : Frame.beginLoop o f = .error c f') : ¬ c.IsLoopFault := by
  simp only [Frame.beginLoop, Frame.emit] at h
  split at h
  · cases h
  · next u hu =>
    cases h
    rcases bind_eq_error.1 hu with hm | ⟨_, v, -, hb⟩
    · exact moveTo_not_fault hm
    · cases hb

/-- A loop is closed on the cell that it was opened on. -/
theorem loops_endLoop {o : Int} {f f' : Frame} (h : Frame.endLoop o f = .ok () f') :
    f.emitter.loops = o :: f'.emitter.loops := by
  obtain ⟨e, cells⟩ := f
  simp only [Frame.endLoop, Frame.emit] at h
  split at h
  · next u hu =>
    cases h
    obtain ⟨_, v, hv, hb⟩ := bind_eq_ok.1 hu
    obtain ⟨hloops, hrel⟩ := loops_moveTo hv
    simp only [endLoop] at hb
    split at hb
    · cases hb
    · next opened rest hopen =>
      split at hb
      · next heq =>
        cases hb
        rw [← hloops, hopen, heq, hrel]
      · cases hb
  · cases h

/-- Where a loop on another cell is open, closing it is an imbalance. -/
theorem endLoop_fault {o opened : Int} {rest : List Int} {f f' : Frame} {c : CompileError}
    (hopen : f.emitter.loops = opened :: rest) (h : Frame.endLoop o f = .error c f')
    (hfault : c.IsLoopFault) : opened ≠ o ∧ c = .loopImbalance opened o := by
  obtain ⟨e, cells⟩ := f
  have hopen : e.loops = opened :: rest := hopen
  simp only [Frame.endLoop, Frame.emit] at h
  split at h
  · cases h
  · next cause u hu =>
    cases h
    rcases bind_eq_error.1 hu with hm | ⟨_, v, hv, hb⟩
    · exact absurd hfault (moveTo_not_fault hm)
    · obtain ⟨hloops, hrel⟩ := loops_moveTo hv
      simp only [endLoop, hloops, hopen, hrel] at hb
      split at hb
      · cases hb
      · next hne => cases hb; exact ⟨hne, rfl⟩

/-- The built-ins keep their loops balanced. -/
theorem loops_discipline (P : Prop) : Discipline SameLoops (Blames P) where
  refl _ := rfl
  trans _ _ _ h₁ h₂ := Eq.trans h₂ h₁
  moveTo o := ⟨fun _ _ _ h => (loops_moveTo h).1, fun _ _ _ h => .of_not_fault (moveTo_not_fault h)⟩
  add _ := ⟨fun _ _ _ h => by cases h; rfl, fun _ _ _ h => by cases h⟩
  sub _ := ⟨fun _ _ _ h => by cases h; rfl, fun _ _ _ h => by cases h⟩
  read := ⟨fun _ _ _ h => by cases h; rfl, fun _ _ _ h => by cases h⟩
  write := ⟨fun _ _ _ h => by cases h; rfl, fun _ _ _ h => by cases h⟩
  loopOn o body hbody := by
    refine ⟨fun e a e' h => ?_, fun e c e' h => ?_⟩
    · obtain ⟨u, v, w, -, -, -, rfl⟩ := (loopOn_eq_ok (hbody.1 _ _ _)).1 h
      rfl
    · rcases loopOn_error (hbody.1 _ _ _) h with ⟨u, hm⟩ | ⟨u, hb⟩
      · exact .of_not_fault (moveTo_not_fault hm)
      · exact hbody.2 _ _ _ hb
  cause _ hc := .of_not_fault hc

theorem rebase_loops (P : Prop) (d : Int) : Meets SameLoops (Blames P) (rebase d) := by
  refine ⟨fun e a e' h => ?_, fun e c e' h => ?_⟩
  · simp only [rebase] at h
    split at h
    · cases h; rfl
    · cases h
  · simp only [rebase] at h
    split at h
    · cases h
    · cases h
      refine .of_not_fault fun hfault => ?_
      cases hfault

end Emitter

namespace Frame

/-- A built-in that is no end of a loop. -/
theorem loops_invoke (P : Prop) {b : Builtin} (hb : b ≠ .beginLoop ∧ b ≠ .endLoop)
    (arguments : List Atom) : Obeys Emitter.SameLoops (Emitter.Blames P) (invoke b arguments) := by
  refine (Emitter.loops_discipline P).compositional.invoke arguments (fun hloop => ?_)
    fun _ => Emitter.rebase_loops P
  rcases hloop with rfl | rfl
  · exact absurd rfl hb.1
  · exact absurd rfl hb.2

end Frame

end TapeToolchain
