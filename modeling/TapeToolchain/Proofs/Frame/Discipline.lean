import TapeToolchain.Proofs.Frame.Composition

/-!
What the built-ins do to the emitter. A relation between emitters that moves, changes of a cell and
loops on a cell keep is kept by every built-in, since cells are taken and given back without
touching the emitter.
-/

namespace TapeToolchain

/-- A relation between emitters and a set of causes of failure that the parts of the built-ins
meet. -/
structure Discipline (R : Emitter → Emitter → Prop) (E : CompileError → Prop) : Prop where
  refl (e : Emitter) : R e e
  trans (e₁ e₂ e₃ : Emitter) : R e₁ e₂ → R e₂ e₃ → R e₁ e₃
  moveTo (o : Int) : Meets R E (Emitter.moveTo o)
  add (n : Nat) : Meets R E (Emitter.add n)
  sub (n : Nat) : Meets R E (Emitter.sub n)
  read : Meets R E Emitter.read
  write : Meets R E Emitter.write
  loopOn (o : Int) {body : Emitter.Action Unit} : Meets R E body → Meets R E (Emitter.loopOn o body)
  cause (c : CompileError) : ¬ c.IsLoopFault → E c

/-- The emitter of a frame meets what an action of emitters meets. -/
def Frame.Obeys (R : Emitter → Emitter → Prop) (E : CompileError → Prop) {α : Type} (x : Action α) :
    Prop :=
  Meets (fun f f' => R f.emitter f'.emitter) E x

namespace Discipline

variable {R : Emitter → Emitter → Prop} {E : CompileError → Prop} (h : Discipline R E)
include h

theorem bind {α β : Type} {x : Emitter.Action α} {f : α → Emitter.Action β} (hx : Meets R E x)
    (hf : ∀ a, Meets R E (f a)) : Meets R E (x >>= f) :=
  Meets.of_bind h.trans hx hf

theorem frame_pure {α : Type} (a : α) : Frame.Obeys R E (pure a) :=
  Meets.of_pure (fun f => h.refl f.emitter) a

theorem frame_throw {α : Type} {c : CompileError} (hc : ¬ c.IsLoopFault) :
    Frame.Obeys R E (throw c : Frame.Action α) :=
  Meets.of_throw (h.cause c hc)

theorem frame_bind {α β : Type} {x : Frame.Action α} {f : α → Frame.Action β}
    (hx : Frame.Obeys R E x) (hf : ∀ a, Frame.Obeys R E (f a)) : Frame.Obeys R E (x >>= f) :=
  Meets.of_bind (fun f₁ f₂ f₃ => h.trans f₁.emitter f₂.emitter f₃.emitter) hx hf

omit h in
theorem emit {α : Type} {x : Emitter.Action α} (hx : Meets R E x) :
    Frame.Obeys R E (Frame.emit x) := by
  refine ⟨fun f a f' hf => ?_, fun f c f' hf => ?_⟩
  · simp only [Frame.emit] at hf
    split at hf
    · next hok => cases hf; exact hx.1 _ _ _ hok
    · cases hf
  · simp only [Frame.emit] at hf
    split at hf
    · cases hf
    · next herr => cases hf; exact hx.2 _ _ _ herr

/-! ## Cells -/

theorem allocate : Frame.Obeys R E Frame.allocate := by
  refine ⟨fun f a f' hf => ?_, fun f c f' hf => ?_⟩
  · simp only [Frame.allocate] at hf
    split at hf
    · cases hf; exact h.refl _
    · cases hf
  · simp only [Frame.allocate] at hf
    split at hf
    · cases hf
    · cases hf; exact h.cause _ nofun

theorem free (o : Int) : Frame.Obeys R E (Frame.free o) := by
  refine ⟨fun f a f' hf => ?_, fun f c f' hf => ?_⟩
  · simp only [Frame.free] at hf
    split at hf
    · cases hf; exact h.refl _
    · cases hf
  · simp only [Frame.free] at hf
    split at hf
    · cases hf
    · cases hf; exact h.cause _ nofun

theorem freeAll : ∀ offsets, Frame.Obeys R E (Frame.freeAll offsets)
  | [] => h.frame_pure ()
  | o :: rest => h.frame_bind (h.free o) fun _ => freeAll rest

theorem reserveAll (offsets : List Int) : Frame.Obeys R E (Frame.reserveAll offsets) := by
  refine ⟨fun f a f' hf => ?_, fun f c f' hf => ?_⟩
  · simp only [Frame.reserveAll] at hf
    cases hf
    exact h.refl _
  · simp only [Frame.reserveAll] at hf
    cases hf

theorem andThen {action closing : Frame.Action Unit} (ha : Frame.Obeys R E action)
    (hc : Frame.Obeys R E closing) : Frame.Obeys R E (Frame.andThen action closing) := by
  refine ⟨fun f a f' hf => ?_, fun f c f' hf => ?_⟩
  · simp only [Frame.andThen] at hf
    split at hf
    · next u hu => exact h.trans _ _ _ (ha.1 _ _ _ hu) (hc.1 _ _ _ hf)
    · split at hf <;> cases hf
  · simp only [Frame.andThen] at hf
    split at hf
    · exact hc.2 _ _ _ hf
    · next cause u hu =>
      split at hf
      · cases hf; exact ha.2 _ _ _ hu
      · next other v hv => cases hf; exact hc.2 _ _ _ hv

theorem withScratch (b : Builtin) (operands : List Int) {body : Int → Frame.Action Unit}
    (hbody : ∀ scratch, Frame.Obeys R E (body scratch)) :
    Frame.Obeys R E (Frame.withScratch b operands body) := by
  refine h.frame_bind h.allocate fun scratch => ?_
  split
  · exact h.frame_bind (h.free scratch) fun _ => h.frame_throw nofun
  · exact h.frame_bind (h.reserveAll operands) fun reserved =>
      h.andThen (hbody scratch) (h.freeAll _)

/-- Every built-in obeys a discipline. -/
theorem compositional :
    Compositional (fun _ x => Meets R E x) (fun _ x => Frame.Obeys R E x) where
  skip a := Meets.of_pure h.refl a
  seq := h.bind
  moveTo := h.moveTo
  add := h.add
  sub := h.sub
  read := h.read
  write := h.write
  loopOn o := h.loopOn o
  pure := h.frame_pure
  throw hc := h.frame_throw hc.not_loopFault
  bind := h.frame_bind
  emit := emit
  withScratch b operands := h.withScratch b operands
  occupied := by
    refine ⟨fun f a f' hf => ?_, fun f c f' hf => ?_⟩
    · cases hf; exact h.refl _
    · cases hf

end Discipline

end TapeToolchain
