import TapeToolchain.Proofs.Frame.Pool

/-!
Why a built-in fails. It refuses its operands, it runs into the end of the tape, or it closes a loop
in the wrong place. It never fails over the cells that it takes for itself: it gives back what it
took and nothing else.
-/

namespace TapeToolchain

/-- Each failure of the action is one of built-ins. -/
def FailsAsBuiltin {σ α : Type} (x : EStateM CompileError σ α) : Prop :=
  ∀ s c t, x s = .error c t → c.StopsBuiltin

namespace FailsAsBuiltin

theorem pure {σ α : Type} (a : α) : FailsAsBuiltin (pure a : EStateM CompileError σ α) := nofun

theorem throw {σ α : Type} {c : CompileError} (hc : c.IsRefusal) :
    FailsAsBuiltin (throw c : EStateM CompileError σ α) := by
  rintro _ _ _ ⟨⟩
  exact hc.stopsBuiltin

theorem bind {σ α β : Type} {x : EStateM CompileError σ α} {f : α → EStateM CompileError σ β}
    (hx : FailsAsBuiltin x) (hf : ∀ a, FailsAsBuiltin (f a)) : FailsAsBuiltin (x >>= f) := by
  intro s c t h
  rcases bind_eq_error.1 h with hu | ⟨a, u, -, ht⟩
  · exact hx s c t hu
  · exact hf a u c t ht

/-! ## The emitter -/

theorem moveTo (o : Int) : FailsAsBuiltin (Emitter.moveTo o) := by
  intro e c e' h
  simp only [Emitter.moveTo, Emitter.shift] at h
  split at h
  · cases h
  · cases h; trivial

theorem repeated (i : Instruction) (n : Nat) : FailsAsBuiltin (Emitter.repeated i n) := by
  intro e c e' h
  cases h

theorem beginLoop : FailsAsBuiltin Emitter.beginLoop := by
  intro e c e' h
  cases h

theorem endLoop : FailsAsBuiltin Emitter.endLoop := by
  intro e c e' h
  simp only [Emitter.endLoop] at h
  split at h
  · cases h; trivial
  · split at h
    · cases h
    · cases h; trivial

theorem rebase (d : Int) : FailsAsBuiltin (Emitter.rebase d) := by
  intro e c e' h
  simp only [Emitter.rebase] at h
  split at h
  · cases h
  · cases h; trivial

theorem loopOn (o : Int) {body : Emitter.Action Unit} (hbody : FailsAsBuiltin body) :
    FailsAsBuiltin (Emitter.loopOn o body) :=
  bind (moveTo o) fun _ => bind beginLoop fun _ => bind hbody fun _ =>
    bind (moveTo o) fun _ => endLoop

/-! ## The frame -/

theorem emit {α : Type} {x : Emitter.Action α} (hx : FailsAsBuiltin x) :
    FailsAsBuiltin (Frame.emit x) := by
  intro f c f' h
  simp only [Frame.emit] at h
  split at h
  · cases h
  · next herror => cases h; exact hx _ _ _ herror

theorem allocate : FailsAsBuiltin Frame.allocate := by
  intro f c f' h
  simp only [Frame.allocate] at h
  split at h
  · cases h
  · cases h; trivial

/-- The cells that were lent are there to be given back, so only the body can fail. -/
theorem withScratch (b : Builtin) (operands : List Int) {body : Int → Frame.Action Unit}
    (hrestores : ∀ scratch, Frame.Restores (body scratch))
    (hbody : ∀ scratch, FailsAsBuiltin (body scratch)) :
    FailsAsBuiltin (Frame.withScratch b operands body) := by
  intro f c f' h
  rcases Frame.withScratch_cases b operands body f
    with ⟨c', hc', h'⟩ | ⟨scratch, f₁, taken, hlends, h'⟩
  · rw [h'] at h
    cases h
    exact hc'
  · rw [h', Frame.andThen] at h
    cases hb : body scratch f₁ with
    | ok a f₂ =>
      have hback := hlends.restore ((hrestores scratch).1 f₁ a f₂ hb)
      rw [hb] at h
      simp only [hback] at h
      cases h
    | error c₂ f₂ =>
      have hback := hlends.restore ((hrestores scratch).2 f₁ c₂ f₂ hb)
      rw [hb] at h
      simp only [hback] at h
      cases h
      exact hbody scratch f₁ _ f₂ hb

end FailsAsBuiltin

/-- What keeps the cells also keeps to the failures of built-ins. -/
theorem failures_compositional :
    Compositional (fun _ x => FailsAsBuiltin x)
      (fun _ x => Frame.Restores x ∧ FailsAsBuiltin x) where
  skip a := FailsAsBuiltin.pure a
  seq hx hf := FailsAsBuiltin.bind hx hf
  moveTo := FailsAsBuiltin.moveTo
  add n := FailsAsBuiltin.repeated _ n
  sub n := FailsAsBuiltin.repeated _ n
  read := FailsAsBuiltin.repeated _ 1
  write := FailsAsBuiltin.repeated _ 1
  loopOn o _ hbody := FailsAsBuiltin.loopOn o hbody
  pure a := ⟨Frame.restores_compositional.pure a, FailsAsBuiltin.pure a⟩
  throw hc := ⟨Frame.restores_compositional.throw hc, FailsAsBuiltin.throw hc⟩
  bind hx hf := ⟨hx.1.bind fun a => (hf a).1, FailsAsBuiltin.bind hx.2 fun a => (hf a).2⟩
  emit hx := ⟨Frame.Restores.emit _, FailsAsBuiltin.emit hx⟩
  withScratch b operands _ hbody :=
    have hrestores scratch := (hbody scratch).1
    ⟨Frame.Restores.withScratch b operands hrestores,
      FailsAsBuiltin.withScratch b operands hrestores fun scratch => (hbody scratch).2⟩
  occupied := by
    refine ⟨Frame.restores_compositional.occupied, ?_⟩
    intro f c f' h
    cases h

/-- Every built-in fails for a cause of its own, whatever its operands. -/
theorem Frame.invoke_failsAsBuiltin (b : Builtin) (arguments : List Atom) :
    FailsAsBuiltin (invoke b arguments) := by
  refine (failures_compositional.invoke arguments (fun _ o => ?_) fun _ => FailsAsBuiltin.rebase).2
  have hmove := FailsAsBuiltin.moveTo o
  have hbegin := hmove.bind fun _ => FailsAsBuiltin.beginLoop
  have hend := hmove.bind fun _ => FailsAsBuiltin.endLoop
  exact ⟨⟨Restores.emit _, hbegin.emit⟩, Restores.emit _, hend.emit⟩

end TapeToolchain
