import TapeToolchain.Frame.Invocation
import TapeToolchain.Proofs.Actions

/-!
The loops of the built-ins. Each of them is opened on a cell and closed on the same cell (`loopOn`).
Where an operation closes a loop without going back to the cell, the cursor is there already, and
going back would write nothing.
-/

namespace TapeToolchain

namespace Emitter

/-- A loop on a cell, which the cursor goes back to before the loop is closed. -/
def loopOn (o : Int) (body : Action Unit) : Action Unit := do
  moveTo o
  beginLoop
  body
  moveTo o
  endLoop

def clearCell (o : Int) : Action Unit :=
  loopOn o (sub 1)

/-- Takes a step if a cell is not zero, and clears the cell. -/
def whenNonzero (o : Int) (body : Action Unit) : Action Unit :=
  loopOn o do
    body
    clearCell o

/-- The cursor is on a cell of the tape, at the given offset from the base. -/
def IsAt (e : Emitter) (o : Int) : Prop :=
  e.relative = o ∧ e.onTape e.cursor = true

/-! ## Moving to a cell -/

theorem moveTo_ok {o : Int} {e e' : Emitter} (h : moveTo o e = .ok () e') :
    e' = { e with cursor := e.base + o, code := e.code ++ motion (e.base + o - e.cursor) } ∧
      e.onTape (e.base + o) = true := by
  have harith : e.cursor + (e.base + o - e.cursor) = e.base + o := by omega
  simp only [moveTo, shift, harith] at h
  split at h
  · next ht => cases h; exact ⟨rfl, ht⟩
  · cases h

theorem moveTo_error {o : Int} {e e' : Emitter} {c : CompileError} (h : moveTo o e = .error c e') :
    e' = e ∧ ∃ p n, c = .outOfRange p n := by
  simp only [moveTo, shift] at h
  split at h
  · cases h
  · cases h; exact ⟨rfl, _, _, rfl⟩

theorem isAt_of_moveTo {o : Int} {e e' : Emitter} (h : moveTo o e = .ok () e') : e'.IsAt o := by
  obtain ⟨rfl, ht⟩ := moveTo_ok h
  exact ⟨by show e.base + o - e.base = o; omega, ht⟩

/-- Moving to the cell where the cursor is writes nothing. -/
theorem moveTo_of_isAt {o : Int} {e : Emitter} (h : e.IsAt o) : moveTo o e = .ok () e := by
  obtain ⟨hrel, ht⟩ := h
  have hzero : e.base + o - e.cursor = 0 := by rw [← hrel, relative]; omega
  have hm : motion 0 = #[] := rfl
  simp only [moveTo, shift, hzero, Int.add_zero, ht, if_true, hm, Array.append_empty]

/-! ## Loops that end where they began -/

theorem isAt_of_loopOn {o : Int} {body : Action Unit} {e e' : Emitter}
    (h : loopOn o body e = .ok () e') : e'.IsAt o := by
  simp only [loopOn, bind_eq_ok] at h
  obtain ⟨_, _, _, _, _, _, _, _, _, _, u, hu, hend⟩ := h
  have hat := isAt_of_moveTo hu
  simp only [endLoop] at hend
  split at hend
  · cases hend
  · split at hend
    · cases hend; exact hat
    · cases hend

/-- The emitter in a loop that is opened where the cursor is. -/
def inLoop (e : Emitter) : Emitter :=
  { e with code := e.code.push .loopBegin, loops := e.relative :: e.loops }

theorem loops_moveTo {o : Int} {e e' : Emitter} (h : moveTo o e = .ok () e') :
    e'.loops = e.loops ∧ e'.relative = o := by
  obtain ⟨rfl, -⟩ := moveTo_ok h
  refine ⟨rfl, ?_⟩
  show e.base + o - e.base = o
  omega

/-- The loop that is closed is the one that was opened, if the body closes its own loops, and the
cursor is at the offset that it was opened at. -/
theorem endLoop_of_inLoop {o : Int} {e u v w : Emitter} (hu : moveTo o e = .ok () u)
    (hv : v.loops = u.inLoop.loops) (hw : moveTo o v = .ok () w) :
    endLoop w = .ok () { w with code := w.code.push .loopEnd, loops := e.loops } := by
  obtain ⟨hloops, hrelative⟩ := loops_moveTo hu
  obtain ⟨hloops', hrelative'⟩ := loops_moveTo hw
  simp only [endLoop, hloops', hv, inLoop, hrelative, hrelative', hloops, if_true]

section
variable {o : Int} {body : Action Unit} {e e' : Emitter}
variable (hbody : ∀ {e e'}, body e = .ok () e' → e'.loops = e.loops)
include hbody

/-- A loop on a cell whose body closes its own loops succeeds if its parts do. -/
theorem loopOn_eq_ok :
    loopOn o body e = .ok () e' ↔ ∃ u v w, moveTo o e = .ok () u ∧ body u.inLoop = .ok () v ∧
      moveTo o v = .ok () w ∧
      { w with code := w.code.push .loopEnd, loops := e.loops } = e' := by
  constructor
  · intro h
    obtain ⟨_, u, hu, h⟩ := bind_eq_ok.1 h
    obtain ⟨_, _, hopen, h⟩ := bind_eq_ok.1 h
    cases hopen
    obtain ⟨_, v, hv, h⟩ := bind_eq_ok.1 h
    obtain ⟨_, w, hw, h⟩ := bind_eq_ok.1 h
    rw [endLoop_of_inLoop hu (hbody hv) hw] at h
    cases h
    exact ⟨u, v, w, hu, hv, hw, rfl⟩
  · rintro ⟨u, v, w, hu, hv, hw, rfl⟩
    exact bind_eq_ok.2 ⟨(), u, hu, bind_eq_ok.2 ⟨(), u.inLoop, rfl, bind_eq_ok.2 ⟨(), v, hv,
      bind_eq_ok.2 ⟨(), w, hw, endLoop_of_inLoop hu (hbody hv) hw⟩⟩⟩⟩

/-- It fails only if a part does, and never when it is closed. -/
theorem loopOn_error {c : CompileError} (h : loopOn o body e = .error c e') :
    (∃ u, moveTo o u = .error c e') ∨ ∃ u, body u = .error c e' := by
  rcases bind_eq_error.1 h with h | ⟨_, u, hu, h⟩
  · exact Or.inl ⟨e, h⟩
  rcases bind_eq_error.1 h with h | ⟨_, _, hopen, h⟩
  · cases h
  cases hopen
  rcases bind_eq_error.1 h with h | ⟨_, v, hv, h⟩
  · exact Or.inr ⟨_, h⟩
  rcases bind_eq_error.1 h with h | ⟨_, w, hw, h⟩
  · exact Or.inl ⟨v, h⟩
  rw [endLoop_of_inLoop hu (hbody hv) hw] at h
  cases h

end

/-- There is no need to go back to the cell when the body of the loop ends there. -/
theorem loopOn_settled (o : Int) (body : Action Unit)
    (h : ∀ e e', e.IsAt o → body e = .ok () e' → e'.IsAt o) :
    (do moveTo o; beginLoop; body; endLoop) = loopOn o body := by
  funext e
  unfold loopOn
  cases hm : moveTo o e with
  | error c u => rw [bind_of_error hm, bind_of_error hm]
  | ok a u =>
    rw [bind_of_ok hm, bind_of_ok hm]
    have hat := isAt_of_moveTo hm
    show (body >>= fun _ => endLoop) { u with code := _, loops := _ } =
      (body >>= fun _ => moveTo o >>= fun _ => endLoop) { u with code := _, loops := _ }
    cases hb : body { u with code := u.code.push .loopBegin, loops := u.relative :: u.loops } with
    | error c v => rw [bind_of_error hb, bind_of_error hb]
    | ok a v =>
      rw [bind_of_ok hb, bind_of_ok hb, bind_of_ok (moveTo_of_isAt (h _ v (by exact hat) hb))]

end Emitter

namespace Frame

open Emitter (moveTo add sub loopOn clearCell whenNonzero)

/-! ## The operations in terms of loops -/

theorem emit_bind {α β : Type} (x : Emitter.Action α) (f : α → Emitter.Action β) :
    (emit x >>= fun a => emit (f a)) = emit (x >>= f) := by
  funext s
  obtain ⟨e, cells⟩ := s
  show EStateM.bind _ _ _ = _
  simp only [EStateM.bind, emit]
  cases h : x e with
  | ok a u => simp only [bind_of_ok h]
  | error c u => simp only [bind_of_error h]

theorem clear_eq (dst : Int) : clear dst = emit (clearCell dst) := by
  have h : (do moveTo dst; Emitter.replay [.loopBegin, .decrement, .loopEnd]) =
      (do moveTo dst; Emitter.beginLoop; sub 1; Emitter.endLoop) := by
    simp only [Emitter.replay, Emitter.step, bind_pure_unit]
  rw [clear, h, Emitter.loopOn_settled, clearCell]
  rintro e e' hat he
  cases he
  exact hat

theorem transfer_eq (src : Int) (targets : List Int) (step : Emitter.Action Unit) :
    transfer src targets step = emit (loopOn src do sub 1; atEach targets step) := by
  simp only [transfer, loopOn, bind_assoc]

/-- A loop that is left after its first round since its cell is cleared at the end. -/
theorem clear_endLoop_eq (scratch : Int) (body : Emitter.Action Unit) :
    (do
      emit do
        moveTo scratch
        Emitter.beginLoop
        body
      clear scratch
      emit Emitter.endLoop) = emit (whenNonzero scratch body) := by
  have hsettled := Emitter.loopOn_settled scratch do body; clearCell scratch
  simp only [clear_eq, emit_bind, bind_assoc] at hsettled ⊢
  rw [hsettled, whenNonzero]
  intro e e' _ he
  obtain ⟨-, u, -, hu⟩ := bind_eq_ok.1 he
  exact Emitter.isAt_of_loopOn hu

theorem asLogical_eq (src dst : Int) :
    asLogical src dst = (do
      distinct .asLogical [src, dst]
      withScratch .asLogical [src, dst] fun scratch => do
        copy src scratch
        clear dst
        emit (whenNonzero scratch do moveTo dst; add 1)) := by
  simp only [asLogical, ← clear_endLoop_eq]

def setOne (dst : Int) : Action Unit := do
  clear dst
  emit (add 1)

theorem logicalNot_eq (src dst : Int) :
    logicalNot src dst = (do
      distinct .logicalNot [src, dst]
      withScratch .logicalNot [src, dst] fun scratch => do
        copy src scratch
        setOne dst
        emit (whenNonzero scratch do moveTo dst; sub 1)) := by
  simp only [logicalNot, setOne, ← clear_endLoop_eq, ← emit_bind, bind_assoc]

end Frame

end TapeToolchain
