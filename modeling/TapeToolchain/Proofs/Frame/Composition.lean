import TapeToolchain.Proofs.Frame.Loops

/-!
What holds of every built-in, whatever its operands. The built-ins are composed of moves to cells,
changes and transfers of the cell under the cursor, loops on cells, and scratch cells. A property of
actions that these have, and that is kept from one to the next, is a property of every built-in.
-/

namespace TapeToolchain

/-- The failures of loops: a loop closed at another offset, closed without being open, or left
open. -/
def CompileError.IsLoopFault : CompileError → Prop
  | .loopImbalance _ _ | .unmatchedLoopEnd | .unclosedLoops _ => True
  | _ => False

/-- The refusals of operands: two that must differ are the same, or one is not of the kind or size
that the built-in takes, or their number is wrong. -/
def CompileError.IsRefusal : CompileError → Prop
  | .aliasing .. | .negativeCount _ | .typeMismatch .. | .nonByteChar _ | .arityMismatch .. => True
  | _ => False

/-- What stops a built-in: operands that it refuses, the end of the tape, or a loop that is not
there to be closed or is closed at another offset. -/
def CompileError.StopsBuiltin : CompileError → Prop
  | .outOfRange .. | .loopImbalance .. | .unmatchedLoopEnd => True
  | c => c.IsRefusal

theorem CompileError.IsRefusal.not_loopFault {c : CompileError} (h : c.IsRefusal) :
    ¬ c.IsLoopFault := by
  intro hfault
  cases c <;> first | (cases h; done) | cases hfault

theorem CompileError.IsRefusal.stopsBuiltin {c : CompileError} (h : c.IsRefusal) :
    c.StopsBuiltin := by
  cases c <;> first | exact h | trivial

/-- Properties `M` of actions on emitters and `G` of actions on frames that the parts of built-ins
have and that are kept by the ways of putting them together. -/
structure Compositional (M : (α : Type) → Emitter.Action α → Prop)
    (G : (α : Type) → Frame.Action α → Prop) : Prop where
  skip {α : Type} (a : α) : M α (pure a)
  seq {α β : Type} {x : Emitter.Action α} {f : α → Emitter.Action β} :
    M α x → (∀ a, M β (f a)) → M β (x >>= f)
  moveTo (o : Int) : M Unit (Emitter.moveTo o)
  add (n : Nat) : M Unit (Emitter.add n)
  sub (n : Nat) : M Unit (Emitter.sub n)
  read : M Unit Emitter.read
  write : M Unit Emitter.write
  loopOn (o : Int) {body : Emitter.Action Unit} : M Unit body → M Unit (Emitter.loopOn o body)
  pure {α : Type} (a : α) : G α (pure a)
  throw {α : Type} {c : CompileError} : c.IsRefusal → G α (throw c)
  bind {α β : Type} {x : Frame.Action α} {f : α → Frame.Action β} :
    G α x → (∀ a, G β (f a)) → G β (x >>= f)
  emit {α : Type} {x : Emitter.Action α} : M α x → G α (Frame.emit x)
  withScratch (b : Builtin) (operands : List Int) {body : Int → Frame.Action Unit} :
    (∀ scratch, G Unit (body scratch)) → G Unit (Frame.withScratch b operands body)
  occupied : G (List Int) Frame.occupied

namespace Compositional

variable {M : (α : Type) → Emitter.Action α → Prop} {G : (α : Type) → Frame.Action α → Prop}
variable (h : Compositional M G)
include h

theorem ofExcept {α : Type} {x : Except CompileError α} (hx : ∀ c, x = .error c → c.IsRefusal) :
    G α (MonadExcept.ofExcept x) := by
  cases x with
  | ok a => exact h.pure a
  | error c => exact h.throw (hx c rfl)

theorem distinct (b : Builtin) (operands : List Int) : G Unit (Frame.distinct b operands) := by
  simp only [Frame.distinct]
  split
  · exact h.throw trivial
  · exact h.pure ()

theorem naturalCount (count : Int) : G Nat (Frame.naturalCount count) := by
  simp only [Frame.naturalCount]
  split
  · exact h.throw trivial
  · exact h.pure _

/-! ## Arithmetic -/

theorem clear (dst : Int) : G Unit (Frame.clear dst) := by
  rw [Frame.clear_eq]
  exact h.emit (h.loopOn dst (h.sub 1))

theorem atEach {step : Emitter.Action Unit} (hstep : M Unit step) :
    ∀ targets, M Unit (Frame.atEach targets step)
  | [] => h.skip ()
  | target :: rest => h.seq (h.moveTo target) fun _ => h.seq hstep fun _ => atEach hstep rest

theorem transfer (src : Int) (targets : List Int) {step : Emitter.Action Unit}
    (hstep : M Unit step) : G Unit (Frame.transfer src targets step) := by
  rw [Frame.transfer_eq]
  exact h.emit (h.loopOn src (h.seq (h.sub 1) fun _ => h.atEach hstep targets))

theorem destructiveAdd (src dst : Int) : G Unit (Frame.destructiveAdd src dst) :=
  h.bind (h.distinct _ _) fun _ => h.transfer src [dst] (h.add 1)

theorem destructiveSub (src dst : Int) : G Unit (Frame.destructiveSub src dst) :=
  h.bind (h.distinct _ _) fun _ => h.transfer src [dst] (h.sub 1)

theorem move (src dst : Int) : G Unit (Frame.move src dst) :=
  h.bind (h.distinct _ _) fun _ => h.bind (h.clear dst) fun _ => h.destructiveAdd src dst

theorem copy (src dst : Int) : G Unit (Frame.copy src dst) := by
  refine h.bind (h.distinct _ _) fun _ => h.withScratch _ _ fun scratch => ?_
  refine h.bind (h.clear dst) fun _ => h.bind (h.clear scratch) fun _ => ?_
  exact h.bind (h.transfer src _ (h.add 1)) fun _ => h.destructiveAdd scratch src

theorem stackAdd (src dst : Int) : G Unit (Frame.stackAdd src dst) :=
  h.withScratch _ _ fun scratch =>
    h.bind (h.copy src scratch) fun _ => h.destructiveAdd scratch dst

theorem stackSub (src dst : Int) : G Unit (Frame.stackSub src dst) :=
  h.withScratch _ _ fun scratch =>
    h.bind (h.copy src scratch) fun _ => h.destructiveSub scratch dst

theorem constantAdd (constant dst : Int) : G Unit (Frame.constantAdd constant dst) :=
  h.bind (h.naturalCount constant) fun n => h.emit (h.seq (h.moveTo dst) fun _ => h.add n)

theorem constantSub (constant dst : Int) : G Unit (Frame.constantSub constant dst) :=
  h.bind (h.naturalCount constant) fun n => h.emit (h.seq (h.moveTo dst) fun _ => h.sub n)

/-! ## Logic -/

theorem whenNonzero (o : Int) {body : Emitter.Action Unit} (hbody : M Unit body) :
    G Unit (Frame.emit (Emitter.whenNonzero o body)) :=
  h.emit (h.loopOn o (h.seq hbody fun _ => h.loopOn o (h.sub 1)))

theorem asLogical (src dst : Int) : G Unit (Frame.asLogical src dst) := by
  rw [Frame.asLogical_eq]
  refine h.bind (h.distinct _ _) fun _ => h.withScratch _ _ fun scratch => ?_
  refine h.bind (h.copy src scratch) fun _ => h.bind (h.clear dst) fun _ => ?_
  exact h.whenNonzero scratch (h.seq (h.moveTo dst) fun _ => h.add 1)

theorem setOne (dst : Int) : G Unit (Frame.setOne dst) :=
  h.bind (h.clear dst) fun _ => h.emit (h.add 1)

theorem logicalNot (src dst : Int) : G Unit (Frame.logicalNot src dst) := by
  rw [Frame.logicalNot_eq]
  refine h.bind (h.distinct _ _) fun _ => h.withScratch _ _ fun scratch => ?_
  refine h.bind (h.copy src scratch) fun _ => h.bind (h.setOne dst) fun _ => ?_
  exact h.whenNonzero scratch (h.seq (h.moveTo dst) fun _ => h.sub 1)

/-- The truth of two operands is put together from the truth of each in the same way for both
connectives. -/
theorem connective {unary : Int → Int → Frame.Action Unit}
    (hunary : ∀ src dst, G Unit (unary src dst)) (a b dst scratch : Int) :
    G Unit (do
      Frame.clear dst
      unary a scratch
      Frame.stackAdd scratch dst
      unary b scratch
      Frame.stackAdd scratch dst
      unary dst scratch
      Frame.move scratch dst) := by
  refine h.bind (h.clear dst) fun _ => h.bind (hunary a scratch) fun _ => ?_
  refine h.bind (h.stackAdd scratch dst) fun _ => h.bind (hunary b scratch) fun _ => ?_
  refine h.bind (h.stackAdd scratch dst) fun _ => h.bind (hunary dst scratch) fun _ => ?_
  exact h.move scratch dst

theorem logicalAnd (a b dst : Int) : G Unit (Frame.logicalAnd a b dst) := by
  refine h.bind (h.distinct _ _) fun _ => h.bind (h.distinct _ _) fun _ => ?_
  exact h.withScratch _ _ fun scratch => h.connective h.logicalNot a b dst scratch

theorem logicalOr (a b dst : Int) : G Unit (Frame.logicalOr a b dst) := by
  refine h.bind (h.distinct _ _) fun _ => h.bind (h.distinct _ _) fun _ => ?_
  exact h.withScratch _ _ fun scratch => h.connective h.asLogical a b dst scratch

/-! ## Input, output and resizing -/

theorem getChar (dst : Int) : G Unit (Frame.getChar dst) :=
  h.emit (h.seq (h.moveTo dst) fun _ => h.read)

theorem putChar (src : Int) : G Unit (Frame.putChar src) :=
  h.emit (h.seq (h.moveTo src) fun _ => h.write)

omit h in
theorem byteCodes_error {text : List Char} {c : CompileError}
    (hc : Frame.byteCodes text = .error c) : ∃ char, c = .nonByteChar char := by
  induction text with
  | nil => cases hc
  | cons char rest ih =>
    simp only [Frame.byteCodes] at hc
    split at hc
    · cases hr : Frame.byteCodes rest with
      | ok codes => rw [hr] at hc; cases hc
      | error c' =>
        rw [hr] at hc
        cases hc
        exact ih hr
    · cases hc; exact ⟨char, rfl⟩

theorem putCodes : ∀ current codes, M Unit (Frame.putCodes current codes)
  | _, [] => h.skip ()
  | current, code :: rest => by
    have hwrite := h.seq h.write fun _ => putCodes code rest
    simp only [Frame.putCodes]
    split
    · exact h.seq (h.add _) fun _ => hwrite
    · exact h.seq (h.sub _) fun _ => hwrite

theorem putStringConstant (text : String) : G Unit (Frame.putStringConstant text) := by
  refine h.bind (h.ofExcept fun c hc => ?_) fun codes => ?_
  · obtain ⟨char, rfl⟩ := byteCodes_error hc
    trivial
  · exact h.withScratch _ _ fun scratch =>
      h.bind (h.clear scratch) fun _ => h.emit (h.putCodes 0 codes)

theorem moveAll (distance : Int) : ∀ offsets, G Unit (Frame.moveAll distance offsets)
  | [] => h.pure ()
  | _ :: rest => h.bind (h.move _ _) fun _ => moveAll distance rest

theorem clearRange : ∀ first count, G Unit (Frame.clearRange first count)
  | _, 0 => h.pure ()
  | first, count + 1 => h.bind (h.clear first) fun _ => clearRange (first + 1) count

section
variable (hrebase : ∀ d, M Unit (Emitter.rebase d))
include hrebase

theorem growStack (size : Int) : G Unit (Frame.growStack size) := by
  refine h.bind (h.naturalCount size) fun count => ?_
  split
  · exact h.pure ()
  · refine h.bind h.occupied fun offsets => h.bind (h.moveAll _ _) fun _ => ?_
    exact h.bind (h.clearRange 0 count) fun _ => h.emit (hrebase count)

theorem shrinkStack (size : Int) : G Unit (Frame.shrinkStack size) := by
  refine h.bind (h.naturalCount size) fun count => ?_
  split
  · exact h.pure ()
  · refine h.bind h.occupied fun offsets => ?_
    exact h.bind (h.moveAll _ _) fun _ => h.emit (hrebase (-count))

end

/-! ## Every built-in -/

theorem asAddress (a : Atom) : G _ (MonadExcept.ofExcept a.asAddress) := by
  refine h.ofExcept fun c hc => ?_
  cases a <;> cases hc <;> trivial

theorem asInt (a : Atom) : G _ (MonadExcept.ofExcept a.asInt) := by
  refine h.ofExcept fun c hc => ?_
  cases a <;> cases hc <;> trivial

theorem asText (a : Atom) : G _ (MonadExcept.ofExcept a.asText) := by
  refine h.ofExcept fun c hc => ?_
  cases a <;> cases hc <;> trivial

theorem onCell {op : Int → Frame.Action Unit} (hop : ∀ o, G Unit (op o)) (a : Atom) :
    G Unit (Frame.onCell op a) :=
  h.bind (h.asAddress a) hop

theorem onCells {op : Int → Int → Frame.Action Unit} (hop : ∀ o p, G Unit (op o p))
    (a b : Atom) : G Unit (Frame.onCells op a b) :=
  h.bind (h.asAddress a) fun o => h.bind (h.asAddress b) (hop o)

theorem onThreeCells {op : Int → Int → Int → Frame.Action Unit}
    (hop : ∀ o p q, G Unit (op o p q)) (a b c : Atom) :
    G Unit (Frame.onThreeCells op a b c) :=
  h.bind (h.asAddress a) fun o => h.bind (h.asAddress b) fun p =>
    h.bind (h.asAddress c) (hop o p)

theorem onConstantAndCell {op : Int → Int → Frame.Action Unit} (hop : ∀ n o, G Unit (op n o))
    (a b : Atom) : G Unit (Frame.onConstantAndCell op a b) :=
  h.bind (h.asInt a) fun n => h.bind (h.asAddress b) (hop n)

theorem onConstant {op : Int → Frame.Action Unit} (hop : ∀ n, G Unit (op n)) (a : Atom) :
    G Unit (Frame.onConstant op a) :=
  h.bind (h.asInt a) hop

theorem onText {op : String → Frame.Action Unit} (hop : ∀ text, G Unit (op text)) (a : Atom) :
    G Unit (Frame.onText op a) :=
  h.bind (h.asText a) hop

/-- Every built-in obeys, the ends of loops and the resizing ones on conditions of their own. -/
theorem invoke {b : Builtin} (arguments : List Atom)
    (hloop : b = .beginLoop ∨ b = .endLoop →
      ∀ o, G Unit (Frame.beginLoop o) ∧ G Unit (Frame.endLoop o))
    (hresize : b = .growStack ∨ b = .shrinkStack → ∀ d, M Unit (Emitter.rebase d)) :
    G Unit (Frame.invoke b arguments) := by
  unfold Frame.invoke
  split
  · exact h.onCell h.clear _
  · exact h.onCells h.destructiveAdd _ _
  · exact h.onCells h.destructiveSub _ _
  · exact h.onCells h.move _ _
  · exact h.onCells h.copy _ _
  · exact h.onCells h.stackAdd _ _
  · exact h.onCells h.stackSub _ _
  · exact h.onConstantAndCell h.constantAdd _ _
  · exact h.onConstantAndCell h.constantSub _ _
  · exact h.onCells h.asLogical _ _
  · exact h.onCells h.logicalNot _ _
  · exact h.onThreeCells h.logicalAnd _ _ _
  · exact h.onThreeCells h.logicalOr _ _ _
  · exact h.onCell h.getChar _
  · exact h.onCell h.putChar _
  · exact h.onText h.putStringConstant _
  · exact h.onCell (fun o => (hloop (Or.inl rfl) o).1) _
  · exact h.onCell (fun o => (hloop (Or.inr rfl) o).2) _
  · exact h.onConstant (h.growStack (hresize (Or.inl rfl))) _
  · exact h.onConstant (h.shrinkStack (hresize (Or.inr rfl))) _
  · exact h.throw trivial

end Compositional

end TapeToolchain
