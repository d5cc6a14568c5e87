import TapeToolchain.Proofs.Frame.Failures
import TapeToolchain.Proofs.Frame.Guards
import TapeToolchain.Proofs.Frame.OpenLoops

/-!
Calls that are refused. A built-in looks at all of its operands before it writes anything, and the
operations that it is made of have no reason to refuse what they are given. So a refusal leaves no
trace (`Traceless`), and no call leaves a cell occupied that was free, or opens or closes a loop
that it should not.
-/

namespace TapeToolchain

theorem CompileError.IsOffTape.not_refusal {c : CompileError} (h : c.IsOffTape) :
    ¬ c.IsRefusal := by
  obtain ⟨position, tapeSize, rfl⟩ := h
  exact id

theorem CompileError.IsLoopFault.not_refusal {c : CompileError} (h : c.IsLoopFault) :
    ¬ c.IsRefusal :=
  fun hrefusal => hrefusal.not_loopFault h

/-- By how much a built-in changes the number of open loops. -/
def Builtin.loopChange : Builtin → Int
  | .beginLoop => 1
  | .endLoop => -1
  | _ => 0

namespace Frame

/-! ## Failures at the end of the tape only -/

/-- The action can only fail at the end of the tape. -/
def FailsOffTape {α : Type} (x : Action α) : Prop :=
  ∀ f c f', x f = .error c f' → c.IsOffTape

namespace FailsOffTape

theorem bind {α β : Type} {x : Action α} {k : α → Action β} (hx : FailsOffTape x)
    (hk : ∀ a, FailsOffTape (k a)) : FailsOffTape (x >>= k) := by
  intro f c f' h
  rcases bind_eq_error.1 h with h | ⟨a, g, -, h⟩
  · exact hx f c f' h
  · exact hk a g c f' h

theorem of_visits {x : Action Unit} {offsets : List Int} (h : ∀ p, Visits p x offsets) :
    FailsOffTape x :=
  fun _ _ _ hx => ((h _).fails rfl hx).1

theorem occupied : FailsOffTape occupied := by
  intro f c f' h
  cases h

theorem rebase (distance : Int) : FailsOffTape (emit (Emitter.rebase distance)) := by
  intro f c f' h
  exact (Emitter.rebase_error (emit_error h)).2

theorem beginLoop (src : Int) : FailsOffTape (beginLoop src) := by
  intro f c f' h
  rcases bind_eq_error.1 (emit_error h) with h | ⟨_, e, -, h⟩
  · exact (Emitter.moveTo_error h).2
  · cases h

end FailsOffTape

/-! ## Refusals without a trace -/

/-- If the action is refused, it leaves the frame as it was. -/
def Traceless {α : Type} (x : Action α) : Prop :=
  ∀ f c f', x f = .error c f' → c.IsRefusal → f' = f

namespace Traceless

theorem of_failsOffTape {α : Type} {x : Action α} (h : FailsOffTape x) : Traceless x :=
  fun f c f' hx hrefusal => absurd hrefusal (h f c f' hx).not_refusal

theorem of_guarded {x : Action Unit} {constants operands : List Int} {apart : Prop} {k : Nat}
    (h : Guarded x constants apart operands k) : Traceless x := by
  intro f c f' hx hrefusal
  by_cases hpermits : Permits constants apart operands k f.cells
  · -- Code may have been written, but then the operations inside refuse nothing.
    exact absurd hrefusal ((h.visits _ hpermits).fails rfl hx).1.not_refusal
  · obtain ⟨c', hc'⟩ := h.refuses f hpermits
    rw [hc'] at hx
    cases hx
    rfl

/-- A check that comes first and writes nothing. -/
theorem check {α β : Type} {x : Action α} {k : α → Action β} (hx : Traceless x)
    (hok : ∀ f a f', x f = .ok a f' → f' = f) (hk : ∀ a, Traceless (k a)) :
    Traceless (x >>= k) := by
  intro f c f' h hrefusal
  rcases bind_eq_error.1 h with h | ⟨a, g, hg, h⟩
  · exact hx f c f' h hrefusal
  · rw [hok f a g hg] at h
    exact hk a f c f' h hrefusal

theorem pure {α : Type} (a : α) : Traceless (pure a) := by
  intro f c f' h
  cases h

theorem ofExcept {α β : Type} (x : Except CompileError α) {k : α → Action β}
    (hk : ∀ a, Traceless (k a)) : Traceless (do let a ← MonadExcept.ofExcept x; k a) := by
  refine check (fun f c f' h _ => ?_) (fun f a f' h => ?_) hk
  · cases x with
    | ok a => cases h
    | error cause => cases h; rfl
  · cases x with
    | ok a => cases h; rfl
    | error cause => cases h

theorem naturalCount (count : Int) {k : Nat → Action Unit} (hk : ∀ n, Traceless (k n)) :
    Traceless (do let n ← naturalCount count; k n) := by
  rw [Frame.naturalCount]
  split
  · intro f c f' h _
    cases h
    rfl
  · exact hk _

/-! ## The other built-ins -/

theorem putStringConstant (text : String) : Traceless (putStringConstant text) :=
  ofExcept _ fun codes => of_guarded (.putCodes codes)

theorem endLoop (src : Int) : Traceless (endLoop src) := by
  intro f c f' h hrefusal
  rcases bind_eq_error.1 (emit_error h) with h | ⟨_, e, -, h⟩
  · exact absurd hrefusal (CompileError.IsOffTape.not_refusal (Emitter.moveTo_error h).2)
  · exact absurd hrefusal (Emitter.endLoop_error h).2.not_refusal

theorem growStack (size : Int) : Traceless (growStack size) := by
  refine naturalCount size fun count => ?_
  split
  · exact pure ()
  · next hcount =>
    refine of_failsOffTape (FailsOffTape.occupied.bind fun offsets => ?_)
    refine (FailsOffTape.of_visits fun _ => .moveAll (by omega) _).bind fun _ => ?_
    exact (FailsOffTape.of_visits fun _ => .clearRange 0 count).bind fun _ => .rebase count

theorem shrinkStack (size : Int) : Traceless (shrinkStack size) := by
  refine naturalCount size fun count => ?_
  split
  · exact pure ()
  · next hcount =>
    refine of_failsOffTape (FailsOffTape.occupied.bind fun offsets => ?_)
    exact (FailsOffTape.of_visits fun _ => .moveAll (by omega) _).bind fun _ => .rebase (-count)

/-! ## Every built-in -/

theorem onCell {op : Int → Action Unit} (hop : ∀ o, Traceless (op o)) (a : Atom) :
    Traceless (onCell op a) :=
  ofExcept _ hop

theorem onCells {op : Int → Int → Action Unit} (hop : ∀ o p, Traceless (op o p)) (a b : Atom) :
    Traceless (onCells op a b) :=
  ofExcept _ fun o => ofExcept _ (hop o)

theorem onThreeCells {op : Int → Int → Int → Action Unit} (hop : ∀ o p q, Traceless (op o p q))
    (a b c : Atom) : Traceless (onThreeCells op a b c) :=
  ofExcept _ fun o => ofExcept _ fun p => ofExcept _ (hop o p)

theorem onConstantAndCell {op : Int → Int → Action Unit} (hop : ∀ n o, Traceless (op n o))
    (a b : Atom) : Traceless (onConstantAndCell op a b) :=
  ofExcept _ fun n => ofExcept _ (hop n)

theorem onConstant {op : Int → Action Unit} (hop : ∀ n, Traceless (op n)) (a : Atom) :
    Traceless (onConstant op a) :=
  ofExcept _ hop

theorem onText {op : String → Action Unit} (hop : ∀ text, Traceless (op text)) (a : Atom) :
    Traceless (onText op a) :=
  ofExcept _ hop

theorem invoke (b : Builtin) (arguments : List Atom) : Traceless (invoke b arguments) := by
  unfold Frame.invoke
  split
  · exact onCell (fun _ => of_guarded (.clear _)) _
  · exact onCells (fun _ _ => of_guarded (.destructiveAdd _ _)) _ _
  · exact onCells (fun _ _ => of_guarded (.destructiveSub _ _)) _ _
  · exact onCells (fun _ _ => of_guarded (.move _ _)) _ _
  · exact onCells (fun _ _ => of_guarded (.copy _ _)) _ _
  · exact onCells (fun _ _ => of_guarded (.stackAdd _ _)) _ _
  · exact onCells (fun _ _ => of_guarded (.stackSub _ _)) _ _
  · exact onConstantAndCell (fun _ _ => of_guarded (.constantAdd _ _)) _ _
  · exact onConstantAndCell (fun _ _ => of_guarded (.constantSub _ _)) _ _
  · exact onCells (fun _ _ => of_guarded (.asLogical _ _)) _ _
  · exact onCells (fun _ _ => of_guarded (.logicalNot _ _)) _ _
  · exact onThreeCells (fun _ _ _ => of_guarded (.logicalAnd _ _ _)) _ _ _
  · exact onThreeCells (fun _ _ _ => of_guarded (.logicalOr _ _ _)) _ _ _
  · exact onCell (fun _ => of_guarded (.getChar _)) _
  · exact onCell (fun _ => of_guarded (.putChar _)) _
  · exact onText putStringConstant _
  · exact onCell (fun _ => of_failsOffTape (.beginLoop _)) _
  · exact onCell endLoop _
  · exact onConstant growStack _
  · exact onConstant shrinkStack _
  · intro f c f' h _
    cases h
    rfl

end Traceless

/-! ## Open loops -/

/-- The number of arguments is looked at first. -/
theorem invoke_of_length_ne {b : Builtin} {arguments : List Atom} (h : arguments.length ≠ b.arity) :
    invoke b arguments = throw (.arityMismatch b.name b.arity arguments.length) := by
  unfold invoke
  split
  all_goals first | rfl | exact absurd rfl h

/-- A built-in with one operand is given an argument of its kind, or refuses what it is given. -/
theorem invoke_single_cases {b : Builtin} {α : Type} {kind : α → Atom} (harity : b.arity = 1)
    (hkind : ∀ a f, (∃ v, a = kind v) ∨ ∃ c, c.IsRefusal ∧ invoke b [a] f = .error c f)
    (arguments : List Atom) (f : Frame) :
    (∃ v, arguments = [kind v]) ∨ ∃ c, c.IsRefusal ∧ invoke b arguments f = .error c f := by
  by_cases hlength : arguments.length = b.arity
  · obtain ⟨a, rfl⟩ := List.length_eq_one_iff.1 (hlength.trans harity)
    rcases hkind a f with ⟨v, rfl⟩ | hrefused
    · exact Or.inl ⟨v, rfl⟩
    · exact Or.inr hrefused
  · exact Or.inr ⟨.arityMismatch .., trivial, by rw [invoke_of_length_ne hlength]; rfl⟩

theorem invoke_loop_cases {b : Builtin} (hb : b = .beginLoop ∨ b = .endLoop) (arguments : List Atom)
    (f : Frame) : (∃ o, arguments = [.address o]) ∨ ∃ c, c.IsRefusal ∧
      invoke b arguments f = .error c f := by
  refine invoke_single_cases (by rcases hb with rfl | rfl <;> rfl) (fun a f => ?_) arguments f
  cases a with
  | address o => exact Or.inl ⟨o, rfl⟩
  | name _ | int _ | text _ =>
    exact Or.inr ⟨.typeMismatch .., trivial, by rcases hb with rfl | rfl <;> rfl⟩

theorem invoke_resize_cases {b : Builtin} (hb : b = .growStack ∨ b = .shrinkStack)
    (arguments : List Atom) (f : Frame) :
    (∃ n, arguments = [.int n]) ∨ ∃ c, c.IsRefusal ∧ invoke b arguments f = .error c f := by
  refine invoke_single_cases (by rcases hb with rfl | rfl <;> rfl) (fun a f => ?_) arguments f
  cases a with
  | int n => exact Or.inl ⟨n, rfl⟩
  | name _ | text _ | address _ =>
    exact Or.inr ⟨.typeMismatch .., trivial, by rcases hb with rfl | rfl <;> rfl⟩

theorem openLoops_invoke {b : Builtin} {arguments : List Atom} {f f' : Frame}
    (h : invoke b arguments f = .ok () f') :
    (f'.emitter.openLoops : Int) = f.emitter.openLoops + b.loopChange := by
  by_cases hb : b = .beginLoop ∨ b = .endLoop
  · rcases invoke_loop_cases hb arguments f with ⟨o, rfl⟩ | ⟨c, -, hc⟩
    · rcases hb with rfl | rfl
      · have hloops : f'.emitter.loops = o :: f.emitter.loops := Emitter.loops_beginLoop h
        simp [Emitter.openLoops, hloops, Builtin.loopChange]
      · have hloops : f.emitter.loops = o :: f'.emitter.loops := Emitter.loops_endLoop h
        simp [Emitter.openLoops, hloops, Builtin.loopChange]
    · rw [hc] at h
      cases h
  · have hloops : f'.emitter.loops = f.emitter.loops :=
      (loops_invoke False (not_or.1 hb) arguments).1 f () f' h
    have hchange : b.loopChange = 0 := by
      cases b with
      | beginLoop => exact absurd (Or.inl rfl) hb
      | endLoop => exact absurd (Or.inr rfl) hb
      | _ => rfl
    rw [Emitter.openLoops, hloops, hchange, Int.add_zero, Emitter.openLoops]

/-- Only the end of a loop fails because of a loop. -/
theorem invoke_loopFault {b : Builtin} {arguments : List Atom} {f f' : Frame} {c : CompileError}
    (h : invoke b arguments f = .error c f') (hfault : c.IsLoopFault) : b = .endLoop := by
  by_contra hend
  by_cases hbegin : b = .beginLoop
  · rcases invoke_loop_cases (Or.inl hbegin) arguments f with ⟨o, rfl⟩ | ⟨c', hrefusal, hc'⟩
    · subst hbegin
      exact Emitter.beginLoop_not_fault h hfault
    · rw [hc'] at h
      cases h
      exact hrefusal.not_loopFault hfault
  · exact ((loops_invoke False ⟨hbegin, hend⟩ arguments).2 f c f' h hfault).2

/-- **A refused call leaves no trace, and no call leaks a cell.** Whatever the frame, the built-in
and its arguments are, the occupied cells after a call are those before it, also if it fails. If the
arguments were refused, the code, the cursor, the base and the open loops are what they were. A loop
can only be at fault where one is to be closed, and a successful call opens or closes as many loops
as its name says. -/
theorem refused_calls_leave_no_trace (b : Builtin) (arguments : List Atom) (f : Frame) :
    (∀ f', invoke b arguments f = .ok () f' → f'.cells = f.cells ∧
      (f'.emitter.openLoops : Int) = f.emitter.openLoops + b.loopChange) ∧
    ∀ c f', invoke b arguments f = .error c f' → f'.cells = f.cells ∧
      (c.IsRefusal → f'.emitter = f.emitter) ∧ (c.IsLoopFault → b = .endLoop) ∧
      (∀ o, c ≠ .notAllocated o) ∧ ∀ char, c ≠ .badInstruction char := by
  refine ⟨fun f' h => ⟨(restores_invoke b arguments).1 f () f' h, openLoops_invoke h⟩,
    fun c f' h => ?_⟩
  have hstops := invoke_failsAsBuiltin b arguments f c f' h
  refine ⟨(restores_invoke b arguments).2 f c f' h, fun hrefusal => ?_, invoke_loopFault h, ?_, ?_⟩
  · rw [Traceless.invoke b arguments f c f' h hrefusal]
  · rintro o rfl
    exact hstops
  · rintro char rfl
    exact hstops

/-- Inside of a loop, the least free cell is the destination of a copy, which was not allocated. -/
theorem refused_calls_leave_no_trace_scratch_on_operand : ∃ f f' : Frame, ∃ c : CompileError,
    f.emitter.loops = [1] ∧ f.cells.offsets = [1] ∧
    invoke .copy [.address 1, .address 0] f = .error c f' ∧ c.IsRefusal ∧
    f'.cells = f.cells ∧ f'.emitter = f.emitter := by
  have h : invoke .copy [.address 1, .address 0]
      ⟨⟨4, 2, 1, #[.right, .right, .loopBegin], [1]⟩, ⟨[1], by decide⟩⟩ = .error (.aliasing .copy 0)
      ⟨⟨4, 2, 1, #[.right, .right, .loopBegin], [1]⟩, ⟨[1], by decide⟩⟩ := rfl
  obtain ⟨-, hfailed⟩ := refused_calls_leave_no_trace .copy [.address 1, .address 0]
    ⟨⟨4, 2, 1, #[.right, .right, .loopBegin], [1]⟩, ⟨[1], by decide⟩⟩
  obtain ⟨hcells, htrace, -⟩ := hfailed _ _ h
  exact ⟨_, _, _, rfl, rfl, h, trivial, hcells, htrace trivial⟩

end Frame

end TapeToolchain
