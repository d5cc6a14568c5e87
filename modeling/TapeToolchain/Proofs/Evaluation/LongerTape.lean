import TapeToolchain.Proofs.Evaluation.Composition

/-!
Evaluation on a longer tape. The emitter looks at the size of the tape only to refuse what lies
beyond its end. So what succeeds on a tape succeeds on every longer one, and writes the same code
there.
-/

namespace TapeToolchain

/-! ## Actions from a changed state -/

/-- Whenever the action succeeds, it does so from the changed state as well, with the same result,
and ends in the state that is changed in the same way. -/
def CarriesOver {σ α : Type} (change : σ → σ) (x : EStateM CompileError σ α) : Prop :=
  ∀ s a s', x s = .ok a s' → x (change s) = .ok a (change s')

namespace CarriesOver

variable {σ α β : Type} {change : σ → σ}

theorem of_pure (a : α) : CarriesOver change (pure a : EStateM CompileError σ α) := by
  intro s b s' h
  cases h
  rfl

theorem of_throw (c : CompileError) : CarriesOver change (throw c : EStateM CompileError σ α) := by
  intro s b s' h
  cases h

theorem of_bind {x : EStateM CompileError σ α} {f : α → EStateM CompileError σ β}
    (hx : CarriesOver change x) (hf : ∀ a, CarriesOver change (f a)) :
    CarriesOver change (x >>= f) := by
  intro s b s' h
  obtain ⟨a, u, hu, hs'⟩ := bind_eq_ok.1 h
  exact bind_eq_ok.2 ⟨a, change u, hx s a u hu, hf a u b s' hs'⟩

end CarriesOver

/-! ## The emitter -/

/-- The emitter on a tape of another size. -/
def Emitter.resized (size : UInt64 → UInt64) (e : Emitter) : Emitter :=
  { e with tapeSize := size e.tapeSize }

def Frame.resized (size : UInt64 → UInt64) (f : Frame) : Frame :=
  { f with emitter := f.emitter.resized size }

def Evaluator.resized (size : UInt64 → UInt64) (s : Evaluator) : Evaluator :=
  { s with frame := s.frame.resized size }

/-- No tape becomes shorter. -/
def NeverShorter (size : UInt64 → UInt64) : Prop :=
  ∀ n, signedSize n ≤ signedSize (size n)

variable {size : UInt64 → UInt64}

namespace Emitter

theorem onTape_resized (hsize : NeverShorter size) {e : Emitter} {position : Int}
    (h : e.onTape position = true) : (e.resized size).onTape position = true := by
  simp only [onTape, Bool.and_eq_true, decide_eq_true_eq] at h ⊢
  exact ⟨h.1, Int.lt_of_lt_of_le h.2 (hsize e.tapeSize)⟩

theorem carriesOver_shift (hsize : NeverShorter size) (distance : Int) :
    CarriesOver (resized size) (shift distance) := by
  intro e a e' h
  simp only [shift] at h
  by_cases ht : e.onTape (e.cursor + distance) = true
  · rw [if_pos ht] at h
    cases h
    exact if_pos (onTape_resized hsize ht)
  · rw [if_neg ht] at h
    cases h

theorem carriesOver_moveTo (hsize : NeverShorter size) (o : Int) :
    CarriesOver (resized size) (moveTo o) := by
  intro e
  exact carriesOver_shift hsize (e.base + o - e.cursor) e

theorem carriesOver_repeated (i : Instruction) (n : Nat) :
    CarriesOver (resized size) (repeated i n) := by
  intro e a e' h
  cases h
  rfl

theorem carriesOver_beginLoop : CarriesOver (resized size) beginLoop := by
  intro e a e' h
  cases h
  rfl

theorem carriesOver_endLoop : CarriesOver (resized size) endLoop := by
  intro ⟨tapeSize, cursor, base, code, loops⟩ a e' h
  cases loops with
  | nil => cases h
  | cons opened rest =>
    simp only [endLoop] at h
    by_cases hopened : opened = Emitter.relative ⟨tapeSize, cursor, base, code, opened :: rest⟩
    · rw [if_pos hopened] at h
      cases h
      exact if_pos hopened
    · rw [if_neg hopened] at h
      cases h

theorem carriesOver_rebase (hsize : NeverShorter size) (d : Int) :
    CarriesOver (resized size) (rebase d) := by
  intro e a e' h
  simp only [rebase] at h
  by_cases hbase : 0 ≤ e.base + d ∧ e.base + d ≤ e.limit
  · rw [if_pos hbase] at h
    cases h
    exact if_pos ⟨hbase.1, Int.le_trans hbase.2 (hsize e.tapeSize)⟩
  · rw [if_neg hbase] at h
    cases h

end Emitter

/-! ## The frame -/

namespace Frame

theorem carriesOver_emit {α : Type} {x : Emitter.Action α}
    (hx : CarriesOver (Emitter.resized size) x) : CarriesOver (resized size) (emit x) := by
  intro ⟨e, cells⟩ a f' h
  simp only [emit] at h
  simp only [emit, resized]
  split at h
  · next hok => cases h; rw [hx _ _ _ hok]
  · cases h

theorem carriesOver_allocate (hsize : NeverShorter size) : CarriesOver (resized size) allocate := by
  intro ⟨e, cells⟩ o f' h
  simp only [allocate] at h
  split at h
  · next ht =>
    cases h
    show (if (e.resized size).onTape (e.base + cells.allocate.1) = true then _ else _) = _
    rw [if_pos (Emitter.onTape_resized hsize ht)]
    rfl
  · cases h

theorem carriesOver_free (o : Int) : CarriesOver (resized size) (free o) := by
  intro ⟨e, cells⟩ a f' h
  simp only [free] at h
  simp only [free, resized]
  split at h
  · cases h; rfl
  · cases h

theorem carriesOver_freeAll : ∀ offsets, CarriesOver (resized size) (freeAll offsets)
  | [] => .of_pure ()
  | o :: rest => .of_bind (carriesOver_free o) fun _ => carriesOver_freeAll rest

theorem carriesOver_reserveAll (offsets : List Int) :
    CarriesOver (resized size) (reserveAll offsets) := by
  intro ⟨e, cells⟩ a f' h
  simp only [reserveAll] at h
  cases h
  rfl

theorem carriesOver_andThen {action closing : Action Unit}
    (haction : CarriesOver (resized size) action) (hclosing : CarriesOver (resized size) closing) :
    CarriesOver (resized size) (andThen action closing) := by
  intro f a f' h
  simp only [andThen] at h
  split at h
  · next u hu =>
    -- the success of the whole is one of both parts
    simp only [andThen, haction _ _ _ hu]
    exact hclosing _ _ _ h
  · split at h <;> cases h

theorem carriesOver_withScratch (hsize : NeverShorter size) (b : Builtin) (operands : List Int)
    {body : Int → Action Unit} (hbody : ∀ scratch, CarriesOver (resized size) (body scratch)) :
    CarriesOver (resized size) (withScratch b operands body) := by
  refine .of_bind (carriesOver_allocate hsize) fun scratch => ?_
  split
  · exact .of_bind (carriesOver_free scratch) fun _ => .of_throw _
  · exact .of_bind (carriesOver_reserveAll operands) fun reserved =>
      carriesOver_andThen (hbody scratch) (carriesOver_freeAll _)

theorem carriesOver_compositional (hsize : NeverShorter size) :
    Compositional (fun _ x => CarriesOver (Emitter.resized size) x)
      (fun _ x => CarriesOver (resized size) x) where
  skip := .of_pure
  seq := .of_bind
  moveTo := Emitter.carriesOver_moveTo hsize
  add := Emitter.carriesOver_repeated _
  sub := Emitter.carriesOver_repeated _
  read := Emitter.carriesOver_repeated _ 1
  write := Emitter.carriesOver_repeated _ 1
  loopOn o body hbody := by
    have hmove := Emitter.carriesOver_moveTo hsize o
    refine .of_bind hmove fun _ => .of_bind Emitter.carriesOver_beginLoop fun _ => ?_
    exact .of_bind hbody fun _ => .of_bind hmove fun _ => Emitter.carriesOver_endLoop
  pure := .of_pure
  throw _ := .of_throw _
  bind := .of_bind
  emit := carriesOver_emit
  withScratch b operands := carriesOver_withScratch hsize b operands
  occupied := by
    intro f a f' h
    cases h
    rfl

theorem carriesOver_invoke (hsize : NeverShorter size) (b : Builtin) (arguments : List Atom) :
    CarriesOver (resized size) (invoke b arguments) := by
  refine (carriesOver_compositional hsize).invoke arguments (fun _ o => ?_)
    fun _ => Emitter.carriesOver_rebase hsize
  have hmove := Emitter.carriesOver_moveTo hsize o
  exact ⟨carriesOver_emit (.of_bind hmove fun _ => Emitter.carriesOver_beginLoop),
    carriesOver_emit (.of_bind hmove fun _ => Emitter.carriesOver_endLoop)⟩

end Frame

/-! ## Evaluation -/

namespace Evaluator

theorem carriesOver_onFrame {α : Type} {x : Frame.Action α}
    (hx : CarriesOver (Frame.resized size) x) : CarriesOver (resized size) (onFrame x) := by
  intro ⟨f, scopes⟩ a s' h
  simp only [onFrame] at h
  simp only [onFrame, resized]
  split at h
  · next hok => cases h; rw [hx _ _ _ hok]
  · cases h

theorem carriesOver_onScopes (change : Scopes → Except CompileError Scopes) :
    CarriesOver (resized size) (onScopes change) := by
  intro ⟨f, scopes⟩ a s' h
  simp only [onScopes] at h
  simp only [onScopes, resized]
  split at h
  · cases h; rfl
  · cases h

theorem carriesOver_askScopes {α : Type} (question : Scopes → Except CompileError α) :
    CarriesOver (resized size) (askScopes question) := by
  intro ⟨f, scopes⟩ a s' h
  simp only [askScopes] at h
  simp only [askScopes, resized]
  split at h
  · cases h; rfl
  · cases h

/-- What is evaluated on a tape is evaluated on every longer one. -/
theorem carriesOver_run (hsize : NeverShorter size) (nodes : List Node) :
    CarriesOver (resized size) (run nodes) := by
  have heval : CompositionalEvaluation (fun _ x => CarriesOver (Frame.resized size) x)
      (fun _ x => CarriesOver (resized size) x) :=
    { pure := .of_pure
      throw := fun _ => .of_throw _
      bind := .of_bind
      onFrame := carriesOver_onFrame
      onScopes := fun _ => carriesOver_onScopes _
      askScopes := fun _ => carriesOver_askScopes _
      setScopes := by
        intro scopes s a s' h
        cases h
        rfl
      allocate := Frame.carriesOver_allocate hsize
      free := Frame.carriesOver_free
      freeAll := Frame.carriesOver_freeAll }
  exact heval.run (Frame.carriesOver_invoke hsize) nodes

end Evaluator

end TapeToolchain
