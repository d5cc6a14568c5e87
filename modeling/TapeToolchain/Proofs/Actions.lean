import TapeToolchain.CompileError

/-!
Taking apart actions that may fail and that keep their state when they do. A sequence succeeds
exactly when both of its parts do, and fails exactly when the first part fails or the second fails
after it. Requests can also be made one after the other without heed to failures; then each has its
answer, and the state goes through all of them.
-/

namespace TapeToolchain

section
variable {σ α β : Type} {x : EStateM CompileError σ α} {f : α → EStateM CompileError σ β}
variable {s t : σ} {c : CompileError}

theorem bind_eq_ok {b : β} :
    (x >>= f) s = .ok b t ↔ ∃ a u, x s = .ok a u ∧ f a u = .ok b t := by
  show EStateM.bind x f s = _ ↔ _
  unfold EStateM.bind
  cases x s <;> simp [and_assoc]

theorem bind_eq_error :
    (x >>= f) s = .error c t ↔ x s = .error c t ∨ ∃ a u, x s = .ok a u ∧ f a u = .error c t := by
  show EStateM.bind x f s = _ ↔ _
  unfold EStateM.bind
  cases x s <;> simp [and_assoc]

theorem bind_of_ok {a : α} (h : x s = .ok a t) : (x >>= f) s = f a t := by
  show EStateM.bind x f s = _
  rw [EStateM.bind, h]

theorem bind_of_error (h : x s = .error c t) : (x >>= f) s = .error c t := by
  show EStateM.bind x f s = _
  rw [EStateM.bind, h]

theorem exists_eq_ok_of_run' {a : α} (h : x.run' s = some a) : ∃ u, x s = .ok a u := by
  delta EStateM.run' EStateM.run at h
  cases hx : x s with
  | ok b u =>
    rw [hx] at h
    cases h
    exact ⟨u, rfl⟩
  | error c u =>
    rw [hx] at h
    cases h

@[simp] theorem pure_apply {a : α} : (pure a : EStateM CompileError σ α) s = .ok a s := rfl

@[simp] theorem throw_apply : (throw c : EStateM CompileError σ α) s = .error c s := rfl

end

/-! ## What an action does on every run -/

section
variable {σ α β : Type} {R : σ → σ → Prop} {E : CompileError → Prop}

/-- Each success of an action relates the states before and after it by `R`, and each failure has a
cause in `E`. -/
def Meets (R : σ → σ → Prop) (E : CompileError → Prop) (x : EStateM CompileError σ α) : Prop :=
  (∀ s a t, x s = .ok a t → R s t) ∧ ∀ s c t, x s = .error c t → E c

namespace Meets

theorem of_pure (hrefl : ∀ s, R s s) (a : α) : Meets R E (pure a : EStateM CompileError σ α) := by
  refine ⟨fun s b t h => ?_, fun s c t h => ?_⟩
  · cases h; exact hrefl s
  · cases h

theorem of_throw {c : CompileError} (hc : E c) :
    Meets R E (throw c : EStateM CompileError σ α) := by
  refine ⟨fun s b t h => ?_, fun s d t h => ?_⟩
  · cases h
  · cases h; exact hc

theorem of_bind (htrans : ∀ s t u, R s t → R t u → R s u) {x : EStateM CompileError σ α}
    {f : α → EStateM CompileError σ β} (hx : Meets R E x) (hf : ∀ a, Meets R E (f a)) :
    Meets R E (x >>= f) := by
  refine ⟨fun s b t h => ?_, fun s c t h => ?_⟩
  · obtain ⟨a, u, hu, ht⟩ := bind_eq_ok.1 h
    exact htrans s u t (hx.1 s a u hu) ((hf a).1 u b t ht)
  · rcases bind_eq_error.1 h with hu | ⟨a, u, -, ht⟩
    · exact hx.2 s c t hu
    · exact (hf a).2 u c t ht

end Meets

end

/-! ## Requests one after the other -/

section
variable {σ κ α : Type}

/-- The state that an action leaves, whether it succeeds or fails. -/
def stateAfter (x : EStateM CompileError σ α) (s : σ) : σ :=
  match x s with
  | .ok _ t => t
  | .error _ t => t

theorem stateAfter_of_ok {x : EStateM CompileError σ α} {s t : σ} {a : α} (h : x s = .ok a t) :
    stateAfter x s = t := by
  rw [stateAfter, h]

theorem stateAfter_of_error {x : EStateM CompileError σ α} {s t : σ} {c : CompileError}
    (h : x s = .error c t) : stateAfter x s = t := by
  rw [stateAfter, h]

theorem stateAfter_map {β : Type} (f : α → β) (x : EStateM CompileError σ α) (s : σ) :
    stateAfter (f <$> x) s = stateAfter x s := by
  show stateAfter (EStateM.map f x) s = _
  rw [stateAfter, stateAfter, EStateM.map]
  cases x s <;> rfl

/-- What comes of an action, without the state that it leaves. -/
def answerOf (x : EStateM CompileError σ α) (s : σ) : Except CompileError α :=
  match x s with
  | .ok a _ => .ok a
  | .error c _ => .error c

theorem answerOf_of_ok {x : EStateM CompileError σ α} {s t : σ} {a : α} (h : x s = .ok a t) :
    answerOf x s = .ok a := by
  rw [answerOf, h]

/-- The state after requests that are all made, also those after one that fails. -/
def afterRequests (handle : κ → EStateM CompileError σ α) (calls : List κ) (s : σ) : σ :=
  calls.foldl (fun s call => stateAfter (handle call) s) s

theorem afterRequests_cons (handle : κ → EStateM CompileError σ α) (call : κ) (calls : List κ)
    (s : σ) :
    afterRequests handle (call :: calls) s =
      afterRequests handle calls (stateAfter (handle call) s) :=
  rfl

/-- The answers to requests that are all made. -/
def answersTo (handle : κ → EStateM CompileError σ α) : List κ → σ → List (Except CompileError α)
  | [], _ => []
  | call :: calls, s =>
    answerOf (handle call) s :: answersTo handle calls (stateAfter (handle call) s)

/-- What every request keeps is kept by all of them. -/
theorem afterRequests_keeps {handle : κ → EStateM CompileError σ α} {P : σ → Prop}
    (hstep : ∀ call s, P s → P (stateAfter (handle call) s)) (calls : List κ) {s : σ} (h : P s) :
    P (afterRequests handle calls s) := by
  induction calls generalizing s with
  | nil => exact h
  | cons call calls ih => exact ih (hstep call s h)

end

/-! ## Requests that are answered alike -/

/-- Two results have the same answer or failure, and states that stand for each other. -/
inductive SameOutcome {σ τ α : Type} (R : σ → τ → Prop) :
    EStateM.Result CompileError σ α → EStateM.Result CompileError τ α → Prop
  | ok {a : α} {s : σ} {t : τ} (h : R s t) : SameOutcome R (.ok a s) (.ok a t)
  | error {c : CompileError} {s : σ} {t : τ} (h : R s t) : SameOutcome R (.error c s) (.error c t)

namespace SameOutcome

section
variable {σ τ α : Type} {R : σ → τ → Prop} {s : σ} {t : τ}
variable {x : EStateM CompileError σ α} {y : EStateM CompileError τ α}

theorem map {β : Type} (f : α → β) (h : SameOutcome R (x s) (y t)) :
    SameOutcome R ((f <$> x) s) ((f <$> y) t) := by
  show SameOutcome R (EStateM.map f x s) (EStateM.map f y t)
  rw [EStateM.map, EStateM.map]
  generalize x s = r at h ⊢
  generalize y t = r' at h ⊢
  cases h with
  | ok hnext => exact .ok hnext
  | error hnext => exact .error hnext

theorem answerOf_eq (h : SameOutcome R (x s) (y t)) : answerOf x s = answerOf y t := by
  rw [answerOf, answerOf]
  generalize x s = r at h ⊢
  generalize y t = r' at h ⊢
  cases h <;> rfl

theorem stateAfter (h : SameOutcome R (x s) (y t)) : R (stateAfter x s) (stateAfter y t) := by
  rw [TapeToolchain.stateAfter, TapeToolchain.stateAfter]
  generalize x s = r at h ⊢
  generalize y t = r' at h ⊢
  cases h with
  | ok hnext | error hnext => exact hnext

end

/-- If every request has the same outcome, so have requests one after the other. -/
theorem requests {σ τ κ α : Type} {R : σ → τ → Prop} {handle : κ → EStateM CompileError σ α}
    {handle' : κ → EStateM CompileError τ α}
    (hstep : ∀ call s t, R s t → SameOutcome R (handle call s) (handle' call t)) (calls : List κ)
    {s : σ} {t : τ} (h : R s t) :
    answersTo handle calls s = answersTo handle' calls t ∧
      R (afterRequests handle calls s) (afterRequests handle' calls t) := by
  induction calls generalizing s t with
  | nil => exact ⟨rfl, h⟩
  | cons call calls ih =>
    have hfirst := hstep call s t h
    obtain ⟨hrest, hlast⟩ := ih hfirst.stateAfter
    refine ⟨?_, hlast⟩
    rw [answersTo, answersTo, hfirst.answerOf_eq, hrest]

end SameOutcome

/-! ## Actions without a state -/

/-- In `Except`, a sequence succeeds when both of its parts do. -/
theorem except_bind_eq_ok {α β : Type} {x : Except CompileError α} {f : α → Except CompileError β}
    {b : β} : (x >>= f) = .ok b ↔ ∃ a, x = .ok a ∧ f a = .ok b := by
  cases x <;> simp [bind, Except.bind]

theorem except_bind_eq_error {α β : Type} {x : Except CompileError α}
    {f : α → Except CompileError β} {c : CompileError} :
    (x >>= f) = .error c ↔ x = .error c ∨ ∃ a, x = .ok a ∧ f a = .error c := by
  cases x <;> simp [bind, Except.bind]

end TapeToolchain
