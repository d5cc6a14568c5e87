import TapeToolchain.Evaluation.Evaluator
import TapeToolchain.Proofs.Frame.Composition

/-!
What holds of every evaluation, whatever is evaluated. A term is evaluated by steps on the frame, on
the scopes and on values. A property of actions that these have, and that is kept from one to the
next, is a property of the evaluation of every term whose built-ins have it.
-/

namespace TapeToolchain

/-! ## The failures of scopes and values -/

theorem lookupIn_error {name : Symbol} {c : CompileError} :
    ∀ {scopes : List Scope}, lookupIn name scopes = .error c → ¬ c.IsLoopFault
  | [], h => by cases h; exact nofun
  | scope :: outer, h => by
    simp only [lookupIn] at h
    split at h
    · cases h
    · cases h; exact nofun
    · exact lookupIn_error h

theorem Scopes.resolve_error {s : Scopes} {a : Atom} {c : CompileError}
    (h : s.resolve a = .error c) : ¬ c.IsLoopFault := by
  cases a with
  | name n => exact lookupIn_error h
  | int _ | text _ | address _ => cases h

theorem Scopes.outerResolve_error {s : Scopes} {a : Atom} {c : CompileError}
    (h : s.outerResolve a = .error c) : ¬ c.IsLoopFault := by
  cases a with
  | name n => exact lookupIn_error h
  | int _ | text _ | address _ => cases h

theorem Scopes.declare_error {s : Scopes} {name : Symbol} {c : CompileError}
    (h : s.declare name = .error c) : ¬ c.IsLoopFault := by
  simp only [Scopes.declare] at h
  split at h
  · cases h; exact nofun
  · cases h

theorem Scopes.set_error {s : Scopes} {name : Symbol} {value : Atom} {c : CompileError}
    (h : s.set name value = .error c) : ¬ c.IsLoopFault := by
  simp only [Scopes.set] at h
  split at h
  · cases h; exact nofun
  · cases h

theorem Scopes.pop_error {s : Scopes} {c : CompileError} (h : s.pop = .error c) :
    ¬ c.IsLoopFault := by
  simp only [Scopes.pop] at h
  split at h
  · cases h; exact nofun
  · cases h

theorem Value.asAtom_error {v : Value} {c : CompileError} (h : v.asAtom = .error c) :
    ¬ c.IsLoopFault := by
  cases v with
  | atom a => cases h
  | unit | builtin _ | arguments _ => cases h; exact nofun

theorem Value.asSymbol_error {v : Value} {c : CompileError} (h : v.asSymbol = .error c) :
    ¬ c.IsLoopFault := by
  unfold Value.asSymbol at h
  split at h
  · cases h
  · cases h; exact nofun

theorem Value.asAddress_error {v : Value} {c : CompileError} (h : v.asAddress = .error c) :
    ¬ c.IsLoopFault := by
  unfold Value.asAddress at h
  split at h
  · cases h
  · cases h; exact nofun

theorem Evaluator.builtinNamed_error {name : Symbol} {c : CompileError}
    (h : builtinNamed name = .error c) : ¬ c.IsLoopFault := by
  unfold builtinNamed at h
  split at h
  · cases h
  · cases h; exact nofun

theorem Evaluator.run_append (a b : List Node) : run (a ++ b) = (do run a; run b) := by
  induction a with
  | nil => rfl
  | cons n a ih => simp only [List.cons_append, run, ih, bind_assoc]

/-- Properties `G` of actions on frames and `V` of steps of evaluations that the parts of evaluation
have and that are kept by the ways of putting them together. -/
structure CompositionalEvaluation (G : (α : Type) → Frame.Action α → Prop)
    (V : (α : Type) → Evaluator.Action α → Prop) : Prop where
  pure {α : Type} (a : α) : V α (pure a)
  throw {α : Type} {c : CompileError} : ¬ c.IsLoopFault → V α (throw c)
  bind {α β : Type} {x : Evaluator.Action α} {f : α → Evaluator.Action β} :
    V α x → (∀ a, V β (f a)) → V β (x >>= f)
  onFrame {α : Type} {x : Frame.Action α} : G α x → V α (Evaluator.onFrame x)
  onScopes {change : Scopes → Except CompileError Scopes} :
    (∀ s c, change s = .error c → ¬ c.IsLoopFault) → V Unit (Evaluator.onScopes change)
  askScopes {α : Type} {question : Scopes → Except CompileError α} :
    (∀ s c, question s = .error c → ¬ c.IsLoopFault) → V α (Evaluator.askScopes question)
  setScopes (scopes : Scopes) : V Unit (modify fun s => { s with scopes })
  allocate : G Int Frame.allocate
  free (o : Int) : G Unit (Frame.free o)
  freeAll (offsets : List Int) : G Unit (Frame.freeAll offsets)

namespace CompositionalEvaluation

variable {G : (α : Type) → Frame.Action α → Prop} {V : (α : Type) → Evaluator.Action α → Prop}
variable (h : CompositionalEvaluation G V)
include h

theorem ofExcept {α : Type} {x : Except CompileError α} (hx : ∀ c, x = .error c → ¬ c.IsLoopFault) :
    V α (MonadExcept.ofExcept x) := by
  cases x with
  | ok a => exact h.pure a
  | error c => exact h.throw (hx c rfl)

theorem asAtom (v : Value) : V Atom (MonadExcept.ofExcept v.asAtom) :=
  h.ofExcept fun _ hc => Value.asAtom_error hc

theorem asSymbol (v : Value) : V Symbol (MonadExcept.ofExcept v.asSymbol) :=
  h.ofExcept fun _ hc => Value.asSymbol_error hc

theorem asAddress (v : Value) : V Int (MonadExcept.ofExcept v.asAddress) :=
  h.ofExcept fun _ hc => Value.asAddress_error hc

theorem closeScope : V Unit Evaluator.closeScope := by
  refine h.bind (h.askScopes fun s c hc => Scopes.pop_error hc) fun (release, scopes) => ?_
  exact h.bind (h.setScopes scopes) fun _ => h.onFrame (h.freeAll release)

theorem resolveAll : ∀ values, V (List Atom) (Evaluator.resolveAll values)
  | [] => h.pure []
  | v :: rest =>
    h.bind (h.asAtom v) fun _ => h.bind (h.askScopes fun _ _ hc => Scopes.resolve_error hc) fun _ =>
      h.bind (resolveAll rest) fun _ => h.pure _

/-- What a tag does has the property if the built-in has it that it may invoke. -/
theorem dispatch (tag : Tag) (values : List Value)
    (hinvoke : ∀ b atoms, tag = .callBuiltin → values = [.builtin b, .arguments atoms] →
      G Unit (Frame.invoke b atoms)) :
    V Value (Evaluator.dispatch tag values) := by
  unfold Evaluator.dispatch
  split
  · exact h.bind (h.onScopes nofun) fun _ => h.pure _
  · exact h.bind h.closeScope fun _ => h.pure _
  · exact h.bind (h.asSymbol _) fun _ =>
      h.bind (h.onScopes fun _ _ hc => Scopes.declare_error hc) fun _ => h.pure _
  · exact h.bind (h.asSymbol _) fun _ => h.bind (h.asAtom _) fun _ =>
      h.bind (h.onScopes fun _ _ hc => Scopes.set_error hc) fun _ => h.pure _
  · exact h.bind (h.asAtom _) fun _ =>
      h.bind (h.askScopes fun _ _ hc => Scopes.resolve_error hc) fun _ => h.pure _
  · exact h.bind (h.asAtom _) fun _ =>
      h.bind (h.askScopes fun _ _ hc => Scopes.outerResolve_error hc) fun _ => h.pure _
  · exact h.bind (h.resolveAll _) fun _ => h.pure _
  · exact h.bind (h.onFrame h.allocate) fun _ => h.pure _
  · exact h.bind (h.asAddress _) fun _ => h.bind (h.onFrame (h.free _)) fun _ => h.pure _
  · exact h.bind (h.asAddress _) fun _ => h.bind (h.onScopes nofun) fun _ => h.pure _
  · exact h.bind (h.asSymbol _) fun _ =>
      h.bind (h.ofExcept fun _ hc => Evaluator.builtinNamed_error hc) fun _ => h.pure _
  · exact h.bind (h.onFrame (hinvoke _ _ rfl rfl)) fun _ => h.pure _
  · exact h.throw nofun
  · split
    · exact h.throw nofun
    · exact h.throw nofun
    · exact h.throw nofun
    · exact h.throw nofun
    · exact h.throw nofun
    · exact h.throw nofun
    · exact h.throw nofun
    · split
      · exact h.throw nofun
      · exact h.throw nofun

mutual

/-- A term has the property, whatever it is made of, if every built-in has it. -/
theorem evaluate (hinvoke : ∀ b atoms, G Unit (Frame.invoke b atoms)) :
    ∀ node, V Value (Evaluator.evaluate node)
  | .literal a => by
    rw [Evaluator.evaluate]
    exact h.pure _
  | .compound tag children => by
    rw [Evaluator.evaluate]
    refine h.bind (evaluateAll hinvoke children) fun values => ?_
    exact h.dispatch tag values fun b atoms _ _ => hinvoke b atoms

theorem evaluateAll (hinvoke : ∀ b atoms, G Unit (Frame.invoke b atoms)) :
    ∀ nodes, V (List Value) (Evaluator.evaluateAll nodes)
  | [] => by
    rw [Evaluator.evaluateAll]
    exact h.pure []
  | node :: rest => by
    rw [Evaluator.evaluateAll]
    exact h.bind (evaluate hinvoke node) fun _ => h.bind (evaluateAll hinvoke rest) fun _ =>
      h.pure _

end

theorem run (hinvoke : ∀ b atoms, G Unit (Frame.invoke b atoms)) :
    ∀ nodes, V Unit (Evaluator.run nodes)
  | [] => h.pure ()
  | node :: rest => h.bind (h.evaluate hinvoke node) fun _ => run hinvoke rest

end CompositionalEvaluation

end TapeToolchain
