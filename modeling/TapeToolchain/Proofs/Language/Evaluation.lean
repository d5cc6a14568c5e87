import TapeToolchain.Proofs.Evaluation.Discipline
import TapeToolchain.Proofs.Frame.Pool
import TapeToolchain.Proofs.Language.Expansion

/-!
What evaluation does with the statements of expanded blocks: a call of a built-in looks its operands
up, a local cell binds the least free cell to its name, and the parameters of a macro are bound to
what the arguments mean to the caller.
-/

namespace TapeToolchain

open Desugaring (localStatements whileStatements)

namespace Scopes

/-- The values of operands, from the current scope outwards. -/
def resolveEach (s : Scopes) : List Atom → Except CompileError (List Atom)
  | [] => .ok []
  | a :: rest => do
    let value ← s.resolve a
    return value :: (← s.resolveEach rest)

def declared (s : Scopes) (x : Symbol) : Scopes :=
  { s with current.bound := (x, none) :: s.current.bound }

/-- Declares a name with its value. -/
def bindName (s : Scopes) (x : Symbol) (value : Atom) : Scopes :=
  { s with current.bound := (x, some value) :: s.current.bound }

/-- Declares names with their values, one after the other. -/
def bindNames (s : Scopes) : List Symbol → List Atom → Scopes
  | x :: xs, value :: values => (s.bindName x value).bindNames xs values
  | _, _ => s

/-- Adds local cells to the current scope, one after the other: each is bound to its name, and freed
when the scope closes. -/
def own (s : Scopes) : List (Symbol × Int) → Scopes
  | [] => s
  | (x, o) :: rest => ((s.bindName x (.address o)).releaseOnExit o).own rest

theorem own_append (s : Scopes) (a b : List (Symbol × Int)) : s.own (a ++ b) = (s.own a).own b := by
  induction a generalizing s with
  | nil => rfl
  | cons entry a ih => exact ih _

@[simp] theorem outer_own (s : Scopes) (owned : List (Symbol × Int)) :
    (s.own owned).outer = s.outer := by
  induction owned generalizing s with
  | nil => rfl
  | cons entry rest ih => exact ih _

theorem release_own (s : Scopes) (owned : List (Symbol × Int)) :
    (s.own owned).current.release = s.current.release ++ owned.map (·.2) := by
  induction owned generalizing s with
  | nil => simp [own]
  | cons entry rest ih =>
    rw [own, ih]
    simp [releaseOnExit, bindName]

@[simp] theorem outer_bindNames (s : Scopes) (xs : List Symbol) (values : List Atom) :
    (s.bindNames xs values).outer = s.outer := by
  induction xs generalizing s values with
  | nil => rfl
  | cons x xs ih =>
    cases values with
    | nil => rfl
    | cons value values => exact ih _ _

@[simp] theorem release_bindNames (s : Scopes) (xs : List Symbol) (values : List Atom) :
    (s.bindNames xs values).current.release = s.current.release := by
  induction xs generalizing s values with
  | nil => rfl
  | cons x xs ih =>
    cases values with
    | nil => rfl
    | cons value values => exact ih _ _

@[simp] theorem resolve_push (s : Scopes) (a : Atom) : s.push.resolve a = s.resolve a := by
  cases a <;> rfl

/-- A name that is not among the new cells means what it meant. -/
theorem get_own {s : Scopes} {x : Symbol} {owned : List (Symbol × Int)} (h : x ∉ owned.map (·.1)) :
    (s.own owned).get x = s.get x := by
  induction owned generalizing s with
  | nil => rfl
  | cons entry rest ih =>
    obtain ⟨y, o⟩ := entry
    obtain ⟨hxy, hrest⟩ : x ≠ y ∧ x ∉ rest.map (·.1) := by simpa using h
    rw [own, ih hrest]
    have hne : (x == y) = false := by simpa using hxy
    simp [get, releaseOnExit, bindName, lookupIn, List.lookup_cons, hne]

/-- A name among the new cells means one of them. -/
theorem get_own_mem {s : Scopes} {x : Symbol} {owned : List (Symbol × Int)}
    (h : x ∈ owned.map (·.1)) : ∃ o ∈ owned.map (·.2), (s.own owned).get x = .ok (.address o) := by
  induction owned generalizing s with
  | nil => cases h
  | cons entry rest ih =>
    obtain ⟨y, o⟩ := entry
    by_cases hrest : x ∈ rest.map (·.1)
    · obtain ⟨o', ho', hget⟩ := ih (s := (s.bindName y (.address o)).releaseOnExit o) hrest
      exact ⟨o', List.mem_cons_of_mem _ ho', hget⟩
    · obtain rfl : x = y := by simpa [hrest] using h
      refine ⟨o, List.mem_cons_self, ?_⟩
      rw [own, get_own hrest]
      simp [get, releaseOnExit, bindName, lookupIn]

end Scopes

namespace Evaluator

/-! ## Sequences -/

theorem run_cons_ok {n : Node} {rest : List Node} {s t : Evaluator} :
    run (n :: rest) s = .ok () t ↔ ∃ v u, evaluate n s = .ok v u ∧ run rest u = .ok () t :=
  bind_eq_ok

theorem run_cons_of_ok {n : Node} {s t : Evaluator} {v : Value} (h : evaluate n s = .ok v t)
    (rest : List Node) : run (n :: rest) s = run rest t :=
  bind_of_ok h

theorem run_cons_of_error {n : Node} {s t : Evaluator} {c : CompileError}
    (h : evaluate n s = .error c t) (rest : List Node) : run (n :: rest) s = .error c t :=
  bind_of_error h

theorem run_append_of_ok {a : List Node} {s t : Evaluator} (h : run a s = .ok () t)
    (b : List Node) : run (a ++ b) s = run b t := by
  rw [run_append, bind_of_ok h]

theorem run_append_of_error {a : List Node} {s t : Evaluator} {c : CompileError}
    (h : run a s = .error c t) (b : List Node) : run (a ++ b) s = .error c t := by
  rw [run_append, bind_of_error h]

theorem run_append_ok {a b : List Node} {s t : Evaluator} :
    run (a ++ b) s = .ok () t ↔ ∃ u, run a s = .ok () u ∧ run b u = .ok () t := by
  rw [run_append, bind_eq_ok]
  exact ⟨fun ⟨_, u, hu, ht⟩ => ⟨u, hu, ht⟩, fun ⟨u, hu, ht⟩ => ⟨(), u, hu, ht⟩⟩

theorem run_single_ok {n : Node} {s t : Evaluator} :
    run [n] s = .ok () t ↔ ∃ v, evaluate n s = .ok v t := by
  rw [run_cons_ok]
  refine exists_congr fun v => ⟨fun ⟨u, hu, ht⟩ => ?_, fun h => ⟨t, h, rfl⟩⟩
  cases ht
  exact hu

/-! ## Statements -/

theorem evaluate_compound {tag : Tag} {children : List Node} {s u : Evaluator} {values : List Value}
    (h : evaluateAll children s = .ok values u) :
    evaluate (.compound tag children) s = dispatch tag values u := by
  rw [evaluate]
  exact bind_of_ok h

theorem evaluate_envBegin (s : Evaluator) :
    evaluate Statement.envBegin s = .ok .unit ⟨s.frame, s.scopes.push⟩ := by
  rw [Statement.envBegin, evaluate_compound rfl]
  rfl

theorem evaluate_envEnd_of_ok {f f' : Frame} {scope : Scope}
    (h : Frame.freeAll scope.release f = .ok () f') (parent : Scope) (outer : List Scope) :
    evaluate Statement.envEnd ⟨f, ⟨scope, parent :: outer⟩⟩ = .ok .unit ⟨f', ⟨parent, outer⟩⟩ := by
  have hclose : closeScope ⟨f, ⟨scope, parent :: outer⟩⟩ = .ok () ⟨f', ⟨parent, outer⟩⟩ := by
    show onFrame (Frame.freeAll scope.release) ⟨f, ⟨parent, outer⟩⟩ = _
    simp only [onFrame, h]
  rw [Statement.envEnd, evaluate_compound rfl]
  exact bind_of_ok hclose

theorem evaluate_envEnd {f : Frame} {scope parent : Scope} {outer : List Scope} {v : Value}
    {t : Evaluator} (h : evaluate Statement.envEnd ⟨f, ⟨scope, parent :: outer⟩⟩ = .ok v t) :
    ∃ f', Frame.freeAll scope.release f = .ok () f' ∧ t = ⟨f', ⟨parent, outer⟩⟩ := by
  rw [Statement.envEnd, evaluate_compound rfl] at h
  obtain ⟨a, u, hclose, hpure⟩ := bind_eq_ok.1 h
  cases hpure
  have hfree : onFrame (Frame.freeAll scope.release) ⟨f, ⟨parent, outer⟩⟩ = .ok a t := hclose
  simp only [onFrame] at hfree
  split at hfree
  · next f' hf' => cases hfree; exact ⟨_, hf', rfl⟩
  · cases hfree

theorem evaluateAll_literals (atoms : List Atom) (s : Evaluator) :
    evaluateAll (atoms.map .literal) s = .ok (atoms.map .atom) s := by
  induction atoms with
  | nil => rfl
  | cons a rest ih =>
    rw [List.map_cons, evaluateAll]
    show (evaluateAll (rest.map .literal) >>= fun values => pure (Value.atom a :: values)) s = _
    rw [bind_of_ok ih]
    rfl

theorem resolveAll_atoms (atoms : List Atom) (s : Evaluator) :
    resolveAll (atoms.map .atom) s =
      match s.scopes.resolveEach atoms with
      | .ok values => .ok values s
      | .error c => .error c s := by
  induction atoms with
  | nil => rfl
  | cons a rest ih =>
    rw [List.map_cons, resolveAll, Scopes.resolveEach]
    show (askScopes (·.resolve a) >>= fun r => resolveAll (rest.map .atom) >>= fun rs => pure
      (r :: rs)) s = _
    cases ha : s.scopes.resolve a with
    | error c =>
      have hask : askScopes (·.resolve a) s = .error c s := by simp only [askScopes, ha]
      rw [bind_of_error hask]
      rfl
    | ok r =>
      have hask : askScopes (·.resolve a) s = .ok r s := by simp only [askScopes, ha]
      rw [bind_of_ok hask]
      cases hr : s.scopes.resolveEach rest with
      | error c =>
        rw [hr] at ih
        rw [bind_of_error ih]
        rfl
      | ok rs =>
        rw [hr] at ih
        rw [bind_of_ok ih]
        rfl

theorem ofName?_name (b : Builtin) : Builtin.ofName? b.name = some b := by
  cases b <;> decide

theorem evaluate_name (b : Builtin) (s : Evaluator) :
    evaluate (Statement.name b.name) s = .ok (.builtin b) s := by
  have hb : builtinNamed (.visible b.name) = .ok b := by
    simp only [builtinNamed, Symbol.visible, ofName?_name]
  have hargs : evaluateAll [.literal b.name] s = .ok [.atom b.name] s :=
    evaluateAll_literals [b.name] s
  rw [Statement.name, evaluate_compound hargs]
  show ((MonadExcept.ofExcept (builtinNamed (.visible b.name)) : Action Builtin) >>= fun b =>
    pure (Value.builtin b)) s = _
  rw [hb]
  rfl

/-- A call of a built-in looks its operands up and leaves the rest to the frame. -/
theorem evaluate_invoke (b : Builtin) (atoms : List Atom) (s : Evaluator) :
    evaluate (Statement.invoke b atoms) s =
      match s.scopes.resolveEach atoms with
      | .ok values => (onFrame (Frame.invoke b values) >>= fun _ => pure Value.unit) s
      | .error c => .error c s := by
  have hargs : evaluate (Statement.arguments atoms) s =
      match s.scopes.resolveEach atoms with
      | .ok values => .ok (.arguments values) s
      | .error c => .error c s := by
    rw [Statement.arguments, evaluate_compound (evaluateAll_literals atoms s)]
    show (resolveAll (atoms.map .atom) >>= fun values => pure (Value.arguments values)) s = _
    have := resolveAll_atoms atoms s
    cases hr : s.scopes.resolveEach atoms with
    | ok values => rw [hr] at this; rw [bind_of_ok this]; rfl
    | error c => rw [hr] at this; rw [bind_of_error this]
  rw [Statement.invoke, evaluate, evaluateAll, evaluateAll, evaluateAll]
  simp only [bind_assoc, pure_bind]
  rw [bind_of_ok (evaluate_name b s)]
  cases hr : s.scopes.resolveEach atoms with
  | ok values => rw [hr] at hargs; rw [bind_of_ok hargs]; rfl
  | error c => rw [hr] at hargs; rw [bind_of_error hargs]

theorem evaluate_invoke_of_unbound {b : Builtin} {atoms : List Atom} {s : Evaluator}
    {c : CompileError} (h : s.scopes.resolveEach atoms = .error c) :
    evaluate (Statement.invoke b atoms) s = .error c s := by
  rw [evaluate_invoke, h]

theorem evaluate_invoke_of_ok {b : Builtin} {atoms values : List Atom} {s : Evaluator} {f : Frame}
    (h : s.scopes.resolveEach atoms = .ok values) (hb : Frame.invoke b values s.frame = .ok () f) :
    evaluate (Statement.invoke b atoms) s = .ok .unit ⟨f, s.scopes⟩ := by
  have hframe : onFrame (Frame.invoke b values) s = .ok () ⟨f, s.scopes⟩ := by
    simp only [onFrame, hb]
  rw [evaluate_invoke, h]
  exact bind_of_ok hframe

theorem evaluate_invoke_of_error {b : Builtin} {atoms values : List Atom} {s : Evaluator}
    {f : Frame} {c : CompileError} (h : s.scopes.resolveEach atoms = .ok values)
    (hb : Frame.invoke b values s.frame = .error c f) :
    evaluate (Statement.invoke b atoms) s = .error c ⟨f, s.scopes⟩ := by
  have hframe : onFrame (Frame.invoke b values) s = .error c ⟨f, s.scopes⟩ := by
    simp only [onFrame, hb]
  rw [evaluate_invoke, h]
  exact bind_of_error hframe

theorem evaluate_invoke_ok {b : Builtin} {atoms : List Atom} {s t : Evaluator} {v : Value}
    (h : evaluate (Statement.invoke b atoms) s = .ok v t) :
    ∃ values f, s.scopes.resolveEach atoms = .ok values ∧
      Frame.invoke b values s.frame = .ok () f ∧ t = ⟨f, s.scopes⟩ := by
  cases hr : s.scopes.resolveEach atoms with
  | error c =>
    rw [evaluate_invoke_of_unbound hr] at h
    cases h
  | ok values =>
    cases hb : Frame.invoke b values s.frame with
    | error c f =>
      rw [evaluate_invoke_of_error hr hb] at h
      cases h
    | ok u f =>
      rw [evaluate_invoke_of_ok hr hb] at h
      cases h
      exact ⟨values, f, rfl, hb, rfl⟩

theorem asAddress_ok {a : Atom} {o : Int} {f f' : Frame}
    (h : (MonadExcept.ofExcept a.asAddress : Frame.Action Int) f = .ok o f') :
    a = .address o ∧ f' = f := by
  cases a with
  | address _ => cases h; exact ⟨rfl, rfl⟩
  | name _ | int _ | text _ => cases h

/-- A call of a built-in on one cell. -/
theorem evaluate_onCell {b : Builtin} (op : Int → Frame.Action Unit)
    (hop : ∀ a, Frame.invoke b [a] = Frame.onCell op a) {c : Atom} {s t : Evaluator} {v : Value}
    (h : evaluate (Statement.invoke b [c]) s = .ok v t) :
    ∃ o f, s.scopes.resolve c = .ok (.address o) ∧ op o s.frame = .ok () f ∧ t = ⟨f, s.scopes⟩ := by
  obtain ⟨values, f, hvalues, hf, rfl⟩ := evaluate_invoke_ok h
  obtain ⟨a, ha, hvalues⟩ := except_bind_eq_ok.1 hvalues
  cases hvalues
  rw [hop] at hf
  obtain ⟨o, u, ho, hf⟩ := bind_eq_ok.1 hf
  obtain ⟨rfl, rfl⟩ := asAddress_ok ho
  exact ⟨o, f, ha, hf, rfl⟩

/-- A call of a built-in on two cells. -/
theorem evaluate_onCells {b : Builtin} (op : Int → Int → Frame.Action Unit)
    (hop : ∀ a a', Frame.invoke b [a, a'] = Frame.onCells op a a') {c c' : Atom} {s t : Evaluator}
    {v : Value} (h : evaluate (Statement.invoke b [c, c']) s = .ok v t) :
    ∃ o o' f, s.scopes.resolve c = .ok (.address o) ∧ s.scopes.resolve c' = .ok (.address o') ∧
      op o o' s.frame = .ok () f ∧ t = ⟨f, s.scopes⟩ := by
  obtain ⟨values, f, hvalues, hf, rfl⟩ := evaluate_invoke_ok h
  obtain ⟨a, ha, hvalues⟩ := except_bind_eq_ok.1 hvalues
  obtain ⟨values', hvalues', hvalues⟩ := except_bind_eq_ok.1 hvalues
  cases hvalues
  obtain ⟨a', ha', hvalues'⟩ := except_bind_eq_ok.1 hvalues'
  cases hvalues'
  rw [hop] at hf
  obtain ⟨o, u, ho, hf⟩ := bind_eq_ok.1 hf
  obtain ⟨rfl, rfl⟩ := asAddress_ok ho
  obtain ⟨o', u, ho', hf⟩ := bind_eq_ok.1 hf
  obtain ⟨rfl, rfl⟩ := asAddress_ok ho'
  exact ⟨o, o', f, ha, ha', hf, rfl⟩

theorem dispatch_allocateLocal :
    dispatch .allocateLocal [] = (onFrame Frame.allocate >>= fun o => pure (.atom (.address o))) :=
  rfl

theorem dispatch_envDeclare (x : Symbol) :
    dispatch .envDeclare [.atom (.name x)] = (onScopes (·.declare x) >>= fun _ => pure .unit) := rfl

theorem dispatch_envSet (x : Symbol) (value : Atom) :
    dispatch .envSet [.atom (.name x), .atom value] =
      (onScopes (·.set x value) >>= fun _ => pure .unit) := rfl

theorem dispatch_envGet (a : Atom) :
    dispatch .envGet [.atom a] = (askScopes (·.resolve a) >>= fun value => pure (.atom value)) :=
  rfl

theorem dispatch_outerEnvGet (a : Atom) :
    dispatch .outerEnvGet [.atom a] =
      (askScopes (·.outerResolve a) >>= fun value => pure (.atom value)) := rfl

theorem evaluate_declare (x : Symbol) :
    evaluate (.compound .envDeclare [.literal (.name x)]) =
      (onScopes (·.declare x) >>= fun _ => pure Value.unit) := by
  simp only [evaluate, evaluateAll, pure_bind, dispatch_envDeclare]

theorem evaluate_setFresh (x : Symbol) :
    evaluate (.compound .envSet [.literal (.name x), .compound .allocateLocal []]) =
      (onFrame Frame.allocate >>= fun o => onScopes (·.set x (.address o)) >>= fun _ =>
        pure Value.unit) := by
  simp only [evaluate, evaluateAll, bind_assoc, pure_bind, dispatch_allocateLocal, dispatch_envSet]

theorem evaluate_setOuter (x : Symbol) (a : Atom) :
    evaluate (.compound .envSet [.literal (.name x), .compound .outerEnvGet [.literal a]]) =
      (askScopes (·.outerResolve a) >>= fun value => onScopes (·.set x value) >>= fun _ =>
        pure Value.unit) := by
  simp only [evaluate, evaluateAll, bind_assoc, pure_bind, dispatch_outerEnvGet, dispatch_envSet]

theorem evaluate_releaseOnExit {x : Symbol} {o : Int} {s : Evaluator}
    (h : s.scopes.get x = .ok (.address o)) :
    evaluate (.compound .freeLocalOnEnvExit [.compound .envGet [.literal (.name x)]]) s =
      .ok .unit ⟨s.frame, s.scopes.releaseOnExit o⟩ := by
  have hask : askScopes (·.resolve (.name x)) s = .ok (.address o) s := by
    have hres : s.scopes.resolve (.name x) = .ok (.address o) := h
    simp only [askScopes, hres]
  simp only [evaluate, evaluateAll, bind_assoc, pure_bind, dispatch_envGet]
  rw [bind_of_ok hask]
  rfl

/-! ## Names -/

theorem evaluate_declare_of_new {x : Symbol} {s : Evaluator}
    (h : s.scopes.current.bound.lookup x = none) :
    evaluate (.compound .envDeclare [.literal (.name x)]) s =
      .ok .unit ⟨s.frame, s.scopes.declared x⟩ := by
  have hdeclare : onScopes (·.declare x) s = .ok () ⟨s.frame, s.scopes.declared x⟩ := by
    simp only [onScopes, Scopes.declare, h]
    rfl
  rw [evaluate_declare, bind_of_ok hdeclare]
  rfl

theorem evaluate_declare_of_known {x : Symbol} {s : Evaluator} {known : Option Atom}
    (h : s.scopes.current.bound.lookup x = some known) :
    evaluate (.compound .envDeclare [.literal (.name x)]) s =
      .error (.duplicateDeclaration x) s := by
  have hdeclare : onScopes (·.declare x) s = .error (.duplicateDeclaration x) s := by
    simp only [onScopes, Scopes.declare, h]
  rw [evaluate_declare, bind_of_error hdeclare]

theorem set_declared {scopes : Scopes} {x : Symbol} (value : Atom)
    (h : scopes.current.bound.lookup x = none) :
    (scopes.declared x).set x value = .ok (scopes.bindName x value) := by
  have hne : ∀ entry ∈ scopes.current.bound, entry.1 ≠ x := by
    intro entry hentry heq
    have := List.lookup_eq_none_iff.1 h entry hentry
    simp [heq] at this
  have hmap : scopes.current.bound.map (fun entry =>
      if entry.1 = x then (x, some value) else entry) = scopes.current.bound := by
    refine (List.map_congr_left fun entry hentry => ?_).trans (List.map_id _)
    rw [if_neg (hne entry hentry)]
    rfl
  simp only [Scopes.set, Scopes.declared, List.lookup_cons, BEq.rfl, List.map_cons, if_true, hmap]
  rfl

theorem evaluate_setFresh_of_ok {x : Symbol} {f f' : Frame} {scopes : Scopes} {o : Int}
    (h : scopes.current.bound.lookup x = none) (ho : Frame.allocate f = .ok o f') :
    evaluate (.compound .envSet [.literal (.name x), .compound .allocateLocal []])
      ⟨f, scopes.declared x⟩ = .ok .unit ⟨f', scopes.bindName x (.address o)⟩ := by
  have hallocate : onFrame Frame.allocate ⟨f, scopes.declared x⟩ =
      .ok o ⟨f', scopes.declared x⟩ := by
    simp only [onFrame, ho]
  have hset : onScopes (·.set x (.address o)) ⟨f', scopes.declared x⟩ =
      .ok () ⟨f', scopes.bindName x (.address o)⟩ := by
    simp only [onScopes, set_declared (.address o) h]
  rw [evaluate_setFresh, bind_of_ok hallocate, bind_of_ok hset]
  rfl

/-- What a name means outside of the current scope does not depend on the current scope. -/
@[simp] theorem outerResolve_declared (scopes : Scopes) (x : Symbol) (a : Atom) :
    (scopes.declared x).outerResolve a = scopes.outerResolve a := by
  cases a <;> rfl

theorem evaluate_setOuter_of_ok {x : Symbol} {a value : Atom} {f : Frame} {scopes : Scopes}
    (h : scopes.current.bound.lookup x = none) (ha : scopes.outerResolve a = .ok value) :
    evaluate (.compound .envSet [.literal (.name x), .compound .outerEnvGet [.literal a]])
      ⟨f, scopes.declared x⟩ = .ok .unit ⟨f, scopes.bindName x value⟩ := by
  have hask : askScopes (·.outerResolve a) ⟨f, scopes.declared x⟩ =
      .ok value ⟨f, scopes.declared x⟩ := by
    simp only [askScopes, outerResolve_declared, ha]
  have hset : onScopes (·.set x value) ⟨f, scopes.declared x⟩ =
      .ok () ⟨f, scopes.bindName x value⟩ := by
    simp only [onScopes, set_declared value h]
  rw [evaluate_setOuter, bind_of_ok hask, bind_of_ok hset]
  rfl

theorem evaluate_setOuter_of_error {x : Symbol} {a : Atom} {f : Frame} {scopes : Scopes}
    {c : CompileError} (ha : scopes.outerResolve a = .error c) :
    evaluate (.compound .envSet [.literal (.name x), .compound .outerEnvGet [.literal a]])
      ⟨f, scopes.declared x⟩ = .error c ⟨f, scopes.declared x⟩ := by
  have hask : askScopes (·.outerResolve a) ⟨f, scopes.declared x⟩ =
      .error c ⟨f, scopes.declared x⟩ := by
    simp only [askScopes, outerResolve_declared, ha]
  rw [evaluate_setOuter, bind_of_error hask]

/-! ## Local cells -/

theorem run_localStatements_of_ok {x : Symbol} {s : Evaluator} {o : Int} {f : Frame}
    (h : s.scopes.current.bound.lookup x = none) (ho : Frame.allocate s.frame = .ok o f) :
    run (localStatements (.literal (.name x))) s = .ok () ⟨f, s.scopes.own [(x, o)]⟩ := by
  have hget : (s.scopes.bindName x (.address o)).get x = .ok (.address o) := by
    simp [Scopes.get, Scopes.bindName, lookupIn]
  rw [localStatements, run_cons_of_ok (evaluate_declare_of_new h),
    run_cons_of_ok (evaluate_setFresh_of_ok h ho), run_cons_of_ok (evaluate_releaseOnExit hget)]
  rfl

theorem run_localStatements_of_known {x : Symbol} {s : Evaluator} {known : Option Atom}
    (h : s.scopes.current.bound.lookup x = some known) :
    run (localStatements (.literal (.name x))) s = .error (.duplicateDeclaration x) s :=
  run_cons_of_error (evaluate_declare_of_known h) _

theorem run_localStatements_of_full {x : Symbol} {s : Evaluator} {c : CompileError} {f : Frame}
    (h : s.scopes.current.bound.lookup x = none) (hc : Frame.allocate s.frame = .error c f) :
    run (localStatements (.literal (.name x))) s = .error c ⟨f, s.scopes.declared x⟩ := by
  have hset : evaluate (.compound .envSet [.literal (.name x), .compound .allocateLocal []])
      ⟨s.frame, s.scopes.declared x⟩ = .error c ⟨f, s.scopes.declared x⟩ := by
    have hallocate : onFrame Frame.allocate ⟨s.frame, s.scopes.declared x⟩ =
        .error c ⟨f, s.scopes.declared x⟩ := by
      simp only [onFrame, hc]
    rw [evaluate_setFresh, bind_of_error hallocate]
  rw [localStatements, run_cons_of_ok (evaluate_declare_of_new h), run_cons_of_error hset]

/-- A local cell: the least free cell is bound to a name that the scope does not have yet. -/
theorem run_localStatements {x : Symbol} {s t : Evaluator}
    (h : run (localStatements (.literal (.name x))) s = .ok () t) :
    ∃ o f, Frame.allocate s.frame = .ok o f ∧ t = ⟨f, s.scopes.own [(x, o)]⟩ := by
  cases hlookup : s.scopes.current.bound.lookup x with
  | some known =>
    rw [run_localStatements_of_known hlookup] at h
    cases h
  | none =>
    cases hallocate : Frame.allocate s.frame with
    | error c f =>
      rw [run_localStatements_of_full hlookup hallocate] at h
      cases h
    | ok o f =>
      rw [run_localStatements_of_ok hlookup hallocate] at h
      cases h
      exact ⟨o, f, rfl, rfl⟩

/-! ## Parameters -/

theorem run_bindParameter_of_known {x : Symbol} {a : Atom} {s : Evaluator} {known : Option Atom}
    (h : s.scopes.current.bound.lookup x = some known) (rest : List Node) :
    run (Inlining.bindParameter x (.literal a) ++ rest) s = .error (.duplicateDeclaration x) s :=
  run_cons_of_error (evaluate_declare_of_known h) _

theorem run_bindParameter_of_error {x : Symbol} {a : Atom} {s : Evaluator} {c : CompileError}
    (h : s.scopes.current.bound.lookup x = none) (ha : s.scopes.outerResolve a = .error c)
    (rest : List Node) :
    run (Inlining.bindParameter x (.literal a) ++ rest) s =
      .error c ⟨s.frame, s.scopes.declared x⟩ := by
  rw [Inlining.bindParameter, List.cons_append, List.cons_append,
    run_cons_of_ok (evaluate_declare_of_new h), run_cons_of_error (evaluate_setOuter_of_error ha)]

theorem run_bindParameter_of_ok {x : Symbol} {a value : Atom} {s : Evaluator}
    (h : s.scopes.current.bound.lookup x = none) (ha : s.scopes.outerResolve a = .ok value)
    (rest : List Node) :
    run (Inlining.bindParameter x (.literal a) ++ rest) s =
      run rest ⟨s.frame, s.scopes.bindName x value⟩ := by
  rw [Inlining.bindParameter, List.cons_append, List.cons_append,
    run_cons_of_ok (evaluate_declare_of_new h), run_cons_of_ok (evaluate_setOuter_of_ok h ha)]
  rfl

/-- A parameter: its name is new, and its argument means something to the caller. -/
theorem run_bindParameter {x : Symbol} {a : Atom} {s t : Evaluator} {rest : List Node}
    (h : run (Inlining.bindParameter x (.literal a) ++ rest) s = .ok () t) :
    s.scopes.current.bound.lookup x = none ∧ ∃ value, s.scopes.outerResolve a = .ok value ∧
      run rest ⟨s.frame, s.scopes.bindName x value⟩ = .ok () t := by
  cases hlookup : s.scopes.current.bound.lookup x with
  | some known =>
    rw [run_bindParameter_of_known hlookup] at h
    cases h
  | none =>
    refine ⟨rfl, ?_⟩
    cases hvalue : s.scopes.outerResolve a with
    | error c =>
      rw [run_bindParameter_of_error hlookup hvalue] at h
      cases h
    | ok value =>
      rw [run_bindParameter_of_ok hlookup hvalue] at h
      exact ⟨value, rfl, h⟩

/-- Parameters are bound to what their arguments mean to the caller. -/
theorem run_bindParameters {params : List String} {args : List Atom} {f : Frame} {current : Scope}
    {caller : Scopes} {t : Evaluator} (hlen : params.length = args.length)
    (h : run (bindParameters params args) ⟨f, ⟨current, caller.current :: caller.outer⟩⟩ =
      .ok () t) :
    ∃ values, caller.resolveEach args = .ok values ∧
      t = ⟨f, Scopes.bindNames ⟨current, caller.current :: caller.outer⟩ (params.map .visible)
        values⟩ := by
  induction params generalizing args current with
  | nil =>
    cases args with
    | cons a args => cases hlen
    | nil => cases h; exact ⟨[], rfl, rfl⟩
  | cons x params ih =>
    cases args with
    | nil => cases hlen
    | cons a args =>
      obtain ⟨-, value, hvalue, hrest⟩ := run_bindParameter h
      have hcaller : caller.resolve a = .ok value := by rw [← hvalue]; cases a <;> rfl
      obtain ⟨values, hvalues, rfl⟩ := ih (Nat.succ.inj hlen) hrest
      refine ⟨value :: values, ?_, rfl⟩
      rw [Scopes.resolveEach, hcaller]
      show (caller.resolveEach args >>= fun rest => .ok (value :: rest)) = _
      rw [hvalues]
      rfl

/-- Parameters of different names are bound if all arguments mean something to the caller. -/
theorem run_bindParameters_of_ok {params : List String} {args values : List Atom} {f : Frame}
    {current : Scope} {caller : Scopes} (hlen : params.length = args.length) (hnodup : params.Nodup)
    (hnew : ∀ x ∈ params, current.bound.lookup (.visible x) = none)
    (hvalues : caller.resolveEach args = .ok values) :
    run (bindParameters params args) ⟨f, ⟨current, caller.current :: caller.outer⟩⟩ =
      .ok () ⟨f, Scopes.bindNames ⟨current, caller.current :: caller.outer⟩ (params.map .visible)
        values⟩ := by
  induction params generalizing args values current with
  | nil =>
    cases args with
    | cons a args => cases hlen
    | nil => cases hvalues; rfl
  | cons x params ih =>
    cases args with
    | nil => cases hlen
    | cons a args =>
      obtain ⟨value, hvalue, hrest⟩ := except_bind_eq_ok.1 hvalues
      obtain ⟨others, hothers, hrest⟩ := except_bind_eq_ok.1 hrest
      cases hrest
      obtain ⟨hx, hnodup⟩ := List.nodup_cons.1 hnodup
      have houter : Scopes.outerResolve ⟨current, caller.current :: caller.outer⟩ a =
          .ok value := by
        rw [← hvalue]
        cases a <;> rfl
      refine (run_bindParameter_of_ok (hnew x List.mem_cons_self) houter _).trans ?_
      refine ih (Nat.succ.inj hlen) hnodup (fun y hy => ?_) hothers
      have hne : (Symbol.visible y == Symbol.visible x) = false := by
        have : y ≠ x := fun heq => hx (heq ▸ hy)
        simp [Symbol.visible, this]
      simp only [List.lookup_cons, hne]
      exact hnew y (List.mem_cons_of_mem _ hy)

end Evaluator

end TapeToolchain
