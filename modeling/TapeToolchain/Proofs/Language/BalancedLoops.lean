import TapeToolchain.Proofs.Compilation.OnTape
import TapeToolchain.Proofs.Expansion.Failures
import TapeToolchain.Proofs.Frame.OpenLoops
import TapeToolchain.Proofs.Language.Ownership

/-!
Loops of structured programs. A conditional opens and closes its loop on a hidden cell, which
nothing in its body can redeclare. A loop looks its condition up twice, once before the body and
once after it in the same scope as the body's own cells; if the body declares a cell of the
condition's name, the loop is closed on that cell instead. This capture is the only way in which a
structured program gets its loops wrong, and it always ends the compilation, since the new cell is
another one.
-/

namespace TapeToolchain

open Desugaring (localStatements whileStatements conditionCopy)

/-- In the block, or in a macro that is called from it, there is a loop whose body declares a cell
of the name that the loop runs on. -/
inductive Captures (p : MacroProgram) : Block → Prop where
  | condition {x : String} {body rest : Block} :
      x ∈ body.locals → Captures p (.whileNonzero (.name (.visible x)) body rest)
  | ofWhile {c : Atom} {body rest : Block} : Captures p body →
      Captures p (.whileNonzero c body rest)
  | ofIf {c : Atom} {body rest : Block} : Captures p body → Captures p (.ifNonzero c body rest)
  | ofCall {f : String} {args : List Atom} {m : Macro} {rest : Block} :
      p.find? f = some m → Captures p m.body → Captures p (.call f args rest)
  | afterLocal {x : String} {rest : Block} : Captures p rest → Captures p (.localCell x rest)
  | afterIf {c : Atom} {body rest : Block} : Captures p rest → Captures p (.ifNonzero c body rest)
  | afterWhile {c : Atom} {body rest : Block} : Captures p rest →
      Captures p (.whileNonzero c body rest)
  | afterCall {f : String} {args : List Atom} {rest : Block} :
      Captures p rest → Captures p (.call f args rest)
  | afterBuiltin {b : Builtin} {args : List Atom} {rest : Block} :
      Captures p rest → Captures p (.builtin b args rest)

namespace Evaluator

open Emitter (SameLoops Blames loops_discipline)

/-! ## Statements -/

theorem resolveEach_not_fault {s : Scopes} {atoms : List Atom} {c : CompileError}
    (h : s.resolveEach atoms = .error c) : ¬ c.IsLoopFault := by
  induction atoms with
  | nil => cases h
  | cons a rest ih =>
    rcases except_bind_eq_error.1 h with ha | ⟨value, -, h⟩
    · exact Scopes.resolve_error ha
    · rcases except_bind_eq_error.1 h with hrest | ⟨values, -, h⟩
      · exact ih hrest
      · cases h

theorem evaluate_onCell_fault {b : Builtin} (op : Int → Frame.Action Unit)
    (hop : ∀ a, Frame.invoke b [a] = Frame.onCell op a) {a : Atom} {s t : Evaluator}
    {c : CompileError} (h : evaluate (Statement.invoke b [a]) s = .error c t)
    (hfault : c.IsLoopFault) :
    ∃ o f, s.scopes.resolve a = .ok (.address o) ∧ op o s.frame = .error c f := by
  rw [evaluate_invoke] at h
  cases hr : s.scopes.resolveEach [a] with
  | error c' => rw [hr] at h; cases h; exact absurd hfault (resolveEach_not_fault hr)
  | ok values =>
    rw [hr] at h
    obtain ⟨value, hvalue, hvalues⟩ := except_bind_eq_ok.1 hr
    cases hvalues
    rcases bind_eq_error.1 h with hframe | ⟨_, u, -, hpure⟩
    · simp only [onFrame, hop] at hframe
      split at hframe
      · cases hframe
      · next f hf =>
        cases hframe
        rcases bind_eq_error.1 hf with haddress | ⟨o, u, haddress, hf⟩
        · -- an operand that is no cell is a failure of another kind
          cases value <;> cases haddress <;> cases hfault
        · cases value with
          | address _ => cases haddress; exact ⟨_, f, hvalue, hf⟩
          | name _ | int _ | text _ => cases haddress
    · cases hpure

/-- A loop around statements that keep the open loops. It is closed on the cell that it was opened
on, or else `P` is to blame. -/
theorem loops_around {c : Atom} {middle : List Node} {P : Prop}
    (hmiddle : Obeys SameLoops (Blames P) (run middle))
    (hsame : ∀ s t o o', run middle s = .ok () t → s.scopes.resolve c = .ok (.address o) →
      t.scopes.resolve c = .ok (.address o') → o ≠ o' → P) :
    Obeys SameLoops (Blames P)
      (run ([Statement.invoke .beginLoop [c]] ++ middle ++ [Statement.invoke .endLoop [c]])) := by
  have hbegin : ∀ s s' v, evaluate (Statement.invoke .beginLoop [c]) s = .ok v s' →
      ∃ o f, s.scopes.resolve c = .ok (.address o) ∧ f.emitter.loops = o :: s.frame.emitter.loops ∧
        s' = ⟨f, s.scopes⟩ := by
    intro s s' v h
    obtain ⟨o, f, ho, hf, rfl⟩ := evaluate_onCell Frame.beginLoop (fun _ => rfl) h
    exact ⟨o, f, ho, Emitter.loops_beginLoop hf, rfl⟩
  refine ⟨fun s a t h => ?_, fun s cause t h => ?_⟩
  · obtain ⟨s₂, h, hend⟩ := run_append_ok.1 h
    obtain ⟨s₁, hopen, hrun⟩ := run_append_ok.1 h
    obtain ⟨v, hopen⟩ := run_single_ok.1 hopen
    obtain ⟨o, f, -, hloops, rfl⟩ := hbegin _ _ _ hopen
    have hkeep : s₂.frame.emitter.loops = f.emitter.loops := hmiddle.1 _ _ _ hrun
    obtain ⟨w, hend⟩ := run_single_ok.1 hend
    obtain ⟨o', f', -, hf', rfl⟩ := evaluate_onCell Frame.endLoop (fun _ => rfl) hend
    have hclosed := Emitter.loops_endLoop hf'
    rw [hkeep, hloops] at hclosed
    exact ((List.cons.inj hclosed).2).symm
  · intro hfault
    rw [List.append_assoc, run_append] at h
    rcases bind_eq_error.1 h with hopen | ⟨_, s₁, hopen, h⟩
    · rcases bind_eq_error.1 hopen with hopen | ⟨_, _, -, hnil⟩
      · obtain ⟨o, f, -, hf⟩ := evaluate_onCell_fault Frame.beginLoop (fun _ => rfl) hopen hfault
        exact absurd hfault (Emitter.beginLoop_not_fault hf)
      · cases hnil
    obtain ⟨v, hopen⟩ := run_single_ok.1 hopen
    obtain ⟨o, f, ho, hloops, rfl⟩ := hbegin _ _ _ hopen
    rw [run_append] at h
    rcases bind_eq_error.1 h with hrun | ⟨_, s₂, hrun, h⟩
    · exact hmiddle.2 _ _ _ hrun hfault
    rcases bind_eq_error.1 h with hend | ⟨_, _, -, hnil⟩
    · obtain ⟨o', f', ho', hf'⟩ := evaluate_onCell_fault Frame.endLoop (fun _ => rfl) hend hfault
      have hkeep : s₂.frame.emitter.loops = f.emitter.loops := hmiddle.1 _ _ _ hrun
      obtain ⟨hne, rfl⟩ := Emitter.endLoop_fault (hkeep.trans hloops) hf' hfault
      exact ⟨⟨o, o', rfl⟩, hsame _ _ _ _ hrun ho ho' hne⟩
    · cases hnil

end Evaluator

namespace Discipline

open Evaluator (Obeys evaluate evaluate_invoke run)

variable {R : Emitter → Emitter → Prop} {E : CompileError → Prop} (h : Discipline R E)
include h

theorem localStatements (a : Atom) : Obeys R E (run (localStatements (.literal a))) := by
  have hname := h.literal a
  refine h.run_cons ?_ (h.run_cons ?_ (h.run_cons ?_ (h.eval_pure ())))
  · exact h.compound (by decide) (h.evaluateAll_cons hname h.evaluateAll_nil)
  · have hfresh : Obeys R E (evaluate (.compound .allocateLocal [])) :=
      h.compound (by decide) h.evaluateAll_nil
    exact h.compound (by decide)
      (h.evaluateAll_cons hname (h.evaluateAll_cons hfresh h.evaluateAll_nil))
  · have hget : Obeys R E (evaluate (.compound .envGet [.literal a])) :=
      h.compound (by decide) (h.evaluateAll_cons hname h.evaluateAll_nil)
    exact h.compound (by decide) (h.evaluateAll_cons hget h.evaluateAll_nil)

theorem bindParameters (params : List String) (args : List Atom) :
    Obeys R E (run (bindParameters params args)) := by
  induction params generalizing args with
  | nil => exact h.eval_pure ()
  | cons x params ih =>
    cases args with
    | nil => exact h.eval_pure ()
    | cons a args =>
      have hname := h.literal (.name (.visible x))
      refine h.run_cons ?_ (h.run_cons ?_ (ih args))
      · exact h.compound (by decide) (h.evaluateAll_cons hname h.evaluateAll_nil)
      · have houter : Obeys R E (evaluate (.compound .outerEnvGet [.literal a])) :=
          h.compound (by decide) (h.evaluateAll_cons (h.literal a) h.evaluateAll_nil)
        exact h.compound (by decide)
          (h.evaluateAll_cons hname (h.evaluateAll_cons houter h.evaluateAll_nil))

/-- A call of a built-in obeys if the built-in does, whatever its operands mean. -/
theorem invokeStatement {b : Builtin} (hb : ∀ values, Frame.Obeys R E (Frame.invoke b values))
    (args : List Atom) : Obeys R E (evaluate (Statement.invoke b args)) := by
  have hinvoke : ∀ values, Obeys R E
      (Evaluator.onFrame (Frame.invoke b values) >>= fun _ => pure Value.unit) := fun values =>
    h.eval_bind (Discipline.onFrame (hb values)) fun _ => h.eval_pure _
  refine ⟨fun s v t hs => ?_, fun s c t hs => ?_⟩
  · rw [evaluate_invoke] at hs
    split at hs
    · exact (hinvoke _).1 _ _ _ hs
    · cases hs
  · rw [evaluate_invoke] at hs
    split at hs
    · exact (hinvoke _).2 _ _ _ hs
    · next hr => cases hs; exact h.cause _ (Evaluator.resolveEach_not_fault hr)

end Discipline

namespace Evaluator

open Emitter (SameLoops Blames loops_discipline)

/-- A built-in that is no end of a loop. -/
theorem loops_invoke (P : Prop) {b : Builtin} (hb : b ≠ .beginLoop ∧ b ≠ .endLoop)
    (args : List Atom) : Obeys SameLoops (Blames P) (evaluate (Statement.invoke b args)) := by
  have h := loops_discipline P
  exact h.invokeStatement (fun values => Frame.loops_invoke P hb values) args

/-! ## What names mean after a block -/

/-- Operands that are not among the new cells' names mean what they meant. -/
theorem Owns.resolve {s t : Evaluator} {owned : List (Symbol × Int)} (h : Owns s owned t) {a : Atom}
    (ha : ∀ x, a = .name x → x ∉ owned.map (·.1)) : t.scopes.resolve a = s.scopes.resolve a := by
  cases a with
  | name x =>
    show t.scopes.get x = s.scopes.get x
    rw [h.scopes, Scopes.get_own (ha x rfl)]
  | int _ | text _ | address _ => rfl

/-- A name among the new cells' names means one of them. -/
theorem Owns.get_mem {s t : Evaluator} {owned : List (Symbol × Int)} (h : Owns s owned t)
    {x : Symbol} (hx : x ∈ owned.map (·.1)) :
    ∃ o ∈ owned.map (·.2), t.scopes.get x = .ok (.address o) := by
  rw [h.scopes]
  exact Scopes.get_own_mem hx

end Evaluator

open Emitter (SameLoops Blames loops_discipline)
open Evaluator (Obeys run Owns run_append_ok run_single_ok)

/-- The block names no built-in that opens or closes a loop. -/
def MacroProgram.Structured (p : MacroProgram) (block : Block) : Prop :=
  ∀ b ∈ p.builtins block, b ≠ .beginLoop ∧ b ≠ .endLoop

instance (p : MacroProgram) (block : Block) : Decidable (p.Structured block) :=
  inferInstanceAs (Decidable (∀ b ∈ p.builtins block, _))

namespace MacroProgram.Structured

variable {p : MacroProgram} {c : Atom} {f : String} {args : List Atom} {b : Builtin}
    {body rest : Block}

theorem ifNonzero (h : p.Structured (.ifNonzero c body rest)) :
    p.Structured body ∧ p.Structured rest :=
  List.forall_mem_append.1 h

theorem whileNonzero (h : p.Structured (.whileNonzero c body rest)) :
    p.Structured body ∧ p.Structured rest :=
  List.forall_mem_append.1 h

theorem afterCall (h : p.Structured (.call f args rest)) : p.Structured rest :=
  (List.forall_mem_append.1 h).2

/-- A call of a built-in names it. -/
theorem callBuiltin (h : p.Structured (.call f args rest)) (hfind : p.find? f = none)
    (hb : Builtin.ofName? f = some b) : b ≠ .beginLoop ∧ b ≠ .endLoop :=
  h b (by simp [MacroProgram.builtins, hfind, hb])

theorem builtin (h : p.Structured (.builtin b args rest)) :
    (b ≠ .beginLoop ∧ b ≠ .endLoop) ∧ p.Structured rest :=
  List.forall_mem_cons.1 h

end MacroProgram.Structured

theorem Evaluator.Obeys.mono_blames {P Q : Prop} {x : Evaluator.Action Unit}
    (hx : Obeys SameLoops (Blames P) x) (h : P → Q) : Obeys SameLoops (Blames Q) x :=
  ⟨hx.1, fun s c t ht => (hx.2 s c t ht).mono h⟩

/-- A structured block leaves the open loops as they were; and if it fails because of a loop, then a
loop was captured. -/
theorem Expands.obeys_loops {p : MacroProgram} (hp : ∀ m ∈ p.macros, p.Structured m.body)
    {block : Block} {nodes : List Node} (h : Expands p block nodes) (hblock : p.Structured block) :
    Obeys SameLoops (Blames (Captures p block)) (run nodes) := by
  induction h with
  | done => exact (loops_discipline _).eval_pure ()
  | @localCell x rest _ _ ih =>
    have hd := loops_discipline (Captures p (.localCell x rest))
    exact hd.run_append (hd.localStatements _) ((ih hblock).mono_blames .afterLocal)
  | @ifNonzero c body rest inner out hbody _ ihbody ihrest =>
    have hd := loops_discipline (Captures p (.ifNonzero c body rest))
    have hinner := ihbody hblock.ifNonzero.1
    have hrest := ihrest hblock.ifNonzero.2
    refine hd.run_append (hd.inScope ?_) (hrest.mono_blames .afterIf)
    have hclear : Obeys SameLoops (Blames (Captures p (.ifNonzero c body rest)))
        (run [Statement.invoke .clear [conditionOperand]]) :=
      hd.run_cons (Evaluator.loops_invoke _ (by decide) _) (hd.eval_pure ())
    have hloop := Evaluator.loops_around (c := conditionOperand)
      (hd.run_append (hinner.mono_blames .ofIf) hclear) ?_
    · have hcopy := Evaluator.loops_invoke (Captures p (.ifNonzero c body rest)) (b := .copy)
        (by decide) [c, conditionOperand]
      have := hd.run_append (hd.localStatements conditionOperand)
        (hd.run_cons hcopy hloop)
      simpa using this
    · -- the body declares visible names only
      intro s t o o' hrun ho ho' hne
      obtain ⟨u, hu, hclear⟩ := run_append_ok.1 hrun
      obtain ⟨owned, hnames, howned⟩ := hbody.owns hu
      have hsame : t.scopes.resolve conditionOperand = s.scopes.resolve conditionOperand := by
        refine (howned.trans (Owns.invoke hclear)).resolve fun x hx hmem => ?_
        cases hx
        rw [List.append_nil, hnames] at hmem
        obtain ⟨y, -, hy⟩ := List.mem_map.1 hmem
        cases hy
      rw [hsame, ho] at ho'
      cases ho'
      exact absurd rfl hne
  | @whileNonzero c body rest inner out hbody _ ihbody ihrest =>
    have hd := loops_discipline (Captures p (.whileNonzero c body rest))
    have hinner := ihbody hblock.whileNonzero.1
    have hrest := ihrest hblock.whileNonzero.2
    refine hd.run_append (hd.inScope ?_) (hrest.mono_blames .afterWhile)
    refine Evaluator.loops_around (hinner.mono_blames .ofWhile) ?_
    -- the condition has another meaning after the body only if the body declares its name
    intro s t o o' hrun ho ho' hne
    obtain ⟨owned, hnames, howned⟩ := hbody.owns hrun
    by_contra hno
    have hsame : t.scopes.resolve c = s.scopes.resolve c := by
      refine howned.resolve fun x hx hmem => hno ?_
      rw [hnames] at hmem
      obtain ⟨y, hy, rfl⟩ := List.mem_map.1 hmem
      rw [hx]
      exact .condition hy
    rw [hsame, ho] at ho'
    cases ho'
    exact hne rfl
  | @callMacro f args m rest inner out hfind _ _ _ ihbody ihrest =>
    have hd := loops_discipline (Captures p (.call f args rest))
    have hinner := ihbody (hp m (MacroProgram.mem_of_find? hfind))
    have hrest := ihrest hblock.afterCall
    refine hd.run_append (hd.inScope ?_) (hrest.mono_blames .afterCall)
    exact hd.run_append (hd.bindParameters _ _) (hd.inScope (hinner.mono_blames (.ofCall hfind)))
  | @callBuiltin f args b rest out hfind hb _ ih =>
    have hd := loops_discipline (Captures p (.call f args rest))
    have hrest := ih hblock.afterCall
    exact hd.run_cons (Evaluator.loops_invoke _ (hblock.callBuiltin hfind hb) args)
      (hrest.mono_blames .afterCall)
  | @builtin b args rest out _ ih =>
    have hd := loops_discipline (Captures p (.builtin b args rest))
    obtain ⟨hb, hafter⟩ := hblock.builtin
    have hrest := ih hafter
    exact hd.run_cons (Evaluator.loops_invoke _ hb args) (hrest.mono_blames .afterBuiltin)

end TapeToolchain
