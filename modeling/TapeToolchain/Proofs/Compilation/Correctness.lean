import TapeToolchain.Proofs.Language.Realization

/-!
Compiled programs do what they mean. The code of a program that compiles follows the execution of
the program at every depth (`compile_follows`), so it halts exactly if the program finishes, with
the same output and the same input left; and if the program goes on forever, the code does so with
the same output.
-/

namespace TapeToolchain

namespace Machine

variable {code : List Instruction} {bound : Nat} {s t u : Machine}

/-! ## What can be seen of a machine that follows executions -/

/-- The machine is at its end and has treated input and output like the run that has ended. -/
def EndsLike (code : List Instruction) (w : World) (t : Machine) : Prop :=
  t.Halted code ∧ t.memory.output = w.output ∧ t.memory.input = w.input

section
variable {X : Nat → Execution} (h : ∀ n, Follows code bound n s (EndsLike code) (X n))
include h

theorem Follows.not_stuck (n : Nat) : X n ≠ .stuck := by
  intro hstuck
  have := h n
  rw [hstuck] at this
  exact this

/-- A depth at which executions are not cut off before the machine has taken so many steps. -/
theorem Follows.beyond (k : Nat) :
    (∃ n w, X n = .finished w) ∨
      ∃ n j u, X n = .unfinished u.memory.output ∧ k < j ∧ runFor code j s = some u := by
  -- each step of the machine uses up at most `bound` levels of depth
  have hn := h (bound * (k + 1) + 1)
  cases hX : X (bound * (k + 1) + 1) with
  | finished w => exact Or.inl ⟨_, w, hX⟩
  | unfinished out =>
    rw [hX] at hn
    obtain ⟨j, u, hj, rfl, hle⟩ := hn
    refine Or.inr ⟨_, j, u, hX, ?_, hj⟩
    have hlt : bound * (k + 1) < bound * (j + 1) := hle
    have := Nat.lt_of_mul_lt_mul_left hlt
    omega
  | stuck => exact absurd hX (Follows.not_stuck h _)

/-- The machine halts exactly if some execution comes to its end, and the two agree. -/
theorem Follows.finished_iff_halted (out rest : List UInt8) :
    (∃ n w, X n = .finished w ∧ w.output = out ∧ w.input = rest) ↔
      ∃ t, Reaches code s t ∧ t.Halted code ∧ t.memory.output = out ∧ t.memory.input = rest := by
  have hends : ∀ n w, X n = .finished w → ∃ t, Reaches code s t ∧ EndsLike code w t := by
    intro n w hX
    have := h n
    rwa [hX] at this
  constructor
  · rintro ⟨n, w, hX, rfl, rfl⟩
    exact hends n w hX
  · rintro ⟨t, ht, hhalted, rfl, rfl⟩
    obtain ⟨k, hk⟩ := ht
    rcases Follows.beyond h k with ⟨n, w, hX⟩ | ⟨n, j, u, -, hlt, hj⟩
    · obtain ⟨t', ht', hhalted', hout, hin⟩ := hends n w hX
      obtain rfl := eq_of_halted ⟨k, hk⟩ hhalted ht' hhalted'
      exact ⟨n, w, hX, hout.symm, hin.symm⟩
    · -- the machine has halted after `k` steps and cannot take more
      exact absurd (le_of_halted hk hhalted hj) (Nat.not_le.2 hlt)

/-- The two write the same bytes, also if they go on forever. -/
theorem Follows.output_iff (out : List UInt8) :
    (∃ n, out <+: (X n).output) ↔ ∃ t, Reaches code s t ∧ out <+: t.memory.output := by
  constructor
  · rintro ⟨n, hout⟩
    have hn := h n
    cases hX : X n with
    | finished w =>
      rw [hX] at hn hout
      obtain ⟨t, ht, -, hsame, -⟩ := hn
      exact ⟨t, ht, hsame ▸ hout⟩
    | unfinished o =>
      rw [hX] at hn hout
      obtain ⟨k, t, ht, hsame, -⟩ := hn
      exact ⟨t, ⟨k, ht⟩, hsame ▸ hout⟩
    | stuck => exact absurd hX (Follows.not_stuck h n)
  · rintro ⟨t, ⟨k, hk⟩, hout⟩
    rcases Follows.beyond h k with ⟨n, w, hX⟩ | ⟨n, j, u, hX, hlt, hj⟩
    · have hn := h n
      rw [hX] at hn
      obtain ⟨t', ⟨j, hj⟩, hhalted, hsame, -⟩ := hn
      -- the machine comes to its end from `t`, and what it has written by then begins like this
      have hle := le_of_halted hj hhalted hk
      refine ⟨n, ?_⟩
      rw [hX]
      show out <+: w.output
      rw [← hsame]
      exact hout.trans (output_reaches (runFor_le hle hk hj))
    · refine ⟨n, ?_⟩
      rw [hX]
      exact hout.trans (output_reaches (runFor_le (Nat.le_of_lt hlt) hk hj))

end

end Machine

/-! ## The tape -/

open Emitter (Steady)
open Evaluator (Obeys run run_append_ok run_single_ok)

/-- What is kept by the built-ins that a program names, and by those that conditionals and loops are
made of, is kept by the program. -/
theorem Expands.obeys {R : Emitter → Emitter → Prop} {E : CompileError → Prop} (hd : Discipline R E)
    {P : Builtin → Prop} (hinvoke : ∀ b, P b → ∀ values, Frame.Obeys R E (Frame.invoke b values))
    (hcopy : P .copy) (hclear : P .clear) (hbegin : P .beginLoop) (hend : P .endLoop)
    {p : MacroProgram} (hp : ∀ m ∈ p.macros, ∀ b ∈ p.builtins m.body, P b) {block : Block}
    {nodes : List Node} (h : Expands p block nodes) (hblock : ∀ b ∈ p.builtins block, P b) :
    Obeys R E (run nodes) := by
  have hstatement : ∀ {b : Builtin} {args : List Atom} {rest : List Node}, P b →
      Obeys R E (run rest) → Obeys R E (run (Statement.invoke b args :: rest)) := fun hb hrest =>
    hd.run_cons (hd.invokeStatement (hinvoke _ hb) _) hrest
  induction h with
  | done => exact hd.eval_pure ()
  | localCell _ ih => exact hd.run_append (hd.localStatements _) (ih hblock)
  | ifNonzero _ _ ihbody ihrest =>
    have hinner := ihbody fun b hb => hblock b (List.mem_append_left _ hb)
    have hrest := ihrest fun b hb => hblock b (List.mem_append_right _ hb)
    refine hd.run_append (hd.inScope ?_) hrest
    refine hd.run_append (hd.run_append (hd.run_append (hd.localStatements _) ?_) hinner) ?_
    · exact hstatement hcopy (hstatement hbegin (hd.eval_pure ()))
    · exact hstatement hclear (hstatement hend (hd.eval_pure ()))
  | whileNonzero _ _ ihbody ihrest =>
    have hinner := ihbody fun b hb => hblock b (List.mem_append_left _ hb)
    have hrest := ihrest fun b hb => hblock b (List.mem_append_right _ hb)
    refine hd.run_append (hd.inScope ?_) hrest
    exact hd.run_append (hd.run_append (hstatement hbegin (hd.eval_pure ())) hinner)
      (hstatement hend (hd.eval_pure ()))
  | callMacro hfind _ _ _ ihbody ihrest =>
    have hinner := ihbody (hp _ (MacroProgram.mem_of_find? hfind))
    have hrest := ihrest fun b hb => hblock b (List.mem_append_right _ hb)
    exact hd.run_append (hd.inScope (hd.run_append (hd.bindParameters _ _) (hd.inScope hinner)))
      hrest
  | callBuiltin hfind hb _ ih =>
    refine hstatement (hblock _ (List.mem_append_left _ ?_)) (ih fun b hb =>
      hblock b (List.mem_append_right _ hb))
    rw [hfind, hb]
    exact List.mem_singleton.2 rfl
  | builtin _ ih =>
    exact hstatement (hblock _ List.mem_cons_self)
      (ih fun b hb => hblock b (List.mem_cons_of_mem _ hb))

/-! ## Compiled programs -/

section
variable {p : MacroProgram} (hp : ∀ m ∈ p.macros, p.Meaningful m.body) {o : Options}
    {entry : String}
  {l : Listing} (h : compile o p.table entry = .ok l)
include hp h

/-- The code follows the executions of the program, whatever the tape holds at first. -/
theorem compile_follows (fresh : UInt8) (cells : Int → UInt8) (input : List UInt8) :
    ∃ bound, ∀ n, Machine.Follows l.code.toList bound n (.start cells input)
      (Machine.EndsLike l.code.toList) (p.execFrom fresh entry input n) := by
  obtain ⟨body, final, hexpand, hrun, hfinish⟩ := compile_eq_ok.1 h
  obtain ⟨-, -, rfl⟩ := finish_eq_ok hfinish
  obtain ⟨m, inner, hm, hexpands, rfl⟩ := expand_eq_ok hexpand
  obtain ⟨u, hinner, v, hclose⟩ := Evaluator.run_inScope_ok.1 hrun
  have hmeaning := hp m (MacroProgram.mem_of_find? hm)
  have hagrees : Environment.Agrees [] [] Scopes.root.push := fun x a hx => by cases hx
  -- no variables and no names at first, so there is nothing for cells and scopes to agree on
  obtain ⟨-, seg, bound, hcode, hruns⟩ :=
    hexpands.realizes hp fresh hmeaning hinner ⟨.nil, nofun⟩ hagrees
  have hseg : final.frame.emitter.code.toList = seg := by
    rw [Evaluator.emitter_envEnd hclose, hcode]
    rfl
  refine ⟨bound, fun n => ?_⟩
  have hn := hruns.follows [] [] n ⟨[], input, []⟩ (.start cells input) ⟨rfl, rfl, rfl, rfl, rfl⟩
  rw [List.nil_append, List.append_nil, List.length_nil, Nat.zero_add, ← hseg] at hn
  rw [MacroProgram.execFrom, hm]
  exact hn.of_close fun w t ht => ⟨ht.1, ht.2.2.output.symm, ht.2.2.input.symm⟩

/-- The code keeps the cursor on the tape, and has a next step everywhere before its end. -/
theorem compile_onTape (hpos : 1 ≤ o.tapeSize.toNat) (hsize : o.tapeSize.toNat < 2 ^ 63)
    {cells : Int → UInt8} {input : List UInt8} {t : Machine}
    (ht : Machine.Reaches l.code.toList (.start cells input) t) :
    (0 ≤ t.cursor ∧ t.cursor < o.tapeSize.toNat) ∧
      (t.Halted l.code.toList ∨ ∃ u, Machine.step l.code.toList t = some u) := by
  obtain ⟨body, final, hexpand, hrun, hfinish⟩ := compile_eq_ok.1 h
  obtain ⟨-, hclosed, rfl⟩ := finish_eq_ok hfinish
  obtain ⟨m, inner, hm, hexpands, rfl⟩ := expand_eq_ok hexpand
  have hd := Evaluator.steady_discipline
  have hresize : ∀ m ∈ p.macros, ∀ b ∈ p.builtins m.body, ¬ Evaluator.Resizes b := by
    rintro m hm b hb (rfl | rfl)
    · exact (hp m hm).builtins _ hb trivial
    · exact (hp m hm).builtins _ hb trivial
  have hinner : Obeys Steady (fun _ => True) (run inner) := by
    refine hexpands.obeys hd (P := fun b => ¬ Evaluator.Resizes b)
      (fun b hb values => ?_) (by decide)
      (by decide) (by decide) (by decide) hresize (hresize m (MacroProgram.mem_of_find? hm))
    exact hd.compositional.invoke values (fun _ => Evaluator.steady_loops) fun hresizes =>
      absurd hresizes hb
  obtain ⟨ops, hops, hperform⟩ := (hd.inScope hinner).1 _ _ _ hrun
  obtain ⟨htape, -, hnext⟩ := Emitter.tracksCursor_of_loopsKeepBase hpos hsize hperform hclosed
    (Emitter.loopsKeepBase_of_no_rebase hops _) cells input t ht
  exact ⟨htape, hnext.imp_left And.left⟩

end

/-- The program comes to its end, with this output and this rest of the input. -/
def MacroProgram.Finishes (p : MacroProgram) (fresh : UInt8) (entry : String)
    (input out rest : List UInt8) : Prop :=
  ∃ n w, p.execFrom fresh entry input n = .finished w ∧ w.output = out ∧ w.input = rest

/-- **Compiled programs do what they mean.** Take any program whose macros are built of local cells
that are cleared at once, conditionals, loops, calls, and built-ins that neither resize the frame
nor are ends of loops, with visible names and constants as operands, and any options for which it
compiles. Whatever variables and cells hold at first, and for every input, every statement that is
executed has a meaning; the code halts exactly if the program finishes, with the same output and the
same input left; the bytes that the code writes, also if it never halts, are those that the program
writes; and on a tape whose size a signed number can hold the code never leaves the tape and never
comes to a loop end without its partner. -/
theorem compiled_code_does_what_program_means (p : MacroProgram)
    (hp : ∀ m ∈ p.macros, p.Meaningful m.body) (o : Options) (entry : String) (l : Listing)
    (h : compile o p.table entry = .ok l) (fresh : UInt8) (cells : Int → UInt8)
    (input : List UInt8) :
    (∀ n, p.execFrom fresh entry input n ≠ .stuck) ∧
    (∀ out rest, l.Halts cells input out rest ↔ p.Finishes fresh entry input out rest) ∧
    (∀ out, (∃ t, Machine.Reaches l.code.toList (.start cells input) t ∧ out <+: t.memory.output) ↔
      ∃ n, out <+: (p.execFrom fresh entry input n).output) ∧
    (1 ≤ o.tapeSize.toNat → o.tapeSize.toNat < 2 ^ 63 →
      ∀ t, Machine.Reaches l.code.toList (.start cells input) t →
        (0 ≤ t.cursor ∧ t.cursor < o.tapeSize.toNat) ∧
        (t.Halted l.code.toList ∨ ∃ u, Machine.step l.code.toList t = some u)) := by
  obtain ⟨bound, hfollows⟩ := compile_follows hp h fresh cells input
  refine ⟨Machine.Follows.not_stuck hfollows, fun out rest => ?_, fun out => ?_, ?_⟩
  · exact (Machine.Follows.finished_iff_halted hfollows out rest).symm
  · exact (Machine.Follows.output_iff hfollows out).symm
  · exact fun hpos hsize t ht => compile_onTape hp h hpos hsize ht

/-- A countdown from two that shows each number, by a macro that shows its parameter if it is not
zero. -/
def countdown : MacroProgram where
  macros := [
    ⟨"main", [], .localCell "x" <| .builtin .clear ["x"] <| .builtin .constantAdd [.int 2, "x"] <|
      .whileNonzero "x" (.call "show" ["x"] <| .builtin .constantSub [.int 1, "x"] .done) .done⟩,
    ⟨"show", ["value"], .ifNonzero "value" (.builtin .putChar ["value"] .done) .done⟩]

theorem compiled_code_does_what_program_means_countdown :
    ∃ l, compile {} countdown.table "main" = .ok l ∧ l.Halts (fun _ => 0) [7] [2, 1] [7] := by
  have hok : (compile {} countdown.table "main").isOk := by decide +kernel
  match hl : compile {} countdown.table "main" with
  | .error c => rw [hl] at hok; cases hok
  | .ok l =>
    obtain ⟨-, hhalts, -⟩ :=
      compiled_code_does_what_program_means countdown (by decide) {} "main" l hl 0
      (fun _ => 0) [7]
    exact ⟨l, rfl, (hhalts [2, 1] [7]).2 ⟨12, ⟨[0], [7], [2, 1]⟩, by decide, rfl, rfl⟩⟩

end TapeToolchain
