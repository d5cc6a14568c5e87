import TapeToolchain.Proofs.Compilation.Correctness
import TapeToolchain.Proofs.Expansion.Settling
import TapeToolchain.Proofs.Language.Fitting

/-!
Compilations that succeed. A program whose entry fits on the tape, with calls and blocks nested less
deep than there are rounds, compiles (`compile_of_fit`); and if the entry, run as a program with a
stack, comes to its end, then so does the code, in the same way (`compile_halts`).
-/

namespace TapeToolchain

open Evaluator (run)

variable {p : MacroProgram}

/-- The macros can be desugared in so many rounds. -/
def MacroProgram.NestsBelow (p : MacroProgram) (rounds : Nat) : Prop :=
  ∀ m ∈ p.macros, m.body.nesting < rounds

instance (p : MacroProgram) (rounds : Nat) : Decidable (p.NestsBelow rounds) :=
  inferInstanceAs (Decidable (∀ m ∈ p.macros, m.body.nesting < rounds))

theorem MacroProgram.expandCall_of_find? {f : String} {m : Macro} (hm : p.find? f = some m)
    {rounds : Nat} (hnesting : p.NestsBelow rounds) {args : List Atom}
    (hlen : m.params.length = args.length) :
    Inlining.expandCall p.table (p.table.desugar rounds) f (args.map .literal) =
      .ok (expandedCall m.params args m.body.desugared) := by
  have hdesugar := desugar_of_nesting hm (hnesting m (mem_of_find? hm))
  rw [Inlining.expandCall, p.find?_table, hm]
  show (p.table.desugar rounds f >>= _) = _
  rw [hdesugar]
  show (if _ then _ else _) = _
  rw [if_pos (by simpa using hlen)]
  rfl

/-- The calls of a block that fits are inlined in as many rounds as they are deep. -/
theorem MacroProgram.settles_of_fit {rounds limit d base : Nat} (hnesting : p.NestsBelow rounds)
    {env : Environment} {sh : Shape} {block : Block} (h : p.fit limit d env sh block = some base) :
    ∀ n ∈ block.desugared, Settles [Inlining.inline? p.table (p.table.desugar rounds)] d n := by
  have hprim := inline?_leavesPrimitives p.table (p.table.desugar rounds)
  induction d generalizing env sh block base with
  | zero => cases h
  | succ d ihd =>
    induction block generalizing env sh base with
    | done => nofun
    | localCell x rest ih =>
      obtain ⟨-, hrest⟩ := fitWith_localCell.1 h
      exact List.forall_mem_append.2 ⟨hprim.localStatements _, ih hrest⟩
    | ifNonzero c body rest ihbody ihrest =>
      obtain ⟨_, _, -, -, hbody, hrest⟩ := fitWith_ifNonzero.1 h
      exact List.forall_mem_append.2 ⟨hprim.expandedIf c (ihbody hbody), ihrest hrest⟩
    | whileNonzero c body rest ihbody ihrest =>
      obtain ⟨_, _, -, -, hbody, hrest⟩ := fitWith_whileNonzero.1 h
      exact List.forall_mem_append.2 ⟨hprim.whileStatements c (ihbody hbody), ihrest hrest⟩
    | call f args rest ih =>
      obtain ⟨m, _, _, hm, -, ⟨hlen, -⟩, hbody, hrest⟩ := fitWith_call.1 h
      refine List.forall_mem_cons.2
        ⟨fun g hg => Or.inr ⟨expandedCall m.params args m.body.desugared, ?_, ?_⟩, ih hrest⟩
      · rw [List.mem_singleton.1 hg, inline?_call, expandCall_of_find? hm hnesting hlen]
        rfl
      · refine hprim.inScope (List.forall_mem_append.2 ⟨fun n hn => ?_, hprim.inScope (ihd hbody)⟩)
        exact .of_kept (bindParameters_kept (m.params.map .visible) (args.map .literal) n hn)
    | builtin b args rest ih =>
      obtain ⟨_, _, -, -, hrest⟩ := fitWith_builtin.1 h
      exact List.forall_mem_cons.2 ⟨hprim.invoke b args, ih hrest⟩

theorem MacroProgram.expand_of_fit {limits : RoundLimits} {limit d base : Nat} {env : Environment}
    {sh : Shape} (hnesting : p.NestsBelow limits.desugaring) (hd : d < limits.inlining)
    {entry : String} {m : Macro} (hm : p.find? entry = some m)
    (h : p.fit limit d env sh m.body = some base) :
    ∃ body, p.table.expand limits entry = .ok body := by
  have hprim := inline?_leavesPrimitives p.table (p.table.desugar limits.desugaring)
  obtain ⟨out, hout⟩ := rounds_of_settles (hprim.inScope (settles_of_fit hnesting h)) hd
  exact ⟨out, MacroTable.expand_ok_iff.2 ⟨_, desugar_of_nesting hm (hnesting m (mem_of_find? hm)),
    hout⟩⟩

/-! ## Compilation -/

section
variable (hp : ∀ m ∈ p.macros, p.Structured m.body) {o : Options} {entry : String} {m : Macro}
  (hm : p.find? entry = some m)
include hp hm

/-- **A program that fits compiles.** -/
theorem compile_of_fit (htexts : ∀ m ∈ p.macros, ∀ a ∈ m.body.operands, a.Printable)
    {d limit base : Nat} (hnesting : p.NestsBelow o.maxDesugarRounds) (hd : d < o.maxInlineRounds)
    (hlimit : signedSize o.tapeSize = limit)
    (hfit : p.fit limit d [] ⟨0, 0, 0, true⟩ m.body = some base) :
    ∃ l, compile o p.table entry = .ok l := by
  obtain ⟨body, hbody⟩ : ∃ body, p.table.expand o.limits entry = .ok body :=
    p.expand_of_fit hnesting hd hm hfit
  obtain ⟨m', inner, hm', hexpands, rfl⟩ := expand_eq_ok hbody
  obtain rfl : m = m' := Option.some.inj (hm.symm.trans hm')
  have hmem := MacroProgram.mem_of_find? hm
  let start : Evaluator := .new o.tapeSize
  have hadmits : Evaluator.Admits ⟨start.frame, start.scopes.push⟩ limit [] ⟨0, 0, 0, true⟩ [] :=
    ⟨rfl, ⟨.nil, nofun⟩, .nil _ _, fun _ _ hr => (by cases hr), rfl, hlimit, nofun, Nat.zero_le _,
      nofun, nofun⟩
  obtain ⟨t, ht, -⟩ :=
    hexpands.succeeds hp htexts (hp m hmem) (htexts m hmem) hfit hadmits fun x _ => rfl
  have hrun : run (Statement.inScope inner) start = .ok () ⟨⟨t.frame.emitter, start.frame.cells⟩,
      start.scopes⟩ := by
    rw [← Evaluator.final?_eq_some, Evaluator.final?_inScope hexpands.owns_something,
      Evaluator.final?_eq_some.2 ht]
    rfl
  have hloops : t.frame.emitter.loops = [] := (hexpands.obeys_loops hp (hp m hmem)).1 _ _ _ ht
  refine ⟨⟨t.frame.emitter.code, o.lineWidth⟩, compile_eq_ok.2 ⟨_, _, hbody, hrun, ?_⟩⟩
  simp only [Evaluator.finish, Frame.finish, Emitter.finish, hloops]
  rfl

/-- **The code of a program with a stack ends like the program.** -/
theorem compile_halts {l : Listing} (h : compile o p.table entry = .ok l) {input : List UInt8}
    {Q : Store → Prop} (hends : Ends p [] m.body ⟨[], some [], input, []⟩ Q) (cells : Int → UInt8) :
    ∃ st, Q st ∧ l.Halts cells input st.output st.input := by
  obtain ⟨body, final, hexpand, hrun, hfinish⟩ := compile_eq_ok.1 h
  obtain ⟨-, -, rfl⟩ := finish_eq_ok hfinish
  obtain ⟨m', inner, hm', hexpands, rfl⟩ := expand_eq_ok hexpand
  obtain rfl : m = m' := Option.some.inj (hm.symm.trans hm')
  obtain ⟨u, hinner, v, hclose⟩ := Evaluator.run_inScope_ok.1 hrun
  have hhosts : Evaluator.Hosts ⟨(Evaluator.new o.tapeSize).frame,
      (Evaluator.new o.tapeSize).scopes.push⟩ [] [] ⟨[], some [], input, []⟩ 0 ⟨cells, input, []⟩ :=
    ⟨⟨.nil, nofun⟩, nofun, .nil _ _, ⟨rfl, rfl, rfl, rfl⟩, nofun⟩
  obtain ⟨seg, b', m', hcode, hexecutes, st, hQ, hpasses⟩ :=
    hexpands.leads hp (hp m (MacroProgram.mem_of_find? hm)) hends hhosts hinner
  have hseg : final.frame.emitter.code.toList = seg := by
    rw [Evaluator.emitter_envEnd hclose, hcode]
    rfl
  refine ⟨st, hQ, ⟨seg.length, b' + u.frame.emitter.relative, m'⟩, ?_, ?_, hpasses.held.output.symm,
    hpasses.held.input.symm⟩
  · have hcursor : (Evaluator.new o.tapeSize).frame.emitter.relative = 0 := rfl
    rw [hseg]
    simpa [hcursor, Machine.start] using hexecutes [] []
  · rw [hseg]
    simp [Machine.Halted]

end

end TapeToolchain
