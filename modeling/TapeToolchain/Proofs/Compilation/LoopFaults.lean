import TapeToolchain.Proofs.Language.BalancedLoops

/-!
When compilation fails because of a loop. For structured programs the only failure is an imbalance,
and only a loop whose body redeclares its condition is to blame. Without explicit addresses such a
loop is never compiled: whatever a name means is an occupied cell, and the new cell was free.
-/

namespace TapeToolchain

open Desugaring (whileStatements conditionCopy)
open Evaluator (run Owns run_append_ok run_whileStatements run_expandedIf run_expandedCall)

/-- The atom is an explicit address. -/
def Atom.IsAddress : Atom → Prop
  | .address _ => True
  | _ => False

instance : (a : Atom) → Decidable a.IsAddress
  | .address _ => inferInstanceAs (Decidable True)
  | .name _ | .int _ | .text _ => inferInstanceAs (Decidable False)

/-- Every cell that a name means is occupied. -/
def Scopes.Within (s : Scopes) (cells : CellPool) : Prop :=
  ∀ x o, s.get x = .ok (.address o) → o ∈ cells.offsets

namespace Scopes

theorem Within.push {s : Scopes} {cells : CellPool} (h : s.Within cells) : s.push.Within cells :=
  fun x o hx => h x o hx

/-- A name that is bound to values means one of them or what it meant. -/
theorem get_bindNames {s : Scopes} {xs : List Symbol} {values : List Atom} {x : Symbol}
    {value : Atom} (h : (s.bindNames xs values).get x = .ok value) :
    value ∈ values ∨ s.get x = .ok value := by
  induction xs generalizing s values with
  | nil => exact Or.inr h
  | cons y xs ih =>
    cases values with
    | nil => exact Or.inr h
    | cons v values =>
      rcases ih h with hmem | hget
      · exact Or.inl (List.mem_cons_of_mem _ hmem)
      · by_cases hxy : x = y
        · subst hxy
          have hv : v = value := by simpa [get, bindName, lookupIn] using hget
          exact Or.inl (hv ▸ List.mem_cons_self)
        · have hne : (x == y) = false := by simpa using hxy
          simp only [get, bindName, lookupIn, List.lookup_cons, hne] at hget
          exact Or.inr hget

/-- Operands that are no addresses mean occupied cells. -/
theorem Within.resolveEach {s : Scopes} {cells : CellPool} (h : s.Within cells)
    {atoms values : List Atom} (hatoms : ∀ a ∈ atoms, ¬ a.IsAddress)
    (hvalues : s.resolveEach atoms = .ok values) :
    ∀ o, .address o ∈ values → o ∈ cells.offsets := by
  induction atoms generalizing values with
  | nil => cases hvalues; exact nofun
  | cons a rest ih =>
    obtain ⟨value, hvalue, hvalues⟩ := except_bind_eq_ok.1 hvalues
    obtain ⟨others, hothers, hvalues⟩ := except_bind_eq_ok.1 hvalues
    cases hvalues
    intro o ho
    rcases List.mem_cons.1 ho with rfl | ho
    · cases a with
      | name x => exact h x o hvalue
      | int _ | text _ => cases hvalue
      | address p => exact absurd trivial (hatoms _ List.mem_cons_self)
    · exact ih (fun a ha => hatoms a (List.mem_cons_of_mem _ ha)) hothers o ho

end Scopes

theorem Evaluator.Owns.within {s t : Evaluator} {owned : List (Symbol × Int)} (h : Owns s owned t)
    (hs : s.scopes.Within s.frame.cells) : t.scopes.Within t.frame.cells := by
  intro x o hx
  rw [h.mem_cells]
  by_cases hmem : x ∈ owned.map (·.1)
  · obtain ⟨o', ho', hget⟩ := h.get_mem hmem
    rw [hx] at hget
    cases hget
    exact Or.inl ho'
  · rw [h.scopes, Scopes.get_own hmem] at hx
    exact Or.inr (hs x o hx)

/-- The operands of the block are no addresses. -/
def Block.AddressFree (block : Block) : Prop :=
  ∀ a ∈ block.operands, ¬ a.IsAddress

instance (block : Block) : Decidable block.AddressFree :=
  inferInstanceAs (Decidable (∀ a ∈ block.operands, _))

/-- A loop that is captured does not compile: it would be closed on a cell of its body, which was
free when the loop was opened. -/
theorem Expands.not_captured {p : MacroProgram} (hp : ∀ m ∈ p.macros, p.Structured m.body)
    {x : String} {body : Block} {inner : List Node} (h : Expands p body inner)
    (hbody : p.Structured body) (hx : x ∈ body.locals) {s t : Evaluator}
    (hs : s.scopes.Within s.frame.cells)
    (hrun : run (whileStatements (.name (.visible x)) inner) s = .ok () t) : False := by
  obtain ⟨o, f, u, o', f', v, ho, hbegin, hinner, ho', hend, -⟩ := run_whileStatements hrun
  obtain ⟨owned, hnames, howned⟩ := h.owns hinner
  obtain ⟨fresh, hmem, hget⟩ := howned.get_mem (by rw [hnames]; exact List.mem_map_of_mem hx)
  cases hget.symm.trans ho'
  -- to be closed in balance, the loop must have been opened on the cell that its body took later
  have hopened : f.emitter.loops = o :: s.frame.emitter.loops := Emitter.loops_beginLoop hbegin
  have hclosed : u.frame.emitter.loops = o' :: f'.emitter.loops := Emitter.loops_endLoop hend
  have hkept : u.frame.emitter.loops = f.emitter.loops := (h.obeys_loops hp hbody).1 _ _ _ hinner
  obtain rfl : o' = o := by
    rw [hkept, hopened] at hclosed
    exact (List.cons.inj hclosed).1.symm
  apply howned.fresh o' hmem
  rw [Frame.cells_emit hbegin]
  exact hs _ _ ho

/-- A structured block without addresses that compiles captures nothing. -/
theorem Expands.not_captures {p : MacroProgram} (hp : ∀ m ∈ p.macros, p.Structured m.body)
    (hfree : ∀ m ∈ p.macros, m.body.AddressFree) {block : Block} {nodes : List Node}
    (h : Expands p block nodes) (hblock : p.Structured block) (hblockfree : block.AddressFree)
    {s t : Evaluator} (hs : s.scopes.Within s.frame.cells) (hrun : run nodes s = .ok () t) :
    ¬ Captures p block := by
  -- along the run every name stands for an occupied cell, which is what `not_captured` needs
  induction h generalizing s t with
  | done => exact nofun
  | localCell _ ih =>
    obtain ⟨u, hlocal, hrest⟩ := run_append_ok.1 hrun
    obtain ⟨o, f, hf, rfl⟩ := Evaluator.run_localStatements hlocal
    intro hc
    cases hc with
    | afterLocal hc => exact ih hblock hblockfree ((Owns.allocate hf).within hs) hrest hc
  | @ifNonzero c body rest inner out hbody _ ihbody ihrest =>
    obtain ⟨hb₁, hb₂⟩ := List.forall_mem_append.1 hblock
    obtain ⟨-, hf₁, hf₂⟩ :=
      (List.forall_mem_cons.trans (and_congr_right' List.forall_mem_append)).1 hblockfree
    obtain ⟨u, hif, hrest⟩ := run_append_ok.1 hrun
    intro hc
    cases hc with
    | ofIf hc =>
      obtain ⟨x, f₁, src, f₂, f₃, w, _, _, _, _, hx, -, hcopy, hbegin, hinner, -⟩ :=
        run_expandedIf hif
      have hcell :=
        (Owns.allocate (s := ⟨s.frame, s.scopes.push⟩) (x := conditionCopy) hx).within hs.push
      have hcells : f₃.cells = f₁.cells :=
        (Frame.cells_emit hbegin).trans ((Frame.restores_compositional.copy src x).1 _ _ _ hcopy)
      exact ihbody hb₁ hf₁ (by rw [hcells]; exact hcell) hinner hc
    | afterIf hc =>
      exact ihrest hb₂ hf₂ ((Owns.ofIf hbody.owns_something hif).within hs) hrest hc
  | @whileNonzero c body rest inner out hbody _ ihbody ihrest =>
    obtain ⟨hb₁, hb₂⟩ := List.forall_mem_append.1 hblock
    obtain ⟨-, hf₁, hf₂⟩ :=
      (List.forall_mem_cons.trans (and_congr_right' List.forall_mem_append)).1 hblockfree
    obtain ⟨u, hwhile, hrest⟩ := run_append_ok.1 hrun
    intro hc
    cases hc with
    | condition hx => exact hbody.not_captured hp hb₁ hx hs hwhile
    | ofWhile hc =>
      obtain ⟨o, f, w, _, _, _, -, hbegin, hinner, -⟩ := run_whileStatements hwhile
      exact ihbody hb₁ hf₁ (by rw [Frame.cells_emit hbegin]; exact hs.push) hinner hc
    | afterWhile hc =>
      exact ihrest hb₂ hf₂ ((Owns.ofWhile hbody.owns_something hwhile).within hs) hrest hc
  | @callMacro f args m rest inner out hfind hlen hbody _ ihbody ihrest =>
    obtain ⟨-, hb₂⟩ := List.forall_mem_append.1 hblock
    obtain ⟨hf₁, hf₂⟩ := List.forall_mem_append.1 hblockfree
    obtain ⟨u, hcall, hrest⟩ := run_append_ok.1 hrun
    intro hc
    cases hc with
    | @ofCall _ _ m' _ hfind' hc =>
      cases hfind.symm.trans hfind'
      have hm := MacroProgram.mem_of_find? hfind
      obtain ⟨values, w, v, hvalues, hinner, -⟩ := run_expandedCall hlen hcall
      obtain ⟨w', hinner, -⟩ := Evaluator.run_inScope_ok.1 hinner
      refine ihbody (hp m hm) (hfree m hm) (Scopes.Within.push fun x o hx => ?_) hinner hc
      rcases Scopes.get_bindNames hx with hmem | hget
      · exact hs.resolveEach hf₁ hvalues o hmem
      · exact hs x o hget
    | afterCall hc =>
      exact ihrest hb₂ hf₂ ((Owns.ofCall hlen hbody.owns_something hcall).within hs) hrest hc
  | @callBuiltin f args b rest out hfind _ _ ih =>
    obtain ⟨u, hu, hrest⟩ := (run_append_ok (a := [Statement.invoke b args])).1 hrun
    intro hc
    cases hc with
    | ofCall hf _ => cases hfind.symm.trans hf
    | afterCall hc =>
      exact ih (List.forall_mem_append.1 hblock).2 (List.forall_mem_append.1 hblockfree).2
        ((Owns.invoke hu).within hs) hrest hc
  | @builtin b args rest out _ ih =>
    obtain ⟨u, hu, hrest⟩ := (run_append_ok (a := [Statement.invoke b args])).1 hrun
    intro hc
    cases hc with
    | afterBuiltin hc =>
      exact ih (List.forall_mem_cons.1 hblock).2 (List.forall_mem_append.1 hblockfree).2
        ((Owns.invoke hu).within hs) hrest hc

theorem CompileError.StopsExpansion.not_loopFault {c : CompileError} (h : c.StopsExpansion) :
    ¬ c.IsLoopFault := by
  intro hfault
  cases c <;> first | (cases h; done) | cases hfault

theorem compile_eq_error {o : Options} {t : MacroTable} {entry : String} {c : CompileError} :
    compile o t entry = .error c ↔ t.expand o.limits entry = .error c ∨
      ∃ body, t.expand o.limits entry = .ok body ∧
        ((∃ s, run body (.new o.tapeSize) = .error c s) ∨
          ∃ s, run body (.new o.tapeSize) = .ok () s ∧ s.finish o.lineWidth = .error c) := by
  rw [compile, except_bind_eq_error]
  refine or_congr_right (exists_congr fun body => and_congr_right fun _ => ?_)
  cases run body (.new o.tapeSize) with
  | ok a final => simp
  | error c final => simp [throw, throwThe, MonadExceptOf.throw]

/-- **Only a captured loop gets out of balance.** Take any program whose macros are built of local
cells, conditionals, loops, calls, and built-ins other than the two that open and close loops, with
any names and any operands. If the compilation of an entry fails because of a loop, then a loop is
closed on another cell than it was opened on, and in the entry, or in a macro that is called from
it, there is a loop whose body declares a cell of the name that the loop runs on. If the program has
no explicit addresses, an entry with such a loop never compiles. -/
theorem loop_fault_only_of_captured_condition (p : MacroProgram)
    (hp : ∀ m ∈ p.macros, p.Structured m.body) (o : Options) (entry : String) :
    (∀ c, compile o p.table entry = .error c → c.IsLoopFault →
      (∃ opened closed, c = .loopImbalance opened closed) ∧
        ∃ m, p.find? entry = some m ∧ Captures p m.body) ∧
    ((∀ m ∈ p.macros, m.body.AddressFree) → ∀ l m, compile o p.table entry = .ok l →
      p.find? entry = some m → ¬ Captures p m.body) := by
  refine ⟨fun c hc hfault => ?_, fun hfree l m hl hm => ?_⟩
  · rcases compile_eq_error.1 hc with hexpand | ⟨body, hexpand, hrun⟩
    · exact absurd hfault (FailsInExpansion.expand _ _ _ c hexpand).not_loopFault
    obtain ⟨m, inner, hm, hinner, rfl⟩ := expand_eq_ok hexpand
    have hkeep := (Emitter.loops_discipline _).inScope
      (hinner.obeys_loops hp (hp m (MacroProgram.mem_of_find? hm)))
    rcases hrun with ⟨s, hs⟩ | ⟨s, hs, hfinish⟩
    · obtain ⟨himbalance, hcaptures⟩ := hkeep.2 _ _ _ hs hfault
      exact ⟨himbalance, m, hm, hcaptures⟩
    · -- the run leaves no loop open, so the code can be finished
      have hloops : s.frame.emitter.loops = [] := hkeep.1 _ _ _ hs
      simp only [Evaluator.finish, Frame.finish, Emitter.finish, hloops] at hfinish
      split at hfinish
      · cases hfinish
      · cases hfinish; cases hfault
  · obtain ⟨body, final, hexpand, hrun, -⟩ := compile_eq_ok.1 hl
    obtain ⟨m', inner, hm', hinner, rfl⟩ := expand_eq_ok hexpand
    cases hm.symm.trans hm'
    obtain ⟨u, hu, -⟩ := Evaluator.run_inScope_ok.1 hrun
    have hmem := MacroProgram.mem_of_find? hm
    refine hinner.not_captures hp hfree (hp m hmem) (hfree m hmem) (fun x o hx => ?_) hu
    cases hx

/-- The body of the loop runs a conditional in which the loop's cell is redeclared. -/
def shadowedInside : MacroProgram :=
  ⟨[⟨"main", [], .localCell "x" <| .builtin .clear ["x"] <| .builtin .constantAdd [.int 3, "x"] <|
    .whileNonzero "x"
      (.ifNonzero "x" (.localCell "x" <| .builtin .clear ["x"] .done) <|
        .builtin .constantSub [.int 1, "x"] .done) .done⟩]⟩

/-- The body of the loop itself redeclares the loop's cell. -/
def redeclared : MacroProgram :=
  ⟨[⟨"main", [], .localCell "x" <| .builtin .clear ["x"] <|
    .whileNonzero "x" (.localCell "x" <| .builtin .clear ["x"] .done) .done⟩]⟩

/-- A cell of the same name further inside is no capture, and one in the body itself is. -/
theorem loop_fault_only_of_captured_condition_shadowed :
    ((∃ l, compile {} shadowedInside.table "main" = .ok l) ∧
      ∃ m, shadowedInside.find? "main" = some m ∧ ¬ Captures shadowedInside m.body) ∧
    ∃ m, redeclared.find? "main" = some m ∧ Captures redeclared m.body := by
  constructor
  · have hok : ∃ l, compile {} shadowedInside.table "main" = .ok l := by
      cases h : compile {} shadowedInside.table "main" with
      | ok l => exact ⟨l, rfl⟩
      | error c =>
        have : (compile {} shadowedInside.table "main").isOk = true := by decide +kernel
        rw [h] at this
        cases this
    obtain ⟨l, hl⟩ := hok
    refine ⟨⟨l, hl⟩, _, rfl, ?_⟩
    exact (loop_fault_only_of_captured_condition shadowedInside (by decide) {} "main").2
      (by decide) l _ hl rfl
  · have h : compile {} redeclared.table "main" = .error (.loopImbalance 0 1) := by decide +kernel
    exact ((loop_fault_only_of_captured_condition redeclared (by decide) {} "main").1 _ h trivial).2

/-- A structured program, without addresses and with nothing but its names to blame, that does not
compile because of a loop. -/
theorem redeclared_imbalance :
    (∀ m ∈ redeclared.macros, redeclared.Structured m.body) ∧
    compile {} redeclared.table "main" = .error (.loopImbalance 0 1) := by
  exact ⟨by decide, by decide +kernel⟩

end TapeToolchain
