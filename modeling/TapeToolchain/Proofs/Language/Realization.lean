import TapeToolchain.Proofs.Language.BalancedLoops
import TapeToolchain.Proofs.Language.Simulation

/-!
The code of a block does what the block means. When the compiler evaluates a block, each name is
bound to the cell of the variable that it stands for, or to the same constant
(`Environment.Agrees`); with that, the code is realized statement by statement (`Expands.realizes`).
-/

namespace TapeToolchain

open Desugaring (localStatements whileStatements conditionCopy)

/-! ## Programs with a meaning -/

/-- The atom is an operand that an author can write: a visible name or a constant. -/
def Atom.IsOperand : Atom → Prop
  | .name x => x.hidden = false
  | .int _ | .text _ => True
  | .address _ => False

instance : (a : Atom) → Decidable a.IsOperand
  | .name x => inferInstanceAs (Decidable (x.hidden = false))
  | .int _ | .text _ => inferInstanceAs (Decidable True)
  | .address _ => inferInstanceAs (Decidable False)

/-- The first statement clears the variable of the given name. -/
def Block.clearsFirst (x : String) : Block → Bool
  | .builtin .clear [.name y] _ => y == .visible x
  | _ => false

theorem Block.eq_of_clearsFirst {x : String} {block : Block} (h : block.clearsFirst x) :
    ∃ rest, block = .builtin .clear [.name (.visible x)] rest := by
  unfold clearsFirst at h
  split at h
  · next y rest =>
    obtain rfl : y = .visible x := by simpa using h
    exact ⟨rest, rfl⟩
  · cases h

namespace MacroProgram

/-- Every statement of the block has a meaning: operands are visible names and constants, each local
cell is cleared at once, and no built-in resizes the frame or is an end of a loop. -/
def Meaningful (p : MacroProgram) : Block → Prop
  | .done => True
  | .localCell x rest => rest.clearsFirst x ∧ p.Meaningful rest
  | .ifNonzero c body rest | .whileNonzero c body rest =>
    c.IsOperand ∧ p.Meaningful body ∧ p.Meaningful rest
  | .call f args rest =>
    (∀ a ∈ args, a.IsOperand) ∧ ((p.find? f).isSome ∨ ∀ b ∈ Builtin.ofName? f, ¬ b.IsControl) ∧
      p.Meaningful rest
  | .builtin b args rest => (∀ a ∈ args, a.IsOperand) ∧ ¬ b.IsControl ∧ p.Meaningful rest

instance decidableMeaningful (p : MacroProgram) : (block : Block) → Decidable (p.Meaningful block)
  | .done => inferInstanceAs (Decidable True)
  | .localCell _ rest =>
    have := decidableMeaningful p rest
    inferInstanceAs (Decidable (_ ∧ _))
  | .ifNonzero _ body rest | .whileNonzero _ body rest =>
    have := decidableMeaningful p body
    have := decidableMeaningful p rest
    inferInstanceAs (Decidable (_ ∧ _ ∧ _))
  | .call _ _ rest | .builtin _ _ rest =>
    have := decidableMeaningful p rest
    inferInstanceAs (Decidable (_ ∧ _ ∧ _))

/-- A block with a meaning names no built-in that resizes the frame or is an end of a loop. -/
theorem Meaningful.builtins {p : MacroProgram} {block : Block} (h : p.Meaningful block) :
    ∀ b ∈ p.builtins block, ¬ b.IsControl := by
  induction block with
  | done => exact nofun
  | localCell x rest ih => exact ih h.2
  | ifNonzero c body rest ihbody ihrest | whileNonzero c body rest ihbody ihrest =>
    intro b hb
    rcases List.mem_append.1 hb with hb | hb
    · exact ihbody h.2.1 b hb
    · exact ihrest h.2.2 b hb
  | call f args rest ih =>
    intro b hb
    rcases List.mem_append.1 hb with hb | hb
    · cases hf : p.find? f with
      | some m => rw [hf] at hb; cases hb
      | none =>
        rw [hf] at hb
        obtain ⟨-, hmacro | hbuiltin, -⟩ := h
        · rw [hf] at hmacro; cases hmacro
        · exact hbuiltin b (Option.mem_toList.1 hb)
    · exact ih h.2.2 b hb
  | builtin b args rest ih =>
    intro b' hb'
    rcases List.mem_cons.1 hb' with rfl | hb'
    · exact h.2.1
    · exact ih h.2.2 b' hb'

theorem Meaningful.structured {p : MacroProgram} {block : Block} (h : p.Meaningful block) :
    p.Structured block := by
  intro b hb
  have hcontrol := h.builtins b hb
  constructor
  · rintro rfl; exact hcontrol trivial
  · rintro rfl; exact hcontrol trivial

end MacroProgram

/-! ## Names -/

theorem Referent.Means.append {cells : List Int} {r : Referent} {a : Atom} (h : r.Means cells a)
    (more : List Int) : r.Means (cells ++ more) a := by
  cases h with
  | var hi =>
    refine .var ?_
    rw [List.getElem?_append_left (List.getElem?_eq_some_iff.1 hi).1]
    exact hi
  | int n => exact .int n
  | text t => exact .text t

/-- Whatever a visible name is bound to is what it stands for when variables are in the given
cells. -/
def Environment.Agrees (env : Environment) (cells : List Int) (s : Scopes) : Prop :=
  ∀ x a, s.get (.visible x) = .ok a → ∃ r, env.lookup x = some r ∧ r.Means cells a

namespace Environment.Agrees

variable {env : Environment} {cells : List Int} {s : Scopes}

theorem push (h : env.Agrees cells s) : env.Agrees cells s.push :=
  fun x a hx => h x a hx

/-- A hidden cell means nothing to the program. -/
theorem ownHidden (h : env.Agrees cells s) {text : String} (o : Int) :
    env.Agrees cells (s.own [(.concealed text, o)]) := by
  intro x a hx
  rw [Scopes.get_own (by simp [Symbol.visible, Symbol.concealed])] at hx
  exact h x a hx

/-- A name that is bound to something new, with or without a new cell. -/
theorem bindName (h : env.Agrees cells s) {r : Referent} {value : Atom} (hr : r.Means cells value)
    (x : String) : Agrees ((x, r) :: env) cells (s.bindName (.visible x) value) := by
  intro y a hy
  by_cases hxy : y = x
  · subst hxy
    obtain rfl : value = a := by simpa [Scopes.get, Scopes.bindName, lookupIn] using hy
    exact ⟨r, by simp, hr⟩
  · have hne : (Symbol.visible y == Symbol.visible x) = false := by simp [Symbol.visible, hxy]
    simp only [Scopes.get, Scopes.bindName, lookupIn, List.lookup_cons, hne] at hy
    obtain ⟨r', hr', hmeans⟩ := h y a hy
    have hne' : (y == x) = false := by simpa using hxy
    exact ⟨r', by simp [List.lookup_cons, hne', hr'], hmeans⟩

/-- A local cell is a new variable. -/
theorem own (h : env.Agrees cells s) (x : String) (o : Int) :
    Agrees ((x, .var cells.length) :: env) (cells ++ [o]) (s.own [(.visible x, o)]) := by
  have hold : env.Agrees (cells ++ [o]) s := fun y a hy => by
    obtain ⟨r, hr, hmeans⟩ := h y a hy
    exact ⟨r, hr, hmeans.append [o]⟩
  exact hold.bindName (.var (by simp)) x

theorem bind (h : env.Agrees cells s) {rs : List Referent} {values : List Atom}
    (hrs : List.Forall₂ (Referent.Means cells) rs values) (params : List String) :
    Agrees (env.bind params rs) cells (s.bindNames (params.map .visible) values) := by
  induction params generalizing env s rs values with
  | nil => exact h
  | cons x params ih =>
    cases hrs with
    | nil => exact h
    | cons hr hrest => exact ih (h.bindName hr x) hrest

/-- An operand stands for what the compiler finds for it. -/
theorem meaning (h : env.Agrees cells s) {a value : Atom} (ha : a.IsOperand)
    (hvalue : s.resolve a = .ok value) : ∃ r, env.meaning? a = some r ∧ r.Means cells value := by
  cases a with
  | name x =>
    obtain ⟨x, hidden⟩ := x
    cases (show hidden = false from ha)
    exact h x value hvalue
  | int n => cases hvalue; exact ⟨_, rfl, .int n⟩
  | text t => cases hvalue; exact ⟨_, rfl, .text t⟩
  | address o => cases ha

theorem meanings (h : env.Agrees cells s) {args values : List Atom}
    (hargs : ∀ a ∈ args, a.IsOperand) (hvalues : s.resolveEach args = .ok values) :
    ∃ rs, env.meanings? args = some rs ∧ List.Forall₂ (Referent.Means cells) rs values := by
  induction args generalizing values with
  | nil => cases hvalues; exact ⟨[], rfl, .nil⟩
  | cons a args ih =>
    obtain ⟨value, hvalue, hvalues⟩ := except_bind_eq_ok.1 hvalues
    obtain ⟨others, hothers, hvalues⟩ := except_bind_eq_ok.1 hvalues
    cases hvalues
    obtain ⟨r, hr, hmeans⟩ := h.meaning (hargs a List.mem_cons_self) hvalue
    obtain ⟨rs, hrs, hall⟩ := ih (fun b hb => hargs b (List.mem_cons_of_mem _ hb)) hothers
    exact ⟨r :: rs, by simp [meanings?, hr, hrs], .cons hmeans hall⟩

end Environment.Agrees

/-! ## Cells -/

/-- A new cell for one more variable. -/
theorem Frame.Layout.allocate {f f' : Frame} {cells : List Int} (h : f.Layout cells) {o : Int}
    (ho : Frame.allocate f = .ok o f') :
    f'.Layout (cells ++ [o]) ∧ f'.Layout cells ∧ o ∉ cells := by
  obtain ⟨-, hfree, hmem⟩ := Frame.allocate_ok ho
  have hout : o ∉ cells := h.notMem hfree (Frame.allocate_nonneg ho)
  have hold : ∀ p ∈ cells, p ∈ f'.cells.offsets ∨ p < 0 := fun p hp =>
    (h.held p hp).imp_left fun hheld => (hmem p).2 (Or.inr hheld)
  refine ⟨⟨?_, ?_⟩, ⟨h.nodup, hold⟩, hout⟩
  · refine List.nodup_append.2 ⟨h.nodup, List.nodup_singleton o, ?_⟩
    rintro p hp q hq rfl
    exact hout (List.mem_singleton.1 hq ▸ hp)
  · intro p hp
    rcases List.mem_append.1 hp with hp | hp
    · exact hold p hp
    · exact Or.inl ((hmem p).2 (Or.inl (List.mem_singleton.1 hp)))

theorem Frame.Layout.of_cells {f f' : Frame} {cells : List Int} (h : f.Layout cells)
    (hcells : f'.cells = f.cells) : f'.Layout cells :=
  ⟨h.nodup, by rw [hcells]; exact h.held⟩

namespace Evaluator

/-- A block that takes no cells leaves names and variables where they are. -/
theorem Owns.layout {s t : Evaluator} (h : Owns s [] t) {cells : List Int}
    (hlayout : s.frame.Layout cells) : t.frame.Layout cells :=
  ⟨hlayout.nodup, fun o ho => (hlayout.held o ho).imp_left fun hheld => (h.mem_cells o).2
    (Or.inr hheld)⟩

/-- Closing a scope writes no code. -/
theorem emitter_envEnd {s t : Evaluator} {v : Value} (h : evaluate Statement.envEnd s = .ok v t) :
    t.frame.emitter = s.frame.emitter := by
  obtain ⟨f, ⟨scope, outer⟩⟩ := s
  cases outer with
  | nil =>
    rw [Statement.envEnd, evaluate_compound rfl] at h
    cases h
  | cons parent outer =>
    obtain ⟨f', hfree, rfl⟩ := evaluate_envEnd h
    exact Frame.emitter_freeAll hfree

end Evaluator

/-! ## Conditions -/

section
variable {p : MacroProgram} {body : Block} {inner : List Node} {f : Frame} {scopes : Scopes}
    {u : Evaluator}

/-- A loop is closed on the cell that it was opened on. -/
theorem Expands.closes_where_opened (hexpands : Expands p body inner)
    (hp : ∀ m ∈ p.macros, p.Structured m.body) (hstructured : p.Structured body) {o o' : Int}
    {f₀ f' : Frame} (hbegin : Frame.beginLoop o f₀ = .ok () f)
    (hinner : Evaluator.run inner ⟨f, scopes⟩ = .ok () u)
    (hend : Frame.endLoop o' u.frame = .ok () f') : o' = o := by
  have hopened := Emitter.loops_beginLoop hbegin
  have hkept : u.frame.emitter.loops = f.emitter.loops :=
    (hexpands.obeys_loops hp hstructured).1 _ _ _ hinner
  have hclosed := Emitter.loops_endLoop hend
  rw [hkept, hopened] at hclosed
  exact (List.cons.inj hclosed).1.symm

/-- The copy of a condition has its name through the body, which declares visible names only. -/
theorem Expands.conditionCopy_kept (hexpands : Expands p body inner) {x y : Int}
    (hinner : Evaluator.run inner ⟨f, scopes.own [(conditionCopy, x)]⟩ = .ok () u)
    (hy : u.scopes.get conditionCopy = .ok (.address y)) : y = x := by
  obtain ⟨owned, hnames, howned⟩ := hexpands.owns hinner
  have hout : conditionCopy ∉ owned.map (·.1) := by
    rw [hnames]
    simp [conditionCopy, Symbol.visible, Symbol.concealed]
  rw [howned.scopes, Scopes.get_own hout] at hy
  simpa [Scopes.own, Scopes.get, Scopes.releaseOnExit, Scopes.bindName, lookupIn] using hy.symm

end

/-! ## Blocks -/

namespace MacroProgram

/-- What a variable holds at first is of no importance if it is cleared at once. -/
theorem exec_declare (p : MacroProgram) (fresh : UInt8) {x : String} {block : Block}
    (h : block.clearsFirst x) (n : Nat) (env : Environment) (w : World) (a b : UInt8) :
    p.exec fresh n ((x, .var w.vars.length) :: env) block (w.declare a) =
      p.exec fresh n ((x, .var w.vars.length) :: env) block (w.declare b) := by
  obtain ⟨rest, rfl⟩ := Block.eq_of_clearsFirst h
  cases n with
  | zero => rfl
  | succ n =>
    have hset : ∀ c, (w.declare c).set w.vars.length 0 = w.declare 0 := fun c => by
      simp [World.declare, World.set]
    simp [exec, Environment.meanings?, Environment.meaning?, Symbol.visible, Builtin.perform, hset]

/-- The execution of a block with its end. -/
def execBlock (p : MacroProgram) (fresh : UInt8) (env : Environment) (block : Block) (count : Nat)
    (n : Nat) (w : World) : Execution :=
  (p.exec fresh n env block w).close count

/-- However the block comes to be evaluated, the code that is written does what the block means. -/
def Realizes (p : MacroProgram) (fresh : UInt8) (block : Block) (nodes : List Node) : Prop :=
  ∀ ⦃s t : Evaluator⦄ ⦃cells : List Int⦄ ⦃env : Environment⦄, Evaluator.run nodes s = .ok () t →
    s.frame.Layout cells → env.Agrees cells s.scopes →
    s.frame.Realizes t.frame cells (p.execBlock fresh env block cells.length)

section
variable {p : MacroProgram} {fresh : UInt8} {env : Environment} {body rest : Block}
  {inner out : List Node} {c : Atom} {count n i : Nat} {w : World}

theorem execBlock_if (hc : env.meaning? c = some (.var i)) (hw : w.vars.length = count) :
    p.execBlock fresh env (.ifNonzero c body rest) count (n + 1) w =
      (if w.get i = 0 then .finished w else p.execBlock fresh env body count n w).andThen
        (p.execBlock fresh env rest count n) := by
  simp only [execBlock, exec, hc, hw]
  by_cases hzero : w.get i = 0
  · simp only [if_pos hzero]
    rfl
  · simp only [if_neg hzero, Execution.close_andThen]
    rfl

theorem execBlock_while (hc : env.meaning? c = some (.var i)) (hw : w.vars.length = count) :
    p.execBlock fresh env (.whileNonzero c body rest) count (n + 1) w =
      if w.get i = 0 then p.execBlock fresh env rest count n w
      else (p.execBlock fresh env body count n w).andThen
        (p.execBlock fresh env (.whileNonzero c body rest) count n) := by
  simp only [execBlock, exec, hc, hw]
  by_cases hzero : w.get i = 0
  · simp only [if_pos hzero]
  · simp only [if_neg hzero, Execution.close_andThen]
    rfl

theorem execBlock_call {f : String} {m : Macro} {args : List Atom} {rs : List Referent}
    (hm : p.find? f = some m) (hlen : m.params.length = args.length)
    (hrs : env.meanings? args = some rs) (hw : w.vars.length = count) :
    p.execBlock fresh env (.call f args rest) count (n + 1) w =
      (p.execBlock fresh (env.bind m.params rs) m.body count n w).andThen
        (p.execBlock fresh env rest count n) := by
  simp only [execBlock, exec, hm, hrs, hlen, if_true, hw, Execution.close_andThen]
  rfl

theorem execBlock_builtin {b : Builtin} {args : List Atom} {rs : List Referent} {w' : World}
    (hrs : env.meanings? args = some rs) (hperform : b.perform rs w = some w') :
    p.execBlock fresh env (.builtin b args rest) count (n + 1) w =
      p.execBlock fresh env rest count n w' := by
  simp only [execBlock, exec, hrs, Option.bind_some, hperform]

/-- A call of a built-in by its name. -/
theorem execBlock_callBuiltin {f : String} {b : Builtin} (args : List Atom) (hf : p.find? f = none)
    (hb : Builtin.ofName? f = some b) :
    p.execBlock fresh env (.call f args rest) count =
      p.execBlock fresh env (.builtin b args rest) count := by
  funext n w
  cases n with
  | zero => rfl
  | succ n =>
    simp only [execBlock, exec, hf, hb, Option.bind_some]
    cases env.meanings? args <;> rfl

namespace Realizes

open Evaluator (run Owns run_append_ok run_cons_ok run_single_ok)

theorem done : p.Realizes fresh .done [] := by
  intro s t cells env hrun _ _
  cases hrun
  have hnothing : s.frame.Simulates s.frame cells id :=
    ⟨_, Emitter.Performs.refl _, fun _ _ hw => hw⟩
  refine (Frame.Realizes.of_simulates hnothing).later (fun _ => rfl) fun n w hw => ?_
  simp only [execBlock, exec, Execution.close, World.close, ← hw, List.take_length]
  rfl

theorem localCell {x : String} (hclears : rest.clearsFirst x) (hrest : p.Realizes fresh rest out) :
    p.Realizes fresh (.localCell x rest) (localStatements (.literal x) ++ out) := by
  intro s t cells env hrun hlayout hagrees
  obtain ⟨u, hlocal, hout⟩ := run_append_ok.1 hrun
  obtain ⟨o, f, ho, rfl⟩ := Evaluator.run_localStatements hlocal
  have hcode := hrest hout (hlayout.allocate ho).1 (hagrees.own x o)
  refine (hcode.declare (Frame.allocate_ok ho).1 ?_).later (fun _ => rfl) fun n w _ => rfl
  intro n w value hw
  simp only [execBlock, exec_localCell]
  rw [Execution.close_close (by simp), ← hw, p.exec_declare fresh hclears n env w value fresh]

theorem invoke {b : Builtin} {args : List Atom} (hargs : ∀ a ∈ args, a.IsOperand)
    (hb : ¬ b.IsControl) {s t : Evaluator} {cells : List Int}
    (hrun : run [Statement.invoke b args] s = .ok () t) (hlayout : s.frame.Layout cells)
    (hagrees : env.Agrees cells s.scopes) :
    ∃ rs change, env.meanings? args = some rs ∧ (∀ w, b.perform rs w = some (change w)) ∧
      s.frame.Simulates t.frame cells change := by
  obtain ⟨v, hv⟩ := run_single_ok.1 hrun
  obtain ⟨values, f, hvalues, hf, rfl⟩ := Evaluator.evaluate_invoke_ok hv
  obtain ⟨rs, hrs, hmeans⟩ := hagrees.meanings hargs hvalues
  obtain ⟨change, hchange, hsim⟩ := Frame.invoke_simulates hb hlayout hmeans hf
  exact ⟨rs, change, hrs, hchange, hsim⟩

/-- The rest of a block, after statements that keep no cells. -/
theorem afterOwning (hrest : p.Realizes fresh rest out) {s u t : Evaluator} (howns : Owns s [] u)
    (hout : run out u = .ok () t) {cells : List Int} (hlayout : s.frame.Layout cells)
    (hagrees : env.Agrees cells s.scopes) :
    u.frame.Realizes t.frame cells (p.execBlock fresh env rest cells.length) := by
  refine hrest hout (howns.layout hlayout) ?_
  rw [howns.scopes]
  exact hagrees

theorem builtin {b : Builtin} {args : List Atom} (hargs : ∀ a ∈ args, a.IsOperand)
    (hb : ¬ b.IsControl) (hrest : p.Realizes fresh rest out) :
    p.Realizes fresh (.builtin b args rest) (Statement.invoke b args :: out) := by
  intro s t cells env hrun hlayout hagrees
  obtain ⟨u, hinvoke, hout⟩ := (run_append_ok (a := [Statement.invoke b args])).1 hrun
  obtain ⟨rs, change, hrs, hchange, hsim⟩ := invoke hargs hb hinvoke hlayout hagrees
  have howns := Owns.invoke hinvoke
  have hcode := hrest.afterOwning howns hout hlayout hagrees
  refine ((Frame.Realizes.of_simulates hsim).andThen hcode).later (fun _ => rfl) fun n w _ => ?_
  exact execBlock_builtin hrs (hchange w)

theorem callBuiltin {f : String} {b : Builtin} {args : List Atom} (hargs : ∀ a ∈ args, a.IsOperand)
    (hf : p.find? f = none) (hb : Builtin.ofName? f = some b) (hcontrol : ¬ b.IsControl)
    (hrest : p.Realizes fresh rest out) :
    p.Realizes fresh (.call f args rest) (Statement.invoke b args :: out) := by
  intro s t cells env hrun hlayout hagrees
  rw [execBlock_callBuiltin args hf hb]
  exact builtin hargs hcontrol hrest hrun hlayout hagrees

theorem whileNonzero (hp : ∀ m ∈ p.macros, p.Structured m.body) (hexpands : Expands p body inner)
    (hstructured : p.Structured body) (hc : c.IsOperand) (hbody : p.Realizes fresh body inner)
    (hrest : p.Realizes fresh rest out) :
    p.Realizes fresh (.whileNonzero c body rest) (whileStatements c inner ++ out) := by
  intro s t cells env hrun hlayout hagrees
  obtain ⟨u, hwhile, hout⟩ := run_append_ok.1 hrun
  have howns : Owns s [] u := .ofWhile hexpands.owns_something hwhile
  obtain ⟨o, f, u', o', f', v, ho, hbegin, hinner, -, hend, hclose⟩ :=
    Evaluator.run_whileStatements hwhile
  obtain rfl : o' = o := hexpands.closes_where_opened hp hstructured hbegin hinner hend
  obtain ⟨r, hr, hmeans⟩ := hagrees.meaning hc ho
  cases hmeans with
  | var hi =>
    have hlayout' : f.Layout cells := hlayout.of_cells (Frame.cells_emit hbegin)
    have hX := hbody hinner hlayout' hagrees.push
    have hY := hrest.afterOwning howns hout hlayout hagrees
    refine hX.loop hi hbegin hend (hY.of_emitter (Evaluator.emitter_envEnd hclose).symm rfl)
      (fun _ => rfl) fun n w hw => ?_
    exact execBlock_while hr hw

theorem ifNonzero (hexpands : Expands p body inner) (hc : c.IsOperand)
    (hbody : p.Realizes fresh body inner) (hrest : p.Realizes fresh rest out) :
    p.Realizes fresh (.ifNonzero c body rest) (expandedIf c inner ++ out) := by
  intro s t cells env hrun hlayout hagrees
  obtain ⟨u, hif, hout⟩ := run_append_ok.1 hrun
  have howns : Owns s [] u := .ofIf hexpands.owns_something hif
  obtain ⟨x, f₁, src, f₂, f₃, u', y, f₄, f₅, v, hx, hsrc, hcopy, hbegin, hinner, hy, hclear, hend,
      hclose⟩ :=
    Evaluator.run_expandedIf hif
  obtain ⟨-, hlayout₁, hxcells⟩ := hlayout.allocate hx
  have hagrees' : env.Agrees cells (s.scopes.push.own [(conditionCopy, x)]) :=
    hagrees.push.ownHidden x
  obtain rfl : y = x := hexpands.conditionCopy_kept hinner hy
  obtain ⟨r, hr, hmeans⟩ := hagrees'.meaning hc hsrc
  cases hmeans with
  | var hi =>
    have hlayout₃ : f₃.Layout cells := hlayout₁.of_cells
      ((Frame.cells_emit hbegin).trans ((Frame.restores_compositional.copy src y).1 _ _ _ hcopy))
    have hX := hbody hinner hlayout₃ hagrees'
    have hY := hrest.afterOwning howns hout hlayout hagrees
    have hcond := Frame.Realizes.conditional hlayout₁ hi hxcells hcopy hbegin hX hclear hend
    have hcode := (hcond.of_emitter (Frame.allocate_ok hx).1.symm
      (Evaluator.emitter_envEnd hclose)).andThen hY
    exact hcode.later (fun _ => rfl) fun n w hw => execBlock_if hr hw

theorem callMacro {f : String} {args : List Atom} {m : Macro} (hfind : p.find? f = some m)
    (hlen : m.params.length = args.length) (hexpands : Expands p m.body inner)
    (hargs : ∀ a ∈ args, a.IsOperand) (hbody : p.Realizes fresh m.body inner)
    (hrest : p.Realizes fresh rest out) :
    p.Realizes fresh (.call f args rest) (expandedCall m.params args inner ++ out) := by
  intro s t cells env hrun hlayout hagrees
  obtain ⟨u, hcall, hout⟩ := run_append_ok.1 hrun
  have howns : Owns s [] u := .ofCall hlen hexpands.owns_something hcall
  obtain ⟨values, u₁, v, hvalues, hscope, hclose⟩ := Evaluator.run_expandedCall hlen hcall
  obtain ⟨u₂, hinner, v', hclose'⟩ := Evaluator.run_inScope_ok.1 hscope
  obtain ⟨rs, hrs, hmeans⟩ := hagrees.meanings hargs hvalues
  have hX := hbody hinner hlayout (hagrees.push.bind hmeans m.params).push
  have hY := hrest.afterOwning howns hout hlayout hagrees
  have hemitter : u.frame.emitter = u₂.frame.emitter :=
    (Evaluator.emitter_envEnd hclose).trans (Evaluator.emitter_envEnd hclose')
  exact ((hX.of_emitter rfl hemitter).andThen hY).later (fun _ => rfl) fun n w hw =>
    execBlock_call hfind hlen hrs hw

end Realizes

end

end MacroProgram

/-- **The code of a block does what the block means.** -/
theorem Expands.realizes {p : MacroProgram} (hp : ∀ m ∈ p.macros, p.Meaningful m.body)
    (fresh : UInt8) {block : Block} {nodes : List Node} (h : Expands p block nodes)
    (hblock : p.Meaningful block) : p.Realizes fresh block nodes := by
  have hstructured : ∀ m ∈ p.macros, p.Structured m.body := fun m hm => (hp m hm).structured
  induction h with
  | done => exact .done
  | localCell _ ih => exact .localCell hblock.1 (ih hblock.2)
  | ifNonzero hbody _ ihbody ihrest =>
    exact .ifNonzero hbody hblock.1 (ihbody hblock.2.1) (ihrest hblock.2.2)
  | whileNonzero hbody _ ihbody ihrest =>
    exact .whileNonzero hstructured hbody hblock.2.1.structured hblock.1 (ihbody hblock.2.1)
      (ihrest hblock.2.2)
  | callMacro hfind hlen hbody _ ihbody ihrest =>
    exact .callMacro hfind hlen hbody hblock.1 (ihbody (hp _ (MacroProgram.mem_of_find? hfind)))
      (ihrest hblock.2.2)
  | callBuiltin hfind hb _ ih =>
    refine .callBuiltin hblock.1 hfind hb ?_ (ih hblock.2.2)
    rcases hblock.2.1 with hmacro | hbuiltin
    · rw [hfind] at hmacro; cases hmacro
    · exact hbuiltin _ hb
  | builtin _ ih => exact .builtin hblock.1 hblock.2.1 (ih hblock.2.2)

end TapeToolchain
