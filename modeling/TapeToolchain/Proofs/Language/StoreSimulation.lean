import TapeToolchain.Proofs.Language.Placement
import TapeToolchain.Proofs.Language.Stores

/-!
The code of a block does what the block does to stores. The variables of a store are in cells of the
frame, and its stack is below the base, wherever that is. When a block comes to its end on a store,
its code leads to a base and a memory that hold the store at the end (`Expands.leads`). A callee has
the cells of its arguments for variables, and spares all the others.
-/

namespace TapeToolchain

open Desugaring (localStatements whileStatements conditionCopy)

/-! ## Stores in memory -/

/-- The offsets of the stack's places, the top first. -/
def stackOffsets (n : Nat) : List Int :=
  (List.range n).map fun k : Nat => -((k : Int) + 1)

@[simp] theorem length_stackOffsets (n : Nat) : (stackOffsets n).length = n := by
  simp [stackOffsets]

theorem getElem?_stackOffsets {n k : Nat} (h : k < n) :
    (stackOffsets n)[k]? = some (-((k : Int) + 1)) := by
  simp [stackOffsets, h]

theorem mem_stackOffsets {n : Nat} {o : Int} :
    o ∈ stackOffsets n ↔ ∃ k < n, -((k : Int) + 1) = o := by
  simp [stackOffsets]

theorem nodup_stackOffsets (n : Nat) : (stackOffsets n).Nodup :=
  List.nodup_range.map fun a c h => by
    have : -((a : Int) + 1) = -((c : Int) + 1) := h
    omega

/-- The stack has places below the frame, and so none of the variables in the frame. -/
theorem Frame.Layout.append_stack {f : Frame} {cells : List Int} (h : f.Layout cells) {depth : Nat}
    (habove : 0 < depth → ∀ o ∈ cells, 0 ≤ o) : f.Layout (cells ++ stackOffsets depth) := by
  refine ⟨List.nodup_append.2 ⟨h.nodup, nodup_stackOffsets _, ?_⟩, fun o ho => ?_⟩
  · rintro o ho o' ho' rfl
    obtain ⟨k, hk, rfl⟩ := mem_stackOffsets.1 ho'
    have := habove (by omega) _ ho
    omega
  · rcases List.mem_append.1 ho with ho | ho
    · exact h.held o ho
    · obtain ⟨k, -, rfl⟩ := mem_stackOffsets.1 ho
      exact Or.inr (by omega)

/-- The variables of the store are in cells of the frame, with its base at `b`, and its stack is
below. -/
structure Store.At (st : Store) (b : Int) (cells : List Int) (m : Memory) : Prop where
  vars : st.vars = cells.map fun o => m.cells (b + o)
  below : st.below = (stackOffsets st.below.length).map fun o => m.cells (b + o)
  input : st.input = m.input
  output : st.output = m.output

namespace Store.At

variable {st : Store} {b : Int} {cells : List Int} {m : Memory}

theorem length_vars (h : st.At b cells m) : st.vars.length = cells.length := by
  rw [h.vars, List.length_map]

theorem heldAt (h : st.At b cells m) :
    st.world.HeldAt b (cells ++ stackOffsets st.below.length) m := by
  refine ⟨?_, h.input, h.output⟩
  rw [List.map_append, ← h.vars, ← h.below]
  rfl

theorem get (h : st.At b cells m) {i : Nat} {o : Int} (hi : cells[i]? = some o) :
    m.cells (b + o) = st.get i := by
  refine h.heldAt.get ?_
  rw [List.getElem?_append_left (List.getElem?_eq_some_iff.1 hi).1]
  exact hi

/-- The bytes of a row are the variables and the stack. -/
theorem update (hlength : st.vars.length = cells.length) {w : World}
    (h : w.HeldAt b (cells ++ stackOffsets st.below.length) m) : (st.update w).At b cells m := by
  have hvars := h.vars
  rw [List.map_append] at hvars
  have hbelow : (st.update w).below = (stackOffsets st.below.length).map fun o =>
      m.cells (b + o) := by
    cases hstack : st.stack with
    | none => simp [Store.update, Store.below, hstack, stackOffsets]
    | some bytes =>
      simp only [Store.update, Store.below, hstack, Option.map_some, Option.getD_some]
      rw [hvars, hlength, List.drop_left' (by simp), Store.below, hstack, Option.getD_some]
  refine ⟨?_, ?_, h.input, h.output⟩
  · simp only [Store.update]
    rw [hvars, hlength, List.take_left' (by simp)]
  · rw [hbelow, List.length_map, length_stackOffsets]

theorem declare (h : st.At b cells m) (o : Int) :
    (st.declare (m.cells (b + o))).At b (cells ++ [o]) m := by
  refine ⟨?_, h.below, h.input, h.output⟩
  rw [Store.declare, h.vars, List.map_append, List.map_singleton]

theorem close {o : Int} (h : st.At b (cells ++ [o]) m) : (st.close cells.length).At b cells m := by
  refine ⟨?_, h.below, h.input, h.output⟩
  rw [Store.close, h.vars, List.map_append]
  exact List.take_left' (List.length_map _)

/-- A change to another cell of the frame. -/
theorem set (h : st.At b cells m) {x : Int} (hx : x ∉ cells) (hnonneg : 0 ≤ x) (v : UInt8) :
    st.At b cells (m.set (b + x) v) := by
  refine ⟨?_, ?_, h.input, h.output⟩
  · rw [h.vars]
    refine List.map_congr_left fun o ho => ?_
    have hne : o ≠ x := fun heq => hx (heq ▸ ho)
    simp [hne]
  · conv_lhs => rw [h.below]
    refine List.map_congr_left fun o ho => ?_
    obtain ⟨k, -, rfl⟩ := mem_stackOffsets.1 ho
    have hne : b + -((k : Int) + 1) ≠ b + x := by omega
    rw [Memory.cells_set, if_neg hne]

end Store.At

/-! ## Names -/

/-- Every name of the environment is bound to what it stands for when variables are in the given
cells. -/
def Environment.Known (env : Environment) (cells : List Int) (s : Scopes) : Prop :=
  ∀ x r, env.lookup x = some r → ∃ a, s.get (.visible x) = .ok a ∧ r.Means cells a

namespace Environment.Known

variable {env : Environment} {cells : List Int} {s : Scopes}

theorem nil (cells : List Int) (s : Scopes) : Known [] cells s :=
  fun _ _ h => absurd h (by simp)

theorem push (h : env.Known cells s) : env.Known cells s.push :=
  fun x r hx => h x r hx

theorem ownHidden (h : env.Known cells s) {text : String} (o : Int) :
    env.Known cells (s.own [(.concealed text, o)]) := by
  intro x r hx
  rw [Scopes.get_own (by simp [Symbol.visible, Symbol.concealed])]
  exact h x r hx

theorem bindName (h : env.Known cells s) {r : Referent} {value : Atom} (hr : r.Means cells value)
    (x : String) : Known ((x, r) :: env) cells (s.bindName (.visible x) value) := by
  intro y r' hy
  by_cases hxy : y = x
  · subst hxy
    obtain rfl : r = r' := by simpa using hy
    exact ⟨value, by simp [Scopes.get, Scopes.bindName, lookupIn], hr⟩
  · have hne : (Symbol.visible y == Symbol.visible x) = false := by simp [Symbol.visible, hxy]
    have hne' : (y == x) = false := by simpa using hxy
    rw [List.lookup_cons, hne'] at hy
    obtain ⟨a, ha, hmeans⟩ := h y r' hy
    refine ⟨a, ?_, hmeans⟩
    simp only [Scopes.get, Scopes.bindName, lookupIn, List.lookup_cons, hne]
    exact ha

theorem own (h : env.Known cells s) (x : String) (o : Int) :
    Known ((x, .var cells.length) :: env) (cells ++ [o]) (s.own [(.visible x, o)]) := by
  have hold : env.Known (cells ++ [o]) s := fun y r hy => by
    obtain ⟨a, ha, hmeans⟩ := h y r hy
    exact ⟨a, ha, hmeans.append [o]⟩
  exact hold.bindName (.var (by simp)) x

theorem bind (h : env.Known cells s) {rs : List Referent} {values : List Atom}
    (hrs : List.Forall₂ (Referent.Means cells) rs values) (params : List String) :
    Known (env.bind params rs) cells (s.bindNames (params.map .visible) values) := by
  induction params generalizing env s rs values with
  | nil => exact h
  | cons x params ih =>
    cases hrs with
    | nil => exact h
    | cons hr hrest => exact ih (h.bindName hr x) hrest

/-- The compiler finds for an operand what it stands for. -/
theorem meaning (h : env.Known cells s) {a : Atom} {r : Referent} (hr : env.meaning? a = some r) :
    ∃ value, s.resolve a = .ok value ∧ r.Means cells value := by
  cases a with
  | name x =>
    obtain ⟨x, hidden⟩ := x
    cases hidden with
    | false => exact h x r hr
    | true => cases hr
  | int n => cases hr; exact ⟨_, rfl, .int n⟩
  | text t => cases hr; exact ⟨_, rfl, .text t⟩
  | address o => cases hr

theorem place (h : env.Known cells s) {depth : Nat} {a : Atom} {r : Referent}
    (hr : env.place? cells.length depth a = some r) :
    ∃ value, s.resolve a = .ok value ∧ r.Means (cells ++ stackOffsets depth) value := by
  cases a with
  | address o =>
    simp only [Environment.place?] at hr
    split at hr
    · next hin =>
      cases hr
      refine ⟨.address o, rfl, .var ?_⟩
      rw [List.getElem?_append_right (Nat.le_add_right _ _), Nat.add_sub_cancel_left,
        getElem?_stackOffsets (by omega)]
      congr 1
      omega
    · cases hr
  | name x =>
    obtain ⟨value, hvalue, hmeans⟩ := h.meaning (a := .name x) hr
    exact ⟨value, hvalue, hmeans.append _⟩
  | int n => cases hr; exact ⟨_, rfl, .int n⟩
  | text t => cases hr; exact ⟨_, rfl, .text t⟩

theorem places (h : env.Known cells s) {depth : Nat} {args : List Atom} {rs : List Referent}
    (hrs : env.places? cells.length depth args = some rs) :
    ∃ values, s.resolveEach args = .ok values ∧
      List.Forall₂ (Referent.Means (cells ++ stackOffsets depth)) rs values := by
  induction args generalizing rs with
  | nil => cases hrs; exact ⟨[], rfl, .nil⟩
  | cons a args ih =>
    simp only [Environment.places?] at hrs
    split at hrs
    · next r others hr hothers =>
      cases hrs
      obtain ⟨value, hvalue, hmeans⟩ := h.place hr
      obtain ⟨values, hvalues, hall⟩ := ih hothers
      refine ⟨value :: values, ?_, .cons hmeans hall⟩
      rw [Scopes.resolveEach, hvalue]
      show (s.resolveEach args >>= fun rest => .ok (value :: rest)) = _
      rw [hvalues]
      rfl
    · cases hrs

theorem meanings (h : env.Known cells s) {st : Store} (hlength : st.vars.length = cells.length)
    {args : List Atom} {rs : List Referent} (hrs : st.meanings? env args = some rs) :
    ∃ values, s.resolveEach args = .ok values ∧
      List.Forall₂ (Referent.Means (cells ++ stackOffsets st.below.length)) rs values :=
  h.places (hlength ▸ hrs)

end Environment.Known

/-! ## What statements keep -/

/-- The evaluator is about to write code for a block, and the memory holds the store that the block
is to be run on. Only a block without a stack has variables below the base. -/
structure Evaluator.Hosts (s : Evaluator) (env : Environment) (cells : List Int) (st : Store)
    (b : Int) (m : Memory) : Prop where
  layout : s.frame.Layout cells
  nonneg : ∀ o ∈ s.frame.cells.offsets, 0 ≤ o
  known : env.Known cells s.scopes
  held : st.At b cells m
  above : st.stack ≠ none → ∀ o ∈ cells, 0 ≤ o

/-- From one store to the next. Without a stack the base stays, and cells are spared that are no
variables. -/
structure Frame.Passes (f : Frame) (cells : List Int) (st : Store) (b : Int) (m : Memory)
    (st' : Store) (b' : Int) (m' : Memory) : Prop where
  held : st'.At b' cells m'
  stack : st'.stack = none ↔ st.stack = none
  kept : st.stack = none → b' = b ∧ f.Spared b cells m m'

namespace Frame.Passes

variable {f g : Frame} {cells : List Int} {st st₁ st₂ : Store} {b b₁ b₂ : Int} {m m₁ m₂ : Memory}

theorem refl (f : Frame) (h : st.At b cells m) : f.Passes cells st b m st b m :=
  ⟨h, Iff.rfl, fun _ => ⟨rfl, fun _ _ _ => rfl⟩⟩

theorem trans (h₁ : f.Passes cells st b m st₁ b₁ m₁) (h₂ : g.Passes cells st₁ b₁ m₁ st₂ b₂ m₂)
    (hcells : ∀ o ∈ f.cells.offsets, o ∈ g.cells.offsets) : f.Passes cells st b m st₂ b₂ m₂ := by
  refine ⟨h₂.held, h₂.stack.trans h₁.stack, fun hnone => ?_⟩
  obtain ⟨rfl, hspared⟩ := h₁.kept hnone
  obtain ⟨rfl, hspared'⟩ := h₂.kept (h₁.stack.2 hnone)
  exact ⟨rfl, fun o ho hout => (hspared' o (ho.imp_left (hcells o)) hout).trans (hspared o ho hout)⟩

/-- A change to a free cell of the frame. -/
theorem set (h : f.Passes cells st b m st₁ b₁ m₁) {x : Int} (hx : x ∉ cells)
    (hfree : x ∉ f.cells.offsets) (hnonneg : 0 ≤ x) (v : UInt8) :
    f.Passes cells st b m st₁ b₁ (m₁.set (b₁ + x) v) := by
  refine ⟨h.held.set hx hnonneg v, h.stack, fun hnone => ?_⟩
  obtain ⟨rfl, hspared⟩ := h.kept hnone
  refine ⟨rfl, fun o ho hout => ?_⟩
  have hne : o ≠ x := by
    rintro rfl
    rcases ho with ho | ho
    · exact hfree ho
    · omega
  rw [← hspared o ho hout]
  simp [hne]

end Frame.Passes

namespace Evaluator.Hosts

variable {s u : Evaluator} {env : Environment} {cells : List Int} {st st' : Store} {b b' : Int}
  {m m' : Memory}

/-- The variables and the stack have different places. -/
theorem layout_row (h : s.Hosts env cells st b m) :
    s.frame.Layout (cells ++ stackOffsets st.below.length) :=
  h.layout.append_stack fun hpos => h.above fun hnone => by simp [Store.below, hnone] at hpos

/-- The next statement of the block. -/
theorem next (h : s.Hosts env cells st b m) (howns : Owns s [] u)
    (hpasses : s.frame.Passes cells st b m st' b' m') : u.Hosts env cells st' b' m' where
  layout := howns.layout h.layout
  nonneg o ho := by
    rcases (howns.mem_cells o).1 ho with hnew | ho
    · cases hnew
    · exact h.nonneg o ho
  known := by
    rw [howns.scopes]
    exact h.known
  held := hpasses.held
  above hstack := h.above fun hnone => hstack (hpasses.stack.2 hnone)

/-- What is left of a block after a statement that keeps no cells. -/
theorem andThen (h : s.Hosts env cells st b m) (howns : Owns s [] u) {Q R : Store → Prop}
    {t : Evaluator}
    (hfirst : s.frame.Leads u.frame b m fun b' m' =>
      ∃ st', R st' ∧ s.frame.Passes cells st b m st' b' m')
    (hrest : ∀ st' b' m', R st' → u.Hosts env cells st' b' m' →
      u.frame.Leads t.frame b' m' fun b'' m'' =>
        ∃ st'', Q st'' ∧ u.frame.Passes cells st' b' m' st'' b'' m'') :
    s.frame.Leads t.frame b m fun b' m' => ∃ st', Q st' ∧
      s.frame.Passes cells st b m st' b' m' := by
  refine hfirst.andThen fun b' m' ⟨st', hR, hpasses⟩ => ?_
  refine (hrest st' b' m' hR (h.next howns hpasses)).mono
    fun b'' m'' ⟨st'', hQ, hpasses'⟩ => ⟨st'', hQ, ?_⟩
  exact hpasses.trans hpasses' fun o ho => (howns.mem_cells o).2 (Or.inr ho)

end Evaluator.Hosts

/-! ## Built-ins -/

/-- With the stack in reach, every variable is in an occupied cell. -/
theorem Evaluator.Hosts.occupied {s : Evaluator} {env : Environment} {cells : List Int} {st : Store}
    {b : Int} {m : Memory} (h : s.Hosts env cells st b m) (hstack : st.stack ≠ none) {o : Int}
    (ho : o ∈ cells) : o ∈ s.frame.cells.offsets := by
  rcases h.layout.held o ho with hheld | hneg
  · exact hheld
  · have := h.above hstack o ho
    omega

/-- The frame is moved, and the variables with it; the bytes between its old and new base come to
the stack, or go from it. -/
theorem Evaluator.Hosts.relocate {s : Evaluator} {env : Environment} {cells : List Int} {st : Store}
    {b : Int} {m : Memory} (h : s.Hosts env cells st b m) (hstack : st.stack ≠ none) {g : Frame}
    {distance : Int} (hrelocates : s.frame.Relocates g distance) {bytes : List UInt8}
    (hbytes : ∀ k (hk : k < bytes.length), ((k : Int) < distance ∧ bytes.get ⟨k, hk⟩ = 0) ∨
      ∃ j : Nat, (k : Int) = j + distance ∧ st.below[j]? = some (bytes.get ⟨k, hk⟩)) :
    s.frame.Leads g b m fun b' m' =>
      s.frame.Passes cells st b m { st with stack := some bytes } b' m' := by
  refine (hrelocates.leads b m).mono fun b' m' ⟨hb, hinput, houtput, hmoved, hzero, hkept⟩ => ?_
  refine ⟨⟨?_, ?_, h.held.input.trans hinput.symm, h.held.output.trans houtput.symm⟩,
    by simp [hstack], fun hnone => absurd hnone hstack⟩
  · rw [h.held.vars]
    exact List.map_congr_left fun o ho => (hmoved o (h.occupied hstack ho)).symm
  · refine List.ext_getElem (by simp [Store.below]) fun k hk hk' => ?_
    have hk : k < bytes.length := hk
    simp only [Store.below, Option.getD_some, List.getElem_map, stackOffsets, List.getElem_range]
    rcases hbytes k hk with ⟨hlt, hnew⟩ | ⟨j, hj, hold⟩
    · rw [hzero _ (by omega) (by omega)]
      exact hnew
    · -- a byte of the old stack is where it was
      have hplace : b' + -((k : Int) + 1) = b + -((j : Int) + 1) := by omega
      have hsame : m'.cells (b + -((j : Int) + 1)) = m.cells (b + -((j : Int) + 1)) := by
        refine hkept _ (by omega) fun o ho => ?_
        have := h.nonneg o ho
        omega
      have hin : j < st.below.length := (List.getElem?_eq_some_iff.1 hold).1
      rw [hplace, hsame]
      rw [h.held.below, List.getElem?_map, getElem?_stackOffsets hin] at hold
      exact (Option.some.inj hold).symm

theorem Builtin.not_control_of_perform {bi : Builtin} {rs : List Referent} {w w' : World}
    (h : bi.perform rs w = some w') : ¬ bi.IsControl := by
  intro hcontrol
  cases bi with
  | beginLoop | endLoop | growStack | shrinkStack => simp [Builtin.perform] at h
  | _ => exact hcontrol

/-- A built-in does to the store what it means. -/
theorem Evaluator.Hosts.invoke {s u : Evaluator} {env : Environment} {cells : List Int}
    {st st' : Store} {b : Int} {m : Memory} (h : s.Hosts env cells st b m) {bi : Builtin}
    {args : List Atom} {rs : List Referent} (hargs : st.meanings? env args = some rs)
    (hperform : st.perform bi rs = some st') (hrun : run [Statement.invoke bi args] s = .ok () u) :
    s.frame.Leads u.frame b m fun b' m' => s.frame.Passes cells st b m st' b' m' := by
  obtain ⟨v, hv⟩ := run_single_ok.1 hrun
  obtain ⟨values, f, hvalues, hf, rfl⟩ := evaluate_invoke_ok hv
  obtain ⟨values', hvalues', hmeans⟩ := h.known.meanings h.held.length_vars hargs
  cases hvalues.symm.trans hvalues'
  unfold Store.perform at hperform
  split at hperform
  · -- zeros come to the stack
    next n bytes hstack =>
    cases hperform
    obtain ⟨a, _, ha, hnil, rfl⟩ := List.forall₂_cons_left_iff.1 hmeans
    cases hnil
    cases ha
    refine h.relocate (by simp [hstack]) (Frame.growStack_relocates h.nonneg hf) fun k hk => ?_
    by_cases hkn : k < n
    · refine Or.inl ⟨by omega, ?_⟩
      simp [List.getElem_append_left, hkn]
    · refine Or.inr ⟨k - n, by omega, ?_⟩
      have hkn' : n ≤ k := by omega
      simp only [List.get_eq_getElem, Store.below, hstack, Option.getD_some]
      rw [List.getElem_append_right (by simpa using hkn')]
      simp
  · -- bytes go from the stack
    next n bytes hstack =>
    split at hperform
    · next hn =>
      cases hperform
      obtain ⟨a, _, ha, hnil, rfl⟩ := List.forall₂_cons_left_iff.1 hmeans
      cases hnil
      cases ha
      refine h.relocate (by simp [hstack]) (Frame.shrinkStack_relocates h.nonneg hf) fun k hk => ?_
      refine Or.inr ⟨n + k, by omega, ?_⟩
      simp only [List.get_eq_getElem, Store.below, hstack, Option.getD_some, List.getElem_drop]
      simp at hk
      simp
    · cases hperform
  · -- everything else is about the row of bytes
    obtain ⟨w, hw, rfl⟩ := Option.map_eq_some_iff.1 hperform
    refine (Frame.invoke_leads (Builtin.not_control_of_perform hw) h.layout_row hmeans hf
      h.held.heldAt hw).mono fun b' m' ⟨hb, hheld, hspared⟩ => ?_
    subst hb
    refine ⟨Store.At.update h.held.length_vars hheld, by simp [Store.update],
      fun hnone => ⟨rfl, ?_⟩⟩
    simpa [Store.below, hnone, stackOffsets] using hspared

/-! ## Conditionals and loops -/

namespace Store

theorem get_declare {st : Store} {i : Nat} (hi : i < st.vars.length) (v : UInt8) :
    (st.declare v).get i = st.get i := by
  simp [get, World.get, world, declare, List.getElem?_append_left, hi]

/-- A variable that was only declared and set leaves nothing behind. -/
theorem close_update_declare (st : Store) (u v : UInt8) :
    ((st.declare v).update ((st.declare v).world.set st.vars.length u)).close st.vars.length =
      st := by
  have hrow : ((st.declare v).world.set st.vars.length u).vars = st.vars ++ u :: st.below := by
    simp [World.set, world, declare, below]
  obtain ⟨vars, stack, input, output⟩ := st
  simp only [update, close, hrow]
  cases stack <;> simp [declare, below, World.set, world, List.take_take]

end Store

theorem Frame.clear_leads {f g : Frame} {x : Int} (h : Frame.clear x f = .ok () g) (b : Int)
    (m : Memory) : f.Leads g b m fun b' m' => b' = b ∧ m' = m.set (b + x) 0 := by
  refine ((Frame.clear_performs h).leads b m).mono fun b' m' ⟨hb, hm⟩ => ⟨hb, ?_⟩
  rw [hm]
  refine Memory.ext_cells (fun q => ?_) rfl rfl
  have hiff : q + (f.emitter.base - b) = f.position x ↔ q = b + x := by
    simp only [Frame.position]
    omega
  have hsame : q + (f.emitter.base - b) + (b - f.emitter.base) = q := by omega
  simp only [Memory.cells_shifted, Memory.cells_set, hiff, hsame]

namespace Evaluator.Hosts

variable {s t u : Evaluator} {env : Environment} {cells : List Int} {st st' : Store} {b b' : Int}
  {m m' : Memory}

/-- The cell of a condition. -/
theorem condition (h : s.Hosts env cells st b m) {c : Atom} {i : Nat}
    (hc : env.meaning? c = some (.var i)) :
    ∃ o, s.scopes.resolve c = .ok (.address o) ∧ cells[i]? = some o := by
  obtain ⟨value, hvalue, hmeans⟩ := h.known.meaning hc
  cases hmeans with
  | var hi => exact ⟨_, hvalue, hi⟩

/-- One more variable, in a new cell. -/
theorem declare (h : s.Hosts env cells st b m) {f : Frame} {o : Int}
    (ho : Frame.allocate s.frame = .ok o f) (x : String) :
    Hosts ⟨f, s.scopes.own [(.visible x, o)]⟩ ((x, .var cells.length) :: env) (cells ++ [o])
      (st.declare (m.cells (b + o))) b m where
  layout := (h.layout.allocate ho).1
  nonneg q hq := by
    obtain ⟨-, -, hmem⟩ := Frame.allocate_ok ho
    rcases (hmem q).1 hq with rfl | hq
    · exact Frame.allocate_nonneg ho
    · exact h.nonneg q hq
  known := h.known.own x o
  held := h.held.declare o
  above hstack q hq := by
    rcases List.mem_append.1 hq with hq | hq
    · exact h.above hstack q hq
    · rw [List.mem_singleton.1 hq]
      exact Frame.allocate_nonneg ho

/-- The hidden copy of a condition is made in a cell that is no variable. -/
theorem copy (h : s.Hosts env cells st b m) {i : Nat} {src x : Int} {f₁ f₂ : Frame}
    (hi : cells[i]? = some src) (hx : Frame.allocate s.frame = .ok x f₁)
    (hcopy : Frame.copy src x f₁ = .ok () f₂) :
    f₁.Leads f₂ b m fun b' m' =>
      b' = b ∧ s.frame.Passes cells st b m st b m' ∧ m'.cells (b + x) = st.get i := by
  -- for the copy, the cell counts as one more variable
  have hmore := h.declare hx ""
  have hlt : i < cells.length := (List.getElem?_eq_some_iff.1 hi).1
  have hin : (cells ++ [x])[i]? = some src := by rw [List.getElem?_append_left hlt, hi]
  have hlast : (cells ++ [x])[cells.length]? = some x := by simp
  have hargs : List.Forall₂ (Referent.Means (cells ++ [x])) [.var i, .var cells.length]
      [.address src, .address x] := .cons (.var hin) (.cons (.var hlast) .nil)
  have hcontrol : ¬ Builtin.copy.IsControl := by decide
  refine (Frame.invoke_leads hcontrol hmore.layout_row
    (hargs.imp fun _ _ hr => hr.append _) hcopy hmore.held.heldAt rfl).mono
    fun b' m' ⟨hb, hheld, hspared⟩ => ?_
  subst hb
  have hlength := h.held.length_vars
  obtain ⟨-, hfree, hmem⟩ := Frame.allocate_ok hx
  refine ⟨rfl, ⟨?_, Iff.rfl, fun hnone => ⟨rfl, fun o ho hout => hspared o ?_ ?_⟩⟩, ?_⟩
  · have hclosed := (Store.At.update hmore.held.length_vars hheld).close
    rwa [← hlength, Store.close_update_declare] at hclosed
  · exact ho.imp_left fun hpool => (hmem o).2 (Or.inr hpool)
  · have hne : o ≠ x := by
      rintro rfl
      have := Frame.allocate_nonneg hx
      rcases ho with ho | ho
      · exact hfree ho
      · omega
    simp [Store.declare, Store.below, hnone, stackOffsets, hout, hne]
  · have hvalue := hheld.get (i := cells.length) (o := x)
      (by rw [List.getElem?_append_left (by simp)]; exact hlast)
    rw [hvalue, ← Store.get_declare (hlength ▸ hlt) (m.cells (b' + x)), ← hlength]
    simp [World.get, World.set, Store.get, Store.world, Store.declare]

end Evaluator.Hosts

section
variable {p : MacroProgram} {s t : Evaluator} {env : Environment} {cells : List Int} {st : Store}
    {b : Int}
  {m : Memory} {body : Block} {inner : List Node} {c : Atom} {i : Nat}

open Evaluator (run Owns)

/-- A conditional runs its body once or not at all. -/
theorem Evaluator.Hosts.conditional (h : s.Hosts env cells st b m) (hexpands : Expands p body inner)
    (hc : env.meaning? c = some (.var i)) (hrun : run (expandedIf c inner) s = .ok () t)
    (hwraps : ∀ s u, run inner s = .ok () u → s.frame.emitter.Wraps u.frame.emitter)
    {R : Store → Prop} (hskip : st.get i = 0 → R st)
    (hbody : st.get i ≠ 0 → ∀ s u m, run inner s = .ok () u → s.Hosts env cells st b m →
      s.frame.Leads u.frame b m fun b' m' => ∃ st', R st' ∧ s.frame.Passes cells st b m st' b' m') :
    s.frame.Leads t.frame b m fun b' m' => ∃ st', R st' ∧
      s.frame.Passes cells st b m st' b' m' := by
  obtain ⟨x, f₁, src, f₂, f₃, u, y, f₄, f₅, v, hx, hsrc, hcopy, hbegin, hinner, hy, hclear, hend,
      hclose⟩ :=
    Evaluator.run_expandedIf hrun
  obtain rfl : y = x := hexpands.conditionCopy_kept hinner hy
  obtain ⟨hemitter, hfree, hmem⟩ := Frame.allocate_ok hx
  obtain ⟨-, hlayout₁, hout⟩ := h.layout.allocate hx
  have hnonneg := Frame.allocate_nonneg hx
  have hcells₃ : f₃.cells = f₁.cells :=
    (Frame.cells_emit hbegin).trans ((Frame.restores_compositional.copy src y).1 _ _ _ hcopy)
  have hmore : ∀ o ∈ s.frame.cells.offsets, o ∈ f₃.cells.offsets := fun o ho => by
    rw [hcells₃]
    exact (hmem o).2 (Or.inr ho)
  have hknown : env.Known cells (s.scopes.push.own [(conditionCopy, y)]) := h.known.push.ownHidden y
  have hi : cells[i]? = some src := by
    obtain ⟨value, hvalue, hmeans⟩ := hknown.meaning hc
    cases hmeans with
    | var hi => cases hvalue.symm.trans hsrc; exact hi
  have hwraps₄ : f₃.emitter.Wraps f₄.emitter :=
    (hwraps _ _ hinner).trans (.of_performs (Frame.clear_performs hclear))
  -- the loop on the copy has one round to go, or none and its work is done
  let T : Int → Memory → Prop := fun b' m' =>
    ∃ st', R st' ∧ s.frame.Passes cells st b m st' b' m'
  let I : Nat → Int → Memory → Prop := fun n b' m' =>
    (n = 1 ∧ b' = b ∧ s.frame.Passes cells st b m st b m' ∧ m'.cells (b + y) = st.get i) ∨
      (m'.cells (b' + y) = 0 ∧ T b' m')
  have hround : ∀ n b₁ m₁, I n b₁ m₁ → m₁.cells (b₁ + y) ≠ 0 →
      f₃.Leads f₄ b₁ m₁ fun b' m' => ∃ n' < n, I n' b' m' := by
    rintro n b₁ m₁ (⟨rfl, rfl, hpasses, hvalue⟩ | ⟨hzero, -⟩) hne
    · have hhosts : Evaluator.Hosts ⟨f₃, s.scopes.push.own [(conditionCopy, y)]⟩ env cells
          st b₁ m₁ := by
        refine ⟨hlayout₁.of_cells hcells₃, fun o ho => ?_, hknown, hpasses.held, h.above⟩
        rw [hcells₃] at ho
        rcases (hmem o).1 ho with rfl | ho
        · exact hnonneg
        · exact h.nonneg o ho
      refine (hbody (hvalue ▸ hne) _ _ m₁ hinner hhosts).andThen fun b' m' ⟨st', hR, hpasses'⟩ => ?_
      refine (Frame.clear_leads hclear b' m').mono fun b'' m'' ⟨hb, hm⟩ => ?_
      subst hb hm
      refine ⟨0, Nat.one_pos, Or.inr ⟨by simp, st', hR, ?_⟩⟩
      exact (hpasses.trans hpasses' hmore).set hout hfree hnonneg 0
    · exact absurd hzero hne
  have hcopied := (h.copy hi hx hcopy).andThen fun b₁ m₁ ⟨hb, hpasses, hvalue⟩ =>
    Frame.Leads.loop hbegin hwraps₄ hend hround
      (n := 1) (b := b₁) (m := m₁) (Or.inl ⟨rfl, hb, hpasses, hvalue⟩)
  refine (hcopied.of_emitter hemitter.symm (Evaluator.emitter_envEnd hclose)).mono
    fun b' m' ⟨⟨n, hI⟩, hzero⟩ => ?_
  rcases hI with ⟨-, rfl, hpasses, hvalue⟩ | ⟨-, hT⟩
  · exact ⟨st, hskip (hvalue ▸ hzero), hpasses⟩
  · exact hT

/-- A loop goes on in rounds that bring the invariant closer to its end. -/
theorem Evaluator.Hosts.loop (h : s.Hosts env cells st b m)
    (hp : ∀ m ∈ p.macros, p.Structured m.body) (hexpands : Expands p body inner)
    (hstructured : p.Structured body) (hc : env.meaning? c = some (.var i))
    (hrun : run (whileStatements c inner) s = .ok () t)
    (hwraps : ∀ s u, run inner s = .ok () u → s.frame.emitter.Wraps u.frame.emitter)
    {I : Nat → Store → Prop} {n : Nat} (hI : I n st)
    (hbody : ∀ n st, I n st → st.get i ≠ 0 → ∀ s u b m, run inner s = .ok () u →
      s.Hosts env cells st b m → s.frame.Leads u.frame b m fun b' m' =>
        ∃ st', (∃ n' < n, I n' st') ∧ s.frame.Passes cells st b m st' b' m') :
    s.frame.Leads t.frame b m fun b' m' =>
      ∃ n st', I n st' ∧ st'.get i = 0 ∧ s.frame.Passes cells st b m st' b' m' := by
  obtain ⟨o, f, u, o', f', v, ho, hbegin, hinner, -, hend, hclose⟩ :=
    Evaluator.run_whileStatements hrun
  obtain rfl : o' = o := hexpands.closes_where_opened hp hstructured hbegin hinner hend
  obtain ⟨q, hq, hi⟩ := h.condition hc
  cases hq.symm.trans ho
  have hcells : f.cells = s.frame.cells := Frame.cells_emit hbegin
  have hround : ∀ n b₁ m₁, (∃ st', I n st' ∧ s.frame.Passes cells st b m st' b₁ m₁) →
      m₁.cells (b₁ + o') ≠ 0 → f.Leads u.frame b₁ m₁ fun b' m' =>
        ∃ n' < n, ∃ st', I n' st' ∧ s.frame.Passes cells st b m st' b' m' := by
    rintro n b₁ m₁ ⟨st₁, hI₁, hpasses⟩ hne
    rw [hpasses.held.get hi] at hne
    have hhosts : Evaluator.Hosts ⟨f, s.scopes.push⟩ env cells st₁ b₁ m₁ :=
      ⟨h.layout.of_cells hcells, by rw [hcells]; exact h.nonneg, h.known.push, hpasses.held,
        fun hstack => h.above fun hnone => hstack (hpasses.stack.2 hnone)⟩
    refine (hbody n st₁ hI₁ hne _ _ b₁ m₁ hinner hhosts).mono
      fun b' m' ⟨st', ⟨n', hlt, hI'⟩, hpasses'⟩ => ⟨n', hlt, st', hI', ?_⟩
    exact hpasses.trans hpasses' fun o ho => by rwa [hcells]
  have hloop := Frame.Leads.loop hbegin (hwraps _ _ hinner) hend hround (b := b) (m := m)
    ⟨st, hI, .refl _ h.held⟩
  refine (hloop.of_emitter rfl (Evaluator.emitter_envEnd hclose)).mono
    fun b' m' ⟨⟨n, st', hI', hpasses⟩, hzero⟩ => ⟨n, st', hI', ?_, hpasses⟩
  rwa [hpasses.held.get hi] at hzero

end

/-! ## Calls -/

/-- The cells that arguments are. -/
def Atom.addresses (values : List Atom) : List Int :=
  values.filterMap fun
    | .address o => some o
    | .name _ | .int _ | .text _ => none

/-- Each place that arguments stand for is in its cell. -/
theorem Referent.cells_of_places {row : List Int} {rs : List Referent} {values : List Atom}
    (h : List.Forall₂ (Referent.Means row) rs values) :
    List.Forall₂ (fun i o => row[i]? = some o) (Referent.places rs) (Atom.addresses values) := by
  induction h with
  | nil => exact .nil
  | cons hr _ ih =>
    cases hr with
    | var hi => exact .cons hi ih
    | int _ | text _ => exact ih

/-- With their own cells for variables, arguments mean to the callee what they are numbered. -/
theorem Referent.means_renumbered {row : List Int} {rs : List Referent} {values : List Atom}
    (h : List.Forall₂ (Referent.Means row) rs values) (before : List Int) :
    List.Forall₂ (Referent.Means (before ++ Atom.addresses values))
      (Referent.renumbered before.length rs) values := by
  induction h generalizing before with
  | nil => exact .nil
  | @cons r a rs values hr hrest ih =>
    cases hr with
    | @var i o hi =>
      refine .cons (.var (by simp [Atom.addresses])) ?_
      have hnext := ih (before ++ [o])
      simp only [List.length_append, List.length_singleton, List.append_assoc,
        List.singleton_append] at hnext
      exact hnext
    | int n => exact .cons (.int n) (ih before)
    | text t => exact .cons (.text t) (ih before)

/-- A cell of the callee is that of a place. -/
theorem exists_place {row : List Int} {places : List Nat} {small : List Int}
    (h : List.Forall₂ (fun i o => row[i]? = some o) places small) {o : Int} (ho : o ∈ small) :
    ∃ i ∈ places, row[i]? = some o := by
  induction h with
  | nil => cases ho
  | cons hi _ ih =>
    rcases List.mem_cons.1 ho with rfl | ho
    · exact ⟨_, List.mem_cons_self, hi⟩
    · obtain ⟨j, hj, hjo⟩ := ih ho
      exact ⟨j, List.mem_cons_of_mem _ hj, hjo⟩

theorem World.HeldAt.map_get {w : World} {b : Int} {row : List Int} {m : Memory}
    (h : w.HeldAt b row m) {places : List Nat} {small : List Int}
    (hplaces : List.Forall₂ (fun i o => row[i]? = some o) places small) :
    places.map w.get = small.map fun o => m.cells (b + o) := by
  induction hplaces with
  | nil => rfl
  | cons hi _ ih => rw [List.map_cons, List.map_cons, ih, h.get hi]

/-- Different places are in different cells. -/
theorem nodup_of_places {row : List Int} (hrow : row.Nodup) {places : List Nat} {small : List Int}
    (h : List.Forall₂ (fun i o => row[i]? = some o) places small) (hplaces : places.Nodup) :
    small.Nodup := by
  induction h with
  | nil => exact .nil
  | @cons i o places small hi hrest ih =>
    obtain ⟨hout, hplaces⟩ := List.nodup_cons.1 hplaces
    refine List.nodup_cons.2 ⟨fun hmem => ?_, ih hplaces⟩
    obtain ⟨j, hj, hjo⟩ := exists_place hrest hmem
    obtain ⟨hi', hio⟩ := List.getElem?_eq_some_iff.1 hi
    obtain ⟨hj', hjo⟩ := List.getElem?_eq_some_iff.1 hjo
    have hij : i = j := hrow.getElem_inj_iff.1 (hio.trans hjo.symm)
    exact hout (hij ▸ hj)

/-- Giving places the values of their cells makes the row what the cells hold, if all other cells
are as they were. -/
theorem assignAll_map {row : List Int} (hrow : row.Nodup) {places : List Nat} {small : List Int}
    (h : List.Forall₂ (fun i o => row[i]? = some o) places small) {F G : Int → UInt8}
    (hkept : ∀ o ∈ row, o ∉ small → F o = G o) :
    assignAll (row.map F) places (small.map G) = row.map G := by
  induction h generalizing F with
  | nil => exact List.map_congr_left fun o ho => hkept o ho List.not_mem_nil
  | @cons i o places small hi hrest ih =>
    obtain ⟨hlt, hio⟩ := List.getElem?_eq_some_iff.1 hi
    have hset : (row.map F).set i (G o) = row.map (Function.update F o (G o)) := by
      refine List.ext_getElem (by simp) fun j hj hj' => ?_
      have hj : j < row.length := by simpa using hj
      by_cases hij : i = j
      · subst hij
        simp [hio]
      · have hne : row[j] ≠ o := fun hjo => hij (hrow.getElem_inj_iff.1 (hio.trans hjo.symm))
        simp [hij, hne]
    rw [List.map_cons, assignAll, hset]
    refine ih fun q hq hout => ?_
    by_cases hqo : q = o
    · simp [hqo]
    · rw [Function.update_of_ne hqo]
      exact hkept q hq (by simp [hqo, hout])

section
variable {p : MacroProgram} {s t : Evaluator} {env : Environment} {cells : List Int} {st : Store}
    {b : Int}
  {m : Memory} {inner : List Node}

open Evaluator (run Owns)

/-- A callee works on the cells of its arguments. -/
theorem Evaluator.Hosts.enter (h : s.Hosts env cells st b m) {values : List Atom}
    {rs : List Referent}
    (hmeans : List.Forall₂ (Referent.Means (cells ++ stackOffsets st.below.length)) rs values)
    (hnodup : (Referent.places rs).Nodup) (params : List String) :
    Evaluator.Hosts ⟨s.frame, (s.scopes.push.bindNames (params.map .visible) values).push⟩
      (Environment.bind [] params (Referent.renumbered 0 rs)) (Atom.addresses values)
      (st.passed rs) b m := by
  have hplaces := Referent.cells_of_places hmeans
  refine ⟨⟨nodup_of_places h.layout_row.nodup hplaces hnodup, fun o ho => ?_⟩, h.nonneg, ?_, ?_,
    fun hstack => absurd rfl hstack⟩
  · obtain ⟨i, -, hi⟩ := exists_place hplaces ho
    exact h.layout_row.held o (List.mem_of_getElem? hi)
  · exact ((Environment.Known.nil _ _).bind (Referent.means_renumbered hmeans []) params).push
  · refine ⟨?_, rfl, h.held.input, h.held.output⟩
    exact h.held.heldAt.map_get hplaces

/-- A call gives the callee's results back to the caller. -/
theorem Evaluator.Hosts.call (h : s.Hosts env cells st b m) {args : List Atom} {rs : List Referent}
    (hargs : st.meanings? env args = some rs) (hnodup : (Referent.places rs).Nodup)
    {params : List String} (hlen : params.length = args.length)
    (hrun : run (expandedCall params args inner) s = .ok () t) {R : Store → Prop}
    (hbody : ∀ s u cells m, run inner s = .ok () u →
      s.Hosts (Environment.bind [] params (Referent.renumbered 0 rs)) cells (st.passed rs) b m →
      s.frame.Leads u.frame b m fun b' m' =>
        ∃ result, R result ∧ s.frame.Passes cells (st.passed rs) b m result b' m') :
    s.frame.Leads t.frame b m fun b' m' =>
      ∃ result, R result ∧ s.frame.Passes cells st b m (st.returned rs result) b' m' := by
  obtain ⟨values, u₁, v, hvalues, hscope, hclose⟩ := Evaluator.run_expandedCall hlen hrun
  obtain ⟨u₂, hinner, v', hclose'⟩ := Evaluator.run_inScope_ok.1 hscope
  obtain ⟨values', hvalues', hmeans⟩ := h.known.meanings h.held.length_vars hargs
  cases hvalues.symm.trans hvalues'
  have hplaces := Referent.cells_of_places hmeans
  have hemitter : t.frame.emitter = u₂.frame.emitter :=
    (Evaluator.emitter_envEnd hclose).trans (Evaluator.emitter_envEnd hclose')
  have hcallee := hbody _ u₂ _ m hinner (h.enter hmeans hnodup params)
  refine (hcallee.of_emitter rfl hemitter).mono fun b' m' ⟨result, hR, hpasses⟩ => ⟨result, hR, ?_⟩
  obtain ⟨rfl, hspared⟩ := hpasses.kept rfl
  refine ⟨Store.At.update h.held.length_vars ⟨?_, hpasses.held.input, hpasses.held.output⟩,
    by simp [Store.returned, Store.update], fun hnone => ⟨rfl, fun o ho hout => hspared o ho ?_⟩⟩
  · rw [h.held.heldAt.vars, hpasses.held.vars]
    exact assignAll_map h.layout_row.nodup hplaces fun o ho hout =>
      (hspared o (h.layout_row.held o ho) hout).symm
  · -- without a stack, arguments are variables
    intro hmem
    obtain ⟨i, -, hi⟩ := exists_place hplaces hmem
    simp only [Store.below, hnone, Option.getD_none, List.length_nil, stackOffsets, List.range_zero,
      List.map_nil, List.append_nil] at hi
    exact hout (List.mem_of_getElem? hi)

end

/-! ## Blocks -/

section
variable {p : MacroProgram} (hp : ∀ m ∈ p.macros, p.Structured m.body)
include hp

open Evaluator (run Owns run_append_ok run_single_ok)

/-- A structured block closes the loops that it opens. -/
theorem Expands.wraps {block : Block} {nodes : List Node} (h : Expands p block nodes)
    (hblock : p.Structured block) {s t : Evaluator} (hrun : run nodes s = .ok () t) :
    s.frame.emitter.Wraps t.frame.emitter := by
  have hinvoke : ∀ {b args} {s u : Evaluator}, (b ≠ .beginLoop ∧ b ≠ .endLoop) →
      run [Statement.invoke b args] s = .ok () u → s.frame.emitter.Wraps u.frame.emitter := by
    intro b args s u hb hu
    obtain ⟨v, hv⟩ := run_single_ok.1 hu
    obtain ⟨values, f, -, hf, rfl⟩ := Evaluator.evaluate_invoke_ok hv
    exact (Frame.wraps_invoke hb.1 hb.2 values).1 _ _ _ hf
  induction h generalizing s t with
  | done => cases hrun; exact .refl _
  | localCell _ ih =>
    obtain ⟨u, hlocal, hrest⟩ := run_append_ok.1 hrun
    obtain ⟨o, f, ho, rfl⟩ := Evaluator.run_localStatements hlocal
    have hrest' := ih hblock hrest
    rwa [(Frame.allocate_ok ho).1] at hrest'
  | ifNonzero _ _ ihbody ihrest =>
    obtain ⟨u, hif, hrest⟩ := run_append_ok.1 hrun
    obtain ⟨x, f₁, src, f₂, f₃, u', y, f₄, f₅, v, hx, -, hcopy, hbegin, hinner, -, hclear, hend,
        hclose⟩ :=
      Evaluator.run_expandedIf hif
    have hbody := ihbody hblock.ifNonzero.1 hinner
    have hcopied : f₁.emitter.Wraps f₂.emitter :=
      (Emitter.wraps_discipline.compositional.copy src x).1 _ _ _ hcopy
    have hloop :=
      Frame.wraps_loop hbegin (hbody.trans (.of_performs (Frame.clear_performs hclear))) hend
    have hall := (hcopied.trans hloop).trans
      (Evaluator.emitter_envEnd hclose ▸ ihrest hblock.ifNonzero.2 hrest)
    rwa [(Frame.allocate_ok hx).1] at hall
  | whileNonzero _ _ ihbody ihrest =>
    obtain ⟨u, hwhile, hrest⟩ := run_append_ok.1 hrun
    obtain ⟨o, f, u', o', f', v, -, hbegin, hinner, -, hend, hclose⟩ :=
      Evaluator.run_whileStatements hwhile
    have hbody := ihbody hblock.whileNonzero.1 hinner
    exact (Frame.wraps_loop hbegin hbody hend).trans
      (Evaluator.emitter_envEnd hclose ▸ ihrest hblock.whileNonzero.2 hrest)
  | callMacro hfind hlen _ _ ihbody ihrest =>
    obtain ⟨u, hcall, hrest⟩ := run_append_ok.1 hrun
    obtain ⟨values, u₁, v, -, hscope, hclose⟩ := Evaluator.run_expandedCall hlen hcall
    obtain ⟨u₂, hinner, v', hclose'⟩ := Evaluator.run_inScope_ok.1 hscope
    have hbody := ihbody (hp _ (MacroProgram.mem_of_find? hfind)) hinner
    have hrest' := ihrest hblock.afterCall hrest
    rw [Evaluator.emitter_envEnd hclose, Evaluator.emitter_envEnd hclose'] at hrest'
    exact hbody.trans hrest'
  | @callBuiltin f args b rest out hfind hb _ ih =>
    obtain ⟨u, hu, hrest⟩ := (run_append_ok (a := [Statement.invoke b args])).1 hrun
    exact (hinvoke (hblock.callBuiltin hfind hb) hu).trans (ih hblock.afterCall hrest)
  | @builtin b args _ _ _ ih =>
    obtain ⟨u, hu, hrest⟩ := (run_append_ok (a := [Statement.invoke b args])).1 hrun
    exact (hinvoke hblock.builtin.1 hu).trans (ih hblock.builtin.2 hrest)

/-- **The code of a block leads to where the block ends.** -/
theorem Expands.leads {block : Block} {nodes : List Node} (h : Expands p block nodes)
    (hblock : p.Structured block) {s t : Evaluator} {env : Environment} {cells : List Int}
    {st : Store} {Q : Store → Prop} {b : Int} {m : Memory} (hends : Ends p env block st Q)
    (hhosts : s.Hosts env cells st b m) (hrun : run nodes s = .ok () t) :
    s.frame.Leads t.frame b m fun b' m' => ∃ st', Q st' ∧
      s.frame.Passes cells st b m st' b' m' := by
  induction h generalizing s t env cells st Q b m with
  | done =>
    cases hrun
    cases hends with
    | done hQ => exact .refl _ ⟨st, hQ, .refl _ hhosts.held⟩
  | @localCell x rest out _ ih =>
    cases hends with
    | localCell hrest =>
      obtain ⟨u, hlocal, hout⟩ := run_append_ok.1 hrun
      obtain ⟨o, f, ho, rfl⟩ := Evaluator.run_localStatements hlocal
      obtain ⟨hemitter, hfree, hmem⟩ := Frame.allocate_ok ho
      have hlength := hhosts.held.length_vars
      have hinner := ih hblock (hrest (m.cells (b + o))) (hlength ▸ hhosts.declare ho x) hout
      refine (hinner.of_emitter hemitter.symm rfl).mono fun b' m' ⟨st', hQ, hpasses⟩ => ⟨_, hQ, ?_⟩
      refine ⟨hlength ▸ hpasses.held.close, hpasses.stack, fun hnone => ?_⟩
      obtain ⟨rfl, hspared⟩ := hpasses.kept hnone
      refine ⟨rfl,
        fun q hq hout => hspared q (hq.imp_left fun hpool => (hmem q).2 (Or.inr hpool)) ?_⟩
      have hne : q ≠ o := by
        rintro rfl
        have := Frame.allocate_nonneg ho
        rcases hq with hq | hq
        · exact hfree hq
        · omega
      simp [hout, hne]
  | @ifNonzero c body rest inner out hexpands _ ihbody ihrest =>
    obtain ⟨u, hif, hout⟩ := run_append_ok.1 hrun
    have howns : Owns s [] u := .ofIf hexpands.owns_something hif
    obtain ⟨hbody, hrest⟩ := hblock.ifNonzero
    have hwraps : ∀ s u, run inner s = .ok () u → s.frame.emitter.Wraps u.frame.emitter :=
      fun s u => hexpands.wraps hp hbody
    cases hends with
    | skip hc hzero hends =>
      refine hhosts.andThen howns (hhosts.conditional (R := (· = st)) hexpands hc hif hwraps
        (fun _ => rfl) fun hne => absurd hzero hne) fun st' b' m' hR hhosts' => ?_
      exact ihrest hrest (hR ▸ hends) hhosts' hout
    | enter R hc hne hends hends' =>
      refine hhosts.andThen howns (hhosts.conditional (R := R) hexpands hc hif hwraps
        (fun hzero => absurd hzero hne) fun _ s u m hinner hhosts' =>
          ?_) fun st' b' m' hR hhosts' => ?_
      · exact ihbody hbody hends hhosts' hinner
      · exact ihrest hrest (hends' st' hR) hhosts' hout
  | @whileNonzero c body rest inner out hexpands _ ihbody ihrest =>
    obtain ⟨u, hwhile, hout⟩ := run_append_ok.1 hrun
    have howns : Owns s [] u := .ofWhile hexpands.owns_something hwhile
    obtain ⟨hbody, hrest⟩ := hblock.whileNonzero
    cases hends with
    | @loop _ _ _ _ _ i n _ I hc hI hends hends' =>
      have hloop := hhosts.loop hp hexpands hbody hc hwhile (fun s u => hexpands.wraps hp hbody) hI
        fun n st hI hne s u b m hinner hhosts' => ihbody hbody (hends n st hI hne) hhosts' hinner
      refine hhosts.andThen howns (R := fun st' => ∃ n, I n st' ∧ st'.get i = 0)
        (hloop.mono fun b' m' ⟨n, st', hI', hzero, hpasses⟩ => ⟨st', ⟨n, hI', hzero⟩, hpasses⟩)
        fun st' b' m' ⟨n, hI', hzero⟩ hhosts' => ?_
      exact ihrest hrest (hends' n st' hI' hzero) hhosts' hout
  | @callMacro f args callee rest inner out hfind hlen hexpands _ ihbody ihrest =>
    obtain ⟨u, hcall, hout⟩ := run_append_ok.1 hrun
    have howns : Owns s [] u := .ofCall hlen hexpands.owns_something hcall
    cases hends with
    | @call _ _ _ callee' _ _ rs _ R hfind' hargs hnodup hends hends' =>
      obtain rfl : callee = callee' := Option.some.inj (hfind.symm.trans hfind')
      have hcallee := hhosts.call hargs hnodup hlen hcall fun s u cells m hinner hhosts' =>
        ihbody (hp _ (MacroProgram.mem_of_find? hfind)) hends hhosts' hinner
      refine hhosts.andThen howns (R := fun st' => ∃ result, R result ∧ st' = st.returned rs result)
        (hcallee.mono fun b' m' ⟨result, hR, hpasses⟩ => ⟨_, ⟨result, hR, rfl⟩, hpasses⟩)
        fun st' b' m' ⟨result, hR, heq⟩ hhosts' => ?_
      exact ihrest hblock.afterCall (heq ▸ hends' result hR) hhosts' hout
  | callBuiltin hfind _ _ _ =>
    cases hends with
    | call R hfind' _ _ _ _ => rw [hfind] at hfind'; cases hfind'
  | @builtin bi args rest out _ ih =>
    obtain ⟨u, hu, hout⟩ := (run_append_ok (a := [Statement.invoke bi args])).1 hrun
    cases hends with
    | @builtin _ _ _ _ _ st₁ _ _ hargs hperform hends =>
      refine hhosts.andThen (Owns.invoke hu) (R := (· = st₁))
        ((hhosts.invoke hargs hperform hu).mono fun b' m' hpasses => ⟨st₁, rfl, hpasses⟩)
        fun st' b' m' hR hhosts' => ?_
      exact ih hblock.builtin.2 (hR ▸ hends) hhosts' hout

end

end TapeToolchain
