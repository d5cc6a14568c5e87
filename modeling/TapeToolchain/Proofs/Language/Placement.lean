import TapeToolchain.Proofs.Frame.Leads
import TapeToolchain.Proofs.Language.Realization

/-!
Built-ins on variables, wherever the frame stands. What a built-in does to variables in cells of the
frame it does at every base (`Frame.invoke_leads`), and no other cell is changed that is occupied or
below the base.
-/

namespace TapeToolchain

/-! ## Variables that are not named -/

namespace World

variable {w : World} {i : Nat} {v : UInt8}

theorem get_declare (hi : i < w.vars.length) : (w.declare v).get i = w.get i := by
  simp [get, declare, List.getElem?_append_left hi]

theorem set_declare (hi : i < w.vars.length) (u : UInt8) :
    (w.declare v).set i u = (w.set i u).declare v := by
  simp [set, declare, List.set_append_left i u hi]

@[simp] theorem length_set (w : World) (i : Nat) (u : UInt8) :
    (w.set i u).vars.length = w.vars.length := by
  simp [set]

theorem receive_declare (hi : i < w.vars.length) :
    (w.declare v).receive i = (w.receive i).declare v := by
  have hinput : (w.declare v).input = w.input := rfl
  simp only [receive, hinput]
  cases w.input with
  | nil => rfl
  | cons byte rest => simp only [set_declare hi]; rfl

theorem send_declare (w : World) (v : UInt8) (bytes : List UInt8) :
    (w.declare v).send bytes = (w.send bytes).declare v := rfl

end World

/-- A variable that is not an operand is left alone. -/
theorem Builtin.perform_declare {b : Builtin} {rs : List Referent} {w w' : World}
    (hrs : ∀ i, .var i ∈ rs → i < w.vars.length) (h : b.perform rs w = some w') (v : UInt8) :
    b.perform rs (w.declare v) = some (w'.declare v) := by
  unfold Builtin.perform at h
  split at h <;> cases h <;> simp only [List.mem_cons, List.not_mem_nil, or_false, forall_eq_or_imp,
    forall_eq, Referent.var.injEq, reduceCtorEq, false_or] at hrs
  all_goals
    simp [Builtin.perform, World.get_declare, World.set_declare, World.receive_declare,
      World.send_declare, hrs]

theorem Referent.lt_of_means {cells : List Int} {rs : List Referent} {values : List Atom}
    (h : List.Forall₂ (Referent.Means cells) rs values) (i : Nat) (hi : .var i ∈ rs) :
    i < cells.length := by
  induction h with
  | nil => cases hi
  | cons hr _ ih =>
    rcases List.mem_cons.1 hi with rfl | hi
    · cases hr with
      | var ho => exact (List.getElem?_eq_some_iff.1 ho).1
    · exact ih hi

/-! ## Variables at a base -/

/-- With the frame at the given base, the variables of the world are in the given cells, in order;
input and output are the same. -/
structure World.HeldAt (w : World) (b : Int) (cells : List Int) (m : Memory) : Prop where
  vars : w.vars = cells.map fun o => m.cells (b + o)
  input : w.input = m.input
  output : w.output = m.output

namespace World.HeldAt

variable {w : World} {b : Int} {cells : List Int} {m : Memory}

theorem length_vars (h : w.HeldAt b cells m) : w.vars.length = cells.length := by
  rw [h.vars, List.length_map]

theorem get (h : w.HeldAt b cells m) {i : Nat} {o : Int} (hi : cells[i]? = some o) :
    m.cells (b + o) = w.get i := by
  rw [World.get, h.vars, List.getD_eq_getElem?_getD, List.getElem?_map, hi]
  rfl

end World.HeldAt

namespace Frame

variable {f g : Frame} {cells : List Int} {b : Int} {m : Memory} {w : World}

theorem holds_shifted (h : w.HeldAt b cells m) :
    f.Holds cells (m.shifted (b - f.emitter.base)) w := by
  refine ⟨?_, h.input, h.output⟩
  rw [h.vars]
  refine List.map_congr_left fun o _ => ?_
  rw [Memory.cells_shifted, position, show f.emitter.base + o + (b - f.emitter.base) =
    b + o by omega]

theorem Holds.heldAt (h : f.Holds cells m w) (b : Int) :
    w.HeldAt b cells (m.shifted (f.emitter.base - b)) := by
  refine ⟨?_, h.input, h.output⟩
  rw [h.vars]
  refine List.map_congr_left fun o _ => ?_
  rw [Memory.cells_shifted, position, show b + o + (f.emitter.base - b) =
    f.emitter.base + o by omega]

/-- The code between two frames computes one function only. -/
theorem Performs.unique {F G : Memory → Memory} (hF : f.Performs g F) (hG : f.Performs g G)
    (m : Memory) : F m = G m := by
  obtain ⟨-, seg, hcode, -, hrun⟩ := hF
  obtain ⟨-, seg', hcode', -, hrun'⟩ := hG
  obtain rfl : seg = seg' := List.append_cancel_left (hcode.symm.trans hcode')
  exact ((hrun m).unique (hrun' m)).2

/-- Cells of the frame, or below it, that are not among the given ones are the same in both
memories. -/
def Spared (f : Frame) (b : Int) (cells : List Int) (m m' : Memory) : Prop :=
  ∀ o, (o ∈ f.cells.offsets ∨ o < 0) → o ∉ cells → m'.cells (b + o) = m.cells (b + o)

/-- A built-in does to variables what it means, with the frame at any base, and spares what it is
not given. -/
theorem invoke_leads {bi : Builtin} (hbi : ¬ bi.IsControl) (hlayout : f.Layout cells)
    {rs : List Referent} {values : List Atom} (hrs : List.Forall₂ (Referent.Means cells) rs values)
    (h : invoke bi values f = .ok () g) (hw : w.HeldAt b cells m) {w' : World}
    (hperform : bi.perform rs w = some w') :
    f.Leads g b m fun b' m' => b' = b ∧ w'.HeldAt b cells m' ∧ f.Spared b cells m m' := by
  obtain ⟨change, hchange, F, hF, hheld⟩ := invoke_simulates hbi hlayout hrs h
  obtain rfl : w' = change w := Option.some.inj (hperform.symm.trans (hchange w))
  refine (hF.leads b m).mono fun b' m' ⟨hb, hm⟩ => ⟨hb, ?_, fun o ho hout => ?_⟩
  · rw [hm]
    exact (hheld _ _ (holds_shifted hw)).heldAt b
  -- a cell that is not given may as well be one more variable, which is not an operand
  · have hmore : f.Layout (cells ++ [o]) := by
      refine ⟨List.nodup_append.2 ⟨hlayout.nodup, List.nodup_singleton o, ?_⟩, fun q hq => ?_⟩
      · rintro q hq r hr rfl
        exact hout (List.mem_singleton.1 hr ▸ hq)
      · rcases List.mem_append.1 hq with hq | hq
        · exact hlayout.held q hq
        · exact List.mem_singleton.1 hq ▸ ho
    have hrs' : List.Forall₂ (Referent.Means (cells ++ [o])) rs values :=
      hrs.imp fun _ _ hr => hr.append [o]
    obtain ⟨change', hchange', F', hF', hheld'⟩ := invoke_simulates hbi hmore hrs' h
    have hbefore := (holds_shifted (f := f) hw).declare o
    have hafter := hheld' _ _ hbefore
    have hplaces : ∀ i, .var i ∈ rs → i < w.vars.length := by
      rw [hw.length_vars]
      exact Referent.lt_of_means hrs
    have hdeclared : ∀ v, change' (w.declare v) = (change w).declare v := fun v =>
      Option.some.inj ((hchange' _).symm.trans (Builtin.perform_declare hplaces hperform v))
    have hlength : (change w).vars.length = cells.length :=
      (hheld _ _ (holds_shifted hw)).length_vars
    rw [hdeclared] at hafter
    have hsame := hafter.get (i := cells.length) (o := o) (by simp)
    rw [← hF.unique hF'] at hsame
    simp only [World.get, World.declare, List.getD_eq_getElem?_getD, ← hlength,
      List.getElem?_append_right (Nat.le_refl _), Nat.sub_self, List.getElem?_cons_zero,
      Option.getD_some, Memory.cells_shifted] at hsame
    rw [hm, Memory.cells_shifted, show b + o + (f.emitter.base - b) = f.position o by
      simp only [position]; omega, hsame]
    congr 1
    simp only [position]
    omega

end Frame

end TapeToolchain
