import TapeToolchain.Proofs.Frame.InputOutputEffect
import TapeToolchain.Proofs.Language.Semantics
import TapeToolchain.Proofs.Preliminaries
import Mathlib.Data.List.Forall2

/-!
Built-ins on cells and on variables. A memory holds a world if the variables of the world are in
known cells of the frame. Invoking a built-in on the cells of variables does to the memory what the
built-in does to the world (`Frame.invoke_simulates`), since the scratch cells of built-ins are free
cells.
-/

namespace TapeToolchain

namespace Frame

/-- The variables of the world are in the given cells of the frame, in order; input and output are
the same. -/
structure Holds (f : Frame) (cells : List Int) (m : Memory) (w : World) : Prop where
  vars : w.vars = cells.map fun o => m.cells (f.position o)
  input : w.input = m.input
  output : w.output = m.output

namespace Holds

variable {f : Frame} {cells : List Int} {m : Memory} {w : World}

theorem congr {f' : Frame} (h : f.Holds cells m w) (hposition : f'.position = f.position) :
    f'.Holds cells m w :=
  ⟨by rw [hposition]; exact h.vars, h.input, h.output⟩

theorem length_vars (h : f.Holds cells m w) : w.vars.length = cells.length := by
  rw [h.vars, List.length_map]

/-- A variable has the value of its cell. -/
theorem get (h : f.Holds cells m w) {i : Nat} {o : Int} (hi : cells[i]? = some o) :
    m.cells (f.position o) = w.get i := by
  rw [World.get, h.vars, List.getD_eq_getElem?_getD, List.getElem?_map, hi]
  rfl

/-- Only the cells of the variables matter. -/
theorem of_cells {m' : Memory} (h : f.Holds cells m w)
    (hcells : ∀ o ∈ cells, m'.cells (f.position o) = m.cells (f.position o))
    (hinput : m'.input = m.input) (houtput : m'.output = m.output) : f.Holds cells m' w := by
  refine ⟨?_, h.input.trans hinput.symm, h.output.trans houtput.symm⟩
  rw [h.vars]
  exact List.map_congr_left fun o ho => (hcells o ho).symm

theorem set (h : f.Holds cells m w) (hnodup : cells.Nodup) {i : Nat} {o : Int}
    (hi : cells[i]? = some o) (value : UInt8) :
    f.Holds cells (m.set (f.position o) value) (w.set i value) := by
  refine ⟨?_, h.input, h.output⟩
  obtain ⟨hlt, rfl⟩ := List.getElem?_eq_some_iff.1 hi
  rw [World.set, h.vars]
  refine List.ext_getElem (by simp) fun j hj hj' => ?_
  have hj : j < cells.length := by simpa using hj
  -- different variables are in different cells
  by_cases heq : i = j
  · simp [heq]
  · have hne : cells[j] ≠ cells[i] := fun hsame => heq ((hnodup.getElem_inj_iff.1 hsame).symm)
    simp [heq, hne]

theorem clearAll (h : f.Holds cells m w) {temps : List Int} (htemps : ∀ t ∈ temps, t ∉ cells) :
    f.Holds cells (m.clearAll (temps.map f.position)) w := by
  refine h.of_cells (fun o ho => ?_) rfl rfl
  have hout : o ∉ temps := fun hmem => htemps o hmem ho
  simp [hout]

theorem send (h : f.Holds cells m w) (bytes : List UInt8) :
    f.Holds cells (m.send bytes) (w.send bytes) :=
  ⟨h.vars, h.input, congrArg (· ++ bytes) h.output⟩

theorem receive (h : f.Holds cells m w) (hnodup : cells.Nodup) {i : Nat} {o : Int}
    (hi : cells[i]? = some o) : f.Holds cells (m.receive (f.position o)) (w.receive i) := by
  rw [Memory.receive, World.receive, h.input]
  cases hin : m.input with
  | nil => exact h
  | cons byte rest =>
    obtain ⟨hvars, -, houtput⟩ := h.set hnodup hi byte
    exact ⟨hvars, rfl, houtput⟩

/-- One more variable, with the value that its cell has. -/
theorem declare (h : f.Holds cells m w) (o : Int) :
    f.Holds (cells ++ [o]) m (w.declare (m.cells (f.position o))) := by
  refine ⟨?_, h.input, h.output⟩
  rw [World.declare, h.vars, List.map_append, List.map_singleton]

/-- The variables of the outer blocks. -/
theorem close {more : List Int} (h : f.Holds (cells ++ more) m w) :
    f.Holds cells m (w.close cells.length) := by
  refine ⟨?_, h.input, h.output⟩
  rw [World.close, h.vars, List.map_append]
  exact List.take_left' (List.length_map _)

end Holds

end Frame

/-- The atom is what the referent stands for when variables are in the given cells. -/
inductive Referent.Means (cells : List Int) : Referent → Atom → Prop where
  | var {i : Nat} {o : Int} : cells[i]? = some o → Means cells (.var i) (.address o)
  | int (n : Int) : Means cells (.int n) (.int n)
  | text (t : String) : Means cells (.text t) (.text t)

namespace Frame

/-! ## Operands -/

section
variable {cells : List Int} {f f' : Frame}

theorem operand_var {r : Referent} {a : Atom} {o : Int} (hr : r.Means cells a)
    (h : (MonadExcept.ofExcept a.asAddress : Action Int) f = .ok o f') :
    ∃ i, r = .var i ∧ cells[i]? = some o ∧ f' = f := by
  cases hr with
  | var hi => cases h; exact ⟨_, rfl, hi, rfl⟩
  | int _ | text _ => cases h

theorem operand_int {r : Referent} {a : Atom} {n : Int} (hr : r.Means cells a)
    (h : (MonadExcept.ofExcept a.asInt : Action Int) f = .ok n f') : r = .int n ∧ f' = f := by
  cases hr with
  | int _ => cases h; exact ⟨rfl, rfl⟩
  | var _ | text _ => cases h

theorem operand_text {r : Referent} {a : Atom} {t : String} (hr : r.Means cells a)
    (h : (MonadExcept.ofExcept a.asText : Action String) f = .ok t f') : r = .text t ∧ f' = f := by
  cases hr with
  | text _ => cases h; exact ⟨rfl, rfl⟩
  | var _ | int _ => cases h

variable {rs : List Referent} {a b c : Atom}

theorem onCell_ok (op : Int → Action Unit) (hrs : List.Forall₂ (Referent.Means cells) rs [a])
    (h : onCell op a f = .ok () f') :
    ∃ i o, rs = [.var i] ∧ cells[i]? = some o ∧ op o f = .ok () f' := by
  obtain ⟨o, u, ho, hop⟩ := bind_eq_ok.1 h
  cases hrs with
  | cons ha hnil =>
    cases hnil
    obtain ⟨i, rfl, hi, rfl⟩ := operand_var ha ho
    exact ⟨i, o, rfl, hi, hop⟩

theorem onCells_ok (op : Int → Int → Action Unit)
    (hrs : List.Forall₂ (Referent.Means cells) rs [a, b]) (h : onCells op a b f = .ok () f') :
    ∃ i o j o', rs = [.var i, .var j] ∧ cells[i]? = some o ∧ cells[j]? = some o' ∧
      op o o' f = .ok () f' := by
  obtain ⟨o, u, ho, hrest⟩ := bind_eq_ok.1 h
  cases hrs with
  | cons ha hb =>
    obtain ⟨i, rfl, hi, rfl⟩ := operand_var ha ho
    obtain ⟨j, o', rfl, hj, hop⟩ := onCell_ok (op o) hb hrest
    exact ⟨i, o, j, o', rfl, hi, hj, hop⟩

theorem onThreeCells_ok (op : Int → Int → Int → Action Unit)
    (hrs : List.Forall₂ (Referent.Means cells) rs [a, b, c])
    (h : onThreeCells op a b c f = .ok () f') :
    ∃ i o j o' k o'', rs = [.var i, .var j, .var k] ∧ cells[i]? = some o ∧ cells[j]? = some o' ∧
      cells[k]? = some o'' ∧ op o o' o'' f = .ok () f' := by
  obtain ⟨o, u, ho, hrest⟩ := bind_eq_ok.1 h
  cases hrs with
  | cons ha hbc =>
    obtain ⟨i, rfl, hi, rfl⟩ := operand_var ha ho
    obtain ⟨j, o', k, o'', rfl, hj, hk, hop⟩ := onCells_ok (op o) hbc hrest
    exact ⟨i, o, j, o', k, o'', rfl, hi, hj, hk, hop⟩

theorem onConstantAndCell_ok (op : Int → Int → Action Unit)
    (hrs : List.Forall₂ (Referent.Means cells) rs [a, b])
    (h : onConstantAndCell op a b f = .ok () f') :
    ∃ n i o, rs = [.int n, .var i] ∧ cells[i]? = some o ∧ op n o f = .ok () f' := by
  obtain ⟨n, u, hn, hrest⟩ := bind_eq_ok.1 h
  cases hrs with
  | cons ha hb =>
    obtain ⟨rfl, rfl⟩ := operand_int ha hn
    obtain ⟨i, o, rfl, hi, hop⟩ := onCell_ok (op n) hb hrest
    exact ⟨n, i, o, rfl, hi, hop⟩

theorem onText_ok (op : String → Action Unit) (hrs : List.Forall₂ (Referent.Means cells) rs [a])
    (h : onText op a f = .ok () f') : ∃ t, rs = [.text t] ∧ op t f = .ok () f' := by
  obtain ⟨t, u, ht, hop⟩ := bind_eq_ok.1 h
  cases hrs with
  | cons ha hnil =>
    cases hnil
    obtain ⟨rfl, rfl⟩ := operand_text ha ht
    exact ⟨t, rfl, hop⟩

end

/-! ## Built-ins -/

/-- Between the frames, the memory changes as the world does by the given function. -/
def Simulates (f f' : Frame) (cells : List Int) (change : World → World) : Prop :=
  ∃ F, f.Performs f' F ∧ ∀ m w, f.Holds cells m w → f.Holds cells (F m) (change w)

/-- The cells of variables are occupied or below the base, and no two variables are in the same
cell. -/
structure Layout (f : Frame) (cells : List Int) : Prop where
  nodup : cells.Nodup
  held : ∀ o ∈ cells, o ∈ f.cells.offsets ∨ o < 0

namespace Layout

variable {f f' : Frame} {cells : List Int}

/-- A free cell of the frame is not the cell of a variable. -/
theorem notMem (h : f.Layout cells) {t : Int} (hfree : t ∉ f.cells.offsets) (hnonneg : 0 ≤ t) :
    t ∉ cells := by
  intro hmem
  rcases h.held t hmem with hheld | hneg
  · exact hfree hheld
  · omega

/-- A value is computed for a variable. -/
theorem simulates_set (h : f.Layout cells) {operands : List Int} {dst : Int}
    {value : Memory → UInt8} (hcomputes : f.Computes f' operands dst value) {i : Nat}
    (hi : cells[i]? = some dst) (v : World → UInt8)
    (hv : ∀ m w, f.Holds cells m w → value m = v w) :
    f.Simulates f' cells fun w => w.set i (v w) := by
  obtain ⟨temps, htemps, hperforms⟩ := hcomputes
  refine ⟨_, hperforms, fun m w hw => ?_⟩
  rw [hv m w hw]
  exact (hw.set h.nodup hi _).clearAll fun t ht => h.notMem (htemps t ht).1 (htemps t ht).2.2

/-- A value is computed for a variable, and the source is emptied. -/
theorem simulates_useUp (h : f.Layout cells) {src dst : Int} {value : Memory → UInt8}
    (hperforms : f.Performs f' fun m => (m.set (f.position dst) (value m)).set (f.position src) 0)
    {i j : Nat} (hi : cells[i]? = some src) (hj : cells[j]? = some dst) (v : World → UInt8)
    (hv : ∀ m w, f.Holds cells m w → value m = v w) :
    f.Simulates f' cells fun w => (w.set j (v w)).set i 0 := by
  refine ⟨_, hperforms, fun m w hw => ?_⟩
  rw [hv m w hw]
  exact (hw.set h.nodup hj _).set h.nodup hi 0

end Layout

end Frame

/-- The built-in resizes the frame, or opens or closes a loop. -/
def Builtin.IsControl : Builtin → Prop
  | .beginLoop | .endLoop | .growStack | .shrinkStack => True
  | _ => False

instance : (b : Builtin) → Decidable b.IsControl
  | .beginLoop | .endLoop | .growStack | .shrinkStack => inferInstanceAs (Decidable True)
  | .clear | .destructiveAdd | .destructiveSub | .move | .copy | .stackAdd | .stackSub
      | .constantAdd
  | .constantSub | .asLogical | .logicalNot | .logicalAnd | .logicalOr | .getChar | .putChar
  | .putStringConstant => inferInstanceAs (Decidable False)

namespace Frame

theorem length_of_invoke {b : Builtin} {values : List Atom} {f f' : Frame}
    (h : invoke b values f = .ok () f') : values.length = b.arity := by
  rw [invoke.eq_def] at h
  split at h <;> first | rfl | cases h

/-- Invoking a built-in on the cells of variables does to the memory what the built-in does to the
world. -/
theorem invoke_simulates {b : Builtin} (hb : ¬ b.IsControl) {f f' : Frame} {cells : List Int}
    (hlayout : f.Layout cells) {rs : List Referent} {values : List Atom}
    (hrs : List.Forall₂ (Referent.Means cells) rs values) (h : invoke b values f = .ok () f') :
    ∃ change, (∀ w, b.perform rs w = some (change w)) ∧ f.Simulates f' cells change := by
  have hlen := length_of_invoke h
  cases b with
  | clear =>
    obtain ⟨a, rfl⟩ := List.length_eq_one_iff.1 hlen
    obtain ⟨i, o, rfl, hi, hop⟩ := onCell_ok clear hrs h
    exact ⟨_, fun _ => rfl,
      hlayout.simulates_set (.of_performs [] (clear_performs hop)) hi (fun _ => 0) fun _ _ _ => rfl⟩
  | destructiveAdd =>
    obtain ⟨a, c, rfl⟩ := List.length_eq_two.1 hlen
    obtain ⟨i, o, j, o', rfl, hi, hj, hop⟩ := onCells_ok destructiveAdd hrs h
    refine ⟨_, fun _ => rfl, hlayout.simulates_useUp (destructiveAdd_performs hop).2 hi hj
      (fun w => w.get j + w.get i) fun m w hw => ?_⟩
    rw [hw.get hi, hw.get hj]
  | destructiveSub =>
    obtain ⟨a, c, rfl⟩ := List.length_eq_two.1 hlen
    obtain ⟨i, o, j, o', rfl, hi, hj, hop⟩ := onCells_ok destructiveSub hrs h
    refine ⟨_, fun _ => rfl, hlayout.simulates_useUp (destructiveSub_performs hop).2 hi hj
      (fun w => w.get j - w.get i) fun m w hw => ?_⟩
    rw [hw.get hi, hw.get hj]
  | move =>
    obtain ⟨a, c, rfl⟩ := List.length_eq_two.1 hlen
    obtain ⟨i, o, j, o', rfl, hi, hj, hop⟩ := onCells_ok move hrs h
    refine ⟨_, fun _ => rfl, hlayout.simulates_useUp (move_performs hop).2 hi hj (·.get i) ?_⟩
    exact fun m w hw => hw.get hi
  | copy =>
    obtain ⟨a, c, rfl⟩ := List.length_eq_two.1 hlen
    obtain ⟨i, o, j, o', rfl, hi, hj, hop⟩ := onCells_ok copy hrs h
    refine ⟨_, fun _ => rfl, hlayout.simulates_set (copy_computes hop).2 hj (·.get i) ?_⟩
    exact fun m w hw => hw.get hi
  | stackAdd =>
    obtain ⟨a, c, rfl⟩ := List.length_eq_two.1 hlen
    obtain ⟨i, o, j, o', rfl, hi, hj, hop⟩ := onCells_ok stackAdd hrs h
    refine ⟨_, fun _ => rfl, hlayout.simulates_set (stackAdd_computes hop) hj
      (fun w => w.get j + w.get i) fun m w hw => ?_⟩
    rw [hw.get hi, hw.get hj]
  | stackSub =>
    obtain ⟨a, c, rfl⟩ := List.length_eq_two.1 hlen
    obtain ⟨i, o, j, o', rfl, hi, hj, hop⟩ := onCells_ok stackSub hrs h
    refine ⟨_, fun _ => rfl, hlayout.simulates_set (stackSub_computes hop) hj
      (fun w => w.get j - w.get i) fun m w hw => ?_⟩
    rw [hw.get hi, hw.get hj]
  | constantAdd =>
    obtain ⟨a, c, rfl⟩ := List.length_eq_two.1 hlen
    obtain ⟨k, i, o, rfl, hi, hop⟩ := onConstantAndCell_ok constantAdd hrs h
    obtain ⟨n, rfl, hperforms⟩ := constantAdd_performs hop
    refine ⟨_, fun _ => rfl, hlayout.simulates_set (.of_performs [] hperforms) hi
      (fun w => w.get i + UInt8.ofInt n) fun m w hw => ?_⟩
    rw [hw.get hi, UInt8.ofInt_natCast]
  | constantSub =>
    obtain ⟨a, c, rfl⟩ := List.length_eq_two.1 hlen
    obtain ⟨k, i, o, rfl, hi, hop⟩ := onConstantAndCell_ok constantSub hrs h
    obtain ⟨n, rfl, hperforms⟩ := constantSub_performs hop
    refine ⟨_, fun _ => rfl, hlayout.simulates_set (.of_performs [] hperforms) hi
      (fun w => w.get i - UInt8.ofInt n) fun m w hw => ?_⟩
    rw [hw.get hi, UInt8.ofInt_natCast]
  | asLogical =>
    obtain ⟨a, c, rfl⟩ := List.length_eq_two.1 hlen
    obtain ⟨i, o, j, o', rfl, hi, hj, hop⟩ := onCells_ok asLogical hrs h
    refine ⟨_, fun _ => rfl, hlayout.simulates_set (asLogical_computes hop).2 hj
      (fun w => if w.get i = 0 then 0 else 1) fun m w hw => ?_⟩
    rw [hw.get hi]
  | logicalNot =>
    obtain ⟨a, c, rfl⟩ := List.length_eq_two.1 hlen
    obtain ⟨i, o, j, o', rfl, hi, hj, hop⟩ := onCells_ok logicalNot hrs h
    refine ⟨_, fun _ => rfl, hlayout.simulates_set (logicalNot_computes hop).2 hj
      (fun w => if w.get i = 0 then 1 else 0) fun m w hw => ?_⟩
    rw [hw.get hi]
  | logicalAnd =>
    obtain ⟨a, c, d, rfl⟩ := List.length_eq_three.1 hlen
    obtain ⟨i, o, j, o', k, o'', rfl, hi, hj, hk, hop⟩ := onThreeCells_ok logicalAnd hrs h
    refine ⟨_, fun _ => rfl, hlayout.simulates_set (logicalAnd_computes hop).2 hk
      (fun w => if w.get i ≠ 0 ∧ w.get j ≠ 0 then 1 else 0) fun m w hw => ?_⟩
    rw [hw.get hi, hw.get hj]
  | logicalOr =>
    obtain ⟨a, c, d, rfl⟩ := List.length_eq_three.1 hlen
    obtain ⟨i, o, j, o', k, o'', rfl, hi, hj, hk, hop⟩ := onThreeCells_ok logicalOr hrs h
    refine ⟨_, fun _ => rfl, hlayout.simulates_set (logicalOr_computes hop).2 hk
      (fun w => if w.get i ≠ 0 ∨ w.get j ≠ 0 then 1 else 0) fun m w hw => ?_⟩
    rw [hw.get hi, hw.get hj]
  | getChar =>
    obtain ⟨a, rfl⟩ := List.length_eq_one_iff.1 hlen
    obtain ⟨i, o, rfl, hi, hop⟩ := onCell_ok getChar hrs h
    exact ⟨(·.receive i), fun _ => rfl, _, getChar_performs hop, fun m w hw =>
      hw.receive hlayout.nodup hi⟩
  | putChar =>
    obtain ⟨a, rfl⟩ := List.length_eq_one_iff.1 hlen
    obtain ⟨i, o, rfl, hi, hop⟩ := onCell_ok putChar hrs h
    refine ⟨fun w => w.send [w.get i], fun _ => rfl, _, putChar_performs hop, fun m w hw => ?_⟩
    rw [hw.get hi]
    exact hw.send _
  | putStringConstant =>
    obtain ⟨a, rfl⟩ := List.length_eq_one_iff.1 hlen
    obtain ⟨t, rfl, hop⟩ := onText_ok putStringConstant hrs h
    obtain ⟨s, hs, hnonneg, last, hperforms⟩ := putStringConstant_performs hop
    refine ⟨fun w => w.send (t.toList.map fun c => UInt8.ofNat c.toNat), fun _ => rfl, _, hperforms,
      fun m w hw => ?_⟩
    -- the scratch cell is free, so it is not the cell of a variable
    refine (hw.send _).of_cells (fun o ho => ?_) rfl rfl
    have hne : o ≠ s := fun heq => hlayout.notMem hs hnonneg (heq ▸ ho)
    simp [hne]
  | beginLoop | endLoop | growStack | shrinkStack => exact absurd trivial hb

end Frame

end TapeToolchain
