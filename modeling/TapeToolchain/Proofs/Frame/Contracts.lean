import TapeToolchain.Proofs.Frame.LogicEffect
import Mathlib.Data.List.Dedup

/-!
The contracts of the built-ins that compute. A call is described by its operands and by the values
that it leaves in the cells of the frame. Its code may use scratch cells, which are free and no
operands, and these are zero in the end; every other cell of the tape is as the call's description
says, on every memory that the code is run on.
-/

namespace TapeToolchain

namespace Memory

@[simp] theorem clearAll_nil (m : Memory) : m.clearAll [] = m := by
  refine ext_cells (fun p => ?_) rfl rfl
  simp

end Memory

namespace Frame

/-- The code between the two frames, alone or among other code, takes a machine with the cursor
where the first frame has it to the end of the code, with the cursor where the second frame has
it. -/
def Transforms (f f' : Frame) (m m' : Memory) : Prop :=
  ∃ code, f'.emitter.code.toList = f.emitter.code.toList ++ code ∧
    Executes code f.emitter.cursor m f'.emitter.cursor m'

theorem Performs.runs {f f' : Frame} {F : Memory → Memory} (h : f.Performs f' F) (m : Memory) :
    f.Transforms f' m (F m) := by
  obtain ⟨-, seg, hcode, -, hrun⟩ := h
  exact ⟨seg, hcode, hrun m⟩

theorem Transforms.trans {f₁ f₂ f₃ : Frame} {m₁ m₂ m₃ : Memory} (h₁ : f₁.Transforms f₂ m₁ m₂)
    (h₂ : f₂.Transforms f₃ m₂ m₃) : f₁.Transforms f₃ m₁ m₃ := by
  obtain ⟨code₁, hcode₁, hrun₁⟩ := h₁
  obtain ⟨code₂, hcode₂, hrun₂⟩ := h₂
  exact ⟨code₁ ++ code₂, by rw [hcode₂, hcode₁, List.append_assoc], hrun₁.append hrun₂⟩

/-- The values of the frame's cells, by their offsets. -/
def values (f : Frame) (m : Memory) (o : Int) : UInt8 :=
  m.cells (f.position o)

/-- A contract that was kept between two frames. The values that are found in the cells are given to
`result`, which says what is left there, except in the scratch cells. -/
structure Keeps (f f' : Frame) (operands temps : List Int) (result : (Int → UInt8) → Int → UInt8) :
    Prop where
  base : f'.emitter.base = f.emitter.base
  occupied : f'.cells = f.cells
  nodup : temps.Nodup
  spare : f.Spares operands temps
  run : ∀ m, ∃ m', f.Transforms f' m m' ∧ m'.input = m.input ∧ m'.output = m.output ∧
    ∀ o, f.values m' o = if o ∈ temps then 0 else result (f.values m) o

/-- A value is given to one cell, with scratch cells. -/
theorem Performs.keeps_assign {f f' : Frame} {operands temps : List Int} {dst : Int}
    {v : (Int → UInt8) → UInt8}
    (h : f.Performs f' fun m => (m.set (f.position dst) (v (f.values m))).clearAll
      (temps.map f.position))
    (hcells : f'.cells = f.cells) (hnodup : temps.Nodup) (hspares : f.Spares operands temps) :
    f.Keeps f' operands temps fun c => Function.update c dst (v c) := by
  refine ⟨h.base, hcells, hnodup, hspares, fun m => ⟨_, h.runs m, rfl, rfl, fun o => ?_⟩⟩
  simp [values, Function.update_apply]

/-- A value is given to one cell, and another one is emptied. -/
theorem Performs.keeps_empty {f f' : Frame} {operands : List Int} {src dst : Int}
    {v : (Int → UInt8) → UInt8}
    (h : f.Performs f' fun m => (m.set (f.position dst) (v (f.values m))).set (f.position src) 0)
    (hcells : f'.cells = f.cells) :
    f.Keeps f' operands [] fun c => Function.update (Function.update c dst (v c)) src 0 := by
  refine ⟨h.base, hcells, .nil, nofun, fun m => ⟨_, h.runs m, rfl, rfl, fun o => ?_⟩⟩
  simp [values, Function.update_apply]

/-- A value is given to one cell, without scratch cells. -/
theorem Performs.keeps_set {f f' : Frame} {operands : List Int} {dst : Int}
    {v : (Int → UInt8) → UInt8} (h : f.Performs f' fun m => m.set (f.position dst) (v (f.values m)))
    (hcells : f'.cells = f.cells) :
    f.Keeps f' operands [] fun c => Function.update c dst (v c) := by
  have hnone : f.Performs f' fun m =>
      (m.set (f.position dst) (v (f.values m))).clearAll (([] : List Int).map f.position) :=
    h.congr fun _ => (Memory.clearAll_nil _).symm
  exact hnone.keeps_assign hcells .nil nofun

/-! ## Arithmetic -/

/-- The calls that compute with numbers modulo 256. -/
inductive ArithmeticCall where
  | clear (dst : Int)
  | destructiveAdd (src dst : Int)
  | destructiveSub (src dst : Int)
  | move (src dst : Int)
  | copy (src dst : Int)
  | stackAdd (src dst : Int)
  | stackSub (src dst : Int)
  | constantAdd (constant dst : Int)
  | constantSub (constant dst : Int)

namespace ArithmeticCall

def action : ArithmeticCall → Action Unit
  | clear dst => Frame.clear dst
  | destructiveAdd src dst => Frame.destructiveAdd src dst
  | destructiveSub src dst => Frame.destructiveSub src dst
  | move src dst => Frame.move src dst
  | copy src dst => Frame.copy src dst
  | stackAdd src dst => Frame.stackAdd src dst
  | stackSub src dst => Frame.stackSub src dst
  | constantAdd constant dst => Frame.constantAdd constant dst
  | constantSub constant dst => Frame.constantSub constant dst

def operands : ArithmeticCall → List Int
  | clear dst | constantAdd _ dst | constantSub _ dst => [dst]
  | destructiveAdd src dst | destructiveSub src dst | move src dst | copy src dst | stackAdd src dst
  | stackSub src dst => [src, dst]

def scratchCells : ArithmeticCall → Nat
  | copy .. => 1
  | stackAdd .. | stackSub .. => 2
  | _ => 0

/-- The values that a call leaves behind. -/
def result (call : ArithmeticCall) (c : Int → UInt8) : Int → UInt8 :=
  match call with
  | clear dst => Function.update c dst 0
  | destructiveAdd src dst => Function.update (Function.update c dst (c dst + c src)) src 0
  | destructiveSub src dst => Function.update (Function.update c dst (c dst - c src)) src 0
  | move src dst => Function.update (Function.update c dst (c src)) src 0
  | copy src dst => Function.update c dst (c src)
  | stackAdd src dst => Function.update c dst (c dst + c src)
  | stackSub src dst => Function.update c dst (c dst - c src)
  | constantAdd constant dst => Function.update c dst (c dst + UInt8.ofNat constant.toNat)
  | constantSub constant dst => Function.update c dst (c dst - UInt8.ofNat constant.toNat)

theorem restores : ∀ call : ArithmeticCall, Restores call.action
  | clear dst => restores_compositional.clear dst
  | destructiveAdd src dst => restores_compositional.destructiveAdd src dst
  | destructiveSub src dst => restores_compositional.destructiveSub src dst
  | move src dst => restores_compositional.move src dst
  | copy src dst => restores_compositional.copy src dst
  | stackAdd src dst => restores_compositional.stackAdd src dst
  | stackSub src dst => restores_compositional.stackSub src dst
  | constantAdd constant dst => restores_compositional.constantAdd constant dst
  | constantSub constant dst => restores_compositional.constantSub constant dst

end ArithmeticCall

/-- Every arithmetic call that succeeds keeps its contract, with as many scratch cells as it needs.
A source that is also the destination of an addition is doubled, and one that is subtracted from
itself is zero. -/
theorem arithmetic_calls_keep_contracts (call : ArithmeticCall) {f f' : Frame}
    (h : call.action f = .ok () f') :
    ∃ temps, temps.length = call.scratchCells ∧ f.Keeps f' call.operands temps call.result := by
  have hcells := call.restores.1 _ _ _ h
  cases call with
  | clear dst =>
    exact ⟨[], rfl, (clear_performs h).keeps_set (v := fun _ => 0) hcells⟩
  | destructiveAdd src dst =>
    exact ⟨[], rfl, (destructiveAdd_performs h).2.keeps_empty (v := fun c => c dst + c src) hcells⟩
  | destructiveSub src dst =>
    exact ⟨[], rfl, (destructiveSub_performs h).2.keeps_empty (v := fun c => c dst - c src) hcells⟩
  | move src dst =>
    exact ⟨[], rfl, (move_performs h).2.keeps_empty (v := fun c => c src) hcells⟩
  | copy src dst =>
    obtain ⟨-, s, hspares, hperforms⟩ := copy_performs h
    exact ⟨[s], rfl, Performs.keeps_assign (v := fun c => c src) hperforms hcells
      (List.nodup_singleton s) hspares⟩
  | stackAdd src dst =>
    obtain ⟨s, t, hst, hspares, hperforms⟩ := stackAdd_performs h
    exact ⟨[s, t], rfl, Performs.keeps_assign (v := fun c => c dst + c src) hperforms hcells
      (by simp [hst]) hspares⟩
  | stackSub src dst =>
    obtain ⟨s, t, hst, hspares, hperforms⟩ := stackSub_performs h
    exact ⟨[s, t], rfl, Performs.keeps_assign (v := fun c => c dst - c src) hperforms hcells
      (by simp [hst]) hspares⟩
  | constantAdd constant dst =>
    obtain ⟨n, rfl, hperforms⟩ := constantAdd_performs h
    exact ⟨[], rfl, hperforms.keeps_set (v := fun c => c dst + UInt8.ofNat n) hcells⟩
  | constantSub constant dst =>
    obtain ⟨n, rfl, hperforms⟩ := constantSub_performs h
    exact ⟨[], rfl, hperforms.keeps_set (v := fun c => c dst - UInt8.ofNat n) hcells⟩

/-- A cell is doubled, next to an occupied cell, on a tape of five cells. -/
theorem arithmetic_calls_keep_contracts_doubled : ∃ f f' : Frame,
    (ArithmeticCall.stackAdd 1 1).action f = .ok () f' ∧
    ∃ temps, temps.length = 2 ∧
      f.Keeps f' [1, 1] temps fun c => Function.update c 1 (c 1 + c 1) := by
  obtain ⟨f', hf'⟩ := exists_eq_ok_of_run' (x := (ArithmeticCall.stackAdd 1 1).action)
    (s := ⟨.new 5, ⟨[0, 1], by decide⟩⟩) (a := ()) (by decide +kernel)
  exact ⟨_, f', hf', arithmetic_calls_keep_contracts _ hf'⟩

/-! ## Logic -/

/-- The calls that compute with truth values. -/
inductive LogicalCall where
  | asLogical (src dst : Int)
  | logicalNot (src dst : Int)
  | logicalAnd (a b dst : Int)
  | logicalOr (a b dst : Int)

namespace LogicalCall

def action : LogicalCall → Action Unit
  | asLogical src dst => Frame.asLogical src dst
  | logicalNot src dst => Frame.logicalNot src dst
  | logicalAnd a b dst => Frame.logicalAnd a b dst
  | logicalOr a b dst => Frame.logicalOr a b dst

def sources : LogicalCall → List Int
  | asLogical src _ | logicalNot src _ => [src]
  | logicalAnd a b _ | logicalOr a b _ => [a, b]

def destination : LogicalCall → Int
  | asLogical _ dst | logicalNot _ dst | logicalAnd _ _ dst | logicalOr _ _ dst => dst

/-- What a call finds out about its sources. -/
def truth (call : LogicalCall) (c : Int → UInt8) : UInt8 :=
  match call with
  | asLogical src _ => if c src = 0 then 0 else 1
  | logicalNot src _ => if c src = 0 then 1 else 0
  | logicalAnd a b _ => if c a ≠ 0 ∧ c b ≠ 0 then 1 else 0
  | logicalOr a b _ => if c a ≠ 0 ∨ c b ≠ 0 then 1 else 0

def result (call : LogicalCall) (c : Int → UInt8) : Int → UInt8 :=
  Function.update c call.destination (call.truth c)

theorem restores : ∀ call : LogicalCall, Restores call.action
  | asLogical src dst => restores_compositional.asLogical src dst
  | logicalNot src dst => restores_compositional.logicalNot src dst
  | logicalAnd a b dst => restores_compositional.logicalAnd a b dst
  | logicalOr a b dst => restores_compositional.logicalOr a b dst

/-- A call that succeeds has a destination apart from its sources, and gives it the truth value. -/
theorem computes (call : LogicalCall) {f f' : Frame} (h : call.action f = .ok () f') :
    call.destination ∉ call.sources ∧ f.Computes f' (call.sources ++ [call.destination])
      call.destination fun m => call.truth (f.values m) := by
  cases call with
  | asLogical src dst =>
    obtain ⟨hne, hcomputes⟩ := asLogical_computes h
    exact ⟨by simpa [destination, sources] using hne.symm, hcomputes⟩
  | logicalNot src dst =>
    obtain ⟨hne, hcomputes⟩ := logicalNot_computes h
    exact ⟨by simpa [destination, sources] using hne.symm, hcomputes⟩
  | logicalAnd a b dst =>
    obtain ⟨⟨ha, hb⟩, hcomputes⟩ := logicalAnd_computes h
    exact ⟨by simpa [destination, sources] using ⟨ha.symm, hb.symm⟩, hcomputes⟩
  | logicalOr a b dst =>
    obtain ⟨⟨ha, hb⟩, hcomputes⟩ := logicalOr_computes h
    exact ⟨by simpa [destination, sources] using ⟨ha.symm, hb.symm⟩, hcomputes⟩

end LogicalCall

/-- Every logical call that succeeds keeps its contract: whatever the destination held, it is one if
the call is true of its sources and zero if not, and the sources keep their values. The sources may
be one cell. -/
theorem logical_calls_keep_contracts (call : LogicalCall) {f f' : Frame}
    (h : call.action f = .ok () f') :
    call.destination ∉ call.sources ∧
      ∃ temps, f.Keeps f' (call.sources ++ [call.destination]) temps call.result := by
  obtain ⟨hne, temps, hspares, hperforms⟩ := call.computes h
  -- a scratch cell that was used twice is listed once
  refine ⟨hne, temps.dedup, Performs.keeps_assign (v := call.truth) ?_
    (call.restores.1 _ _ _ h) temps.nodup_dedup fun t ht => hspares t (List.mem_dedup.1 ht)⟩
  refine hperforms.congr fun m => Memory.ext_cells (fun p => ?_) rfl rfl
  simp

/-- The conjunction of a cell with itself, on a tape of five cells. -/
theorem logical_calls_keep_contracts_same_source : ∃ f f' : Frame,
    (LogicalCall.logicalAnd 0 0 1).action f = .ok () f' ∧
    (1 : Int) ∉ [(0 : Int), 0] ∧ ∃ temps, f.Keeps f' [0, 0, 1] temps fun c =>
      Function.update c 1 (if c 0 ≠ 0 ∧ c 0 ≠ 0 then 1 else 0) := by
  obtain ⟨f', hf'⟩ := exists_eq_ok_of_run' (x := (LogicalCall.logicalAnd 0 0 1).action)
    (s := ⟨.new 5, ⟨[0, 1], by decide⟩⟩) (a := ()) (by decide +kernel)
  exact ⟨_, f', hf', logical_calls_keep_contracts _ hf'⟩

end Frame

end TapeToolchain
