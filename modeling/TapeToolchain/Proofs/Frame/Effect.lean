import TapeToolchain.Proofs.Execution.Segment
import TapeToolchain.Proofs.Frame.Pool
import TapeToolchain.Proofs.Preliminaries

/-!
What the code of the emitter's operations computes. `Performs` says that the code between two
emitters takes any memory to its image under a function, with the cursor where the emitters say it
is. The two loops that the built-ins are made of empty a cell into others (`performs_transfer`) and
run something once if a cell is not zero (`performs_whenNonzero`).
-/

namespace TapeToolchain

namespace Memory

/-- Adds an amount to cells, as many times as they are listed. -/
def shiftAll (targets : List Int) (amount : UInt8) (m : Memory) : Memory :=
  { m with cells := fun p => m.cells p + UInt8.ofNat (targets.count p) * amount }

def clearAll (positions : List Int) (m : Memory) : Memory :=
  { m with cells := fun p => if p ∈ positions then 0 else m.cells p }

@[simp] theorem cells_shiftAll (targets : List Int) (amount : UInt8) (m : Memory) (p : Int) :
    (m.shiftAll targets amount).cells p = m.cells p + UInt8.ofNat (targets.count p) * amount := rfl

@[simp] theorem cells_clearAll (positions : List Int) (m : Memory) (p : Int) :
    (m.clearAll positions).cells p = if p ∈ positions then 0 else m.cells p := rfl

theorem shiftAll_nil (amount : UInt8) (m : Memory) : m.shiftAll [] amount = m := by
  refine ext_cells (fun p => ?_) rfl rfl
  simp

theorem shiftAll_cons (t : Int) (targets : List Int) (amount : UInt8) (m : Memory) :
    (m.set t (m.cells t + amount)).shiftAll targets amount = m.shiftAll (t :: targets) amount := by
  refine ext_cells (fun p => ?_) rfl rfl
  by_cases h : p = t
  · subst h
    have hcount : UInt8.ofNat (targets.count p + 1) = UInt8.ofNat (targets.count p) + 1 :=
      UInt8.ofNat_add _ 1
    simp only [cells_shiftAll, cells_set, if_true, List.count_cons_self, hcount]
    grind
  · simp [h, List.count_cons_of_ne (Ne.symm h)]

theorem shiftAll_singleton (t : Int) (amount : UInt8) (m : Memory) :
    m.shiftAll [t] amount = m.set t (m.cells t + amount) := by
  rw [← shiftAll_cons, shiftAll_nil]

end Memory

namespace Emitter

/-- The code that was written between the two emitters takes a memory to its image under `F`. -/
structure Performs (e e' : Emitter) (F : Memory → Memory) : Prop where
  base : e'.base = e.base
  code : ∃ seg, e'.code.toList = e.code.toList ++ seg ∧ Balanced seg ∧
    ∀ m, Executes seg e.cursor m e'.cursor (F m)

namespace Performs

theorem refl (e : Emitter) : Performs e e fun m => m :=
  ⟨rfl, [], by simp, .nil, fun m => .nil _ m⟩

theorem trans {e₁ e₂ e₃ : Emitter} {F G : Memory → Memory} (h₁ : Performs e₁ e₂ F)
    (h₂ : Performs e₂ e₃ G) : Performs e₁ e₃ fun m => G (F m) := by
  obtain ⟨hbase₁, seg₁, hcode₁, hbalanced₁, hrun₁⟩ := h₁
  obtain ⟨hbase₂, seg₂, hcode₂, hbalanced₂, hrun₂⟩ := h₂
  refine ⟨hbase₂.trans hbase₁, seg₁ ++ seg₂, ?_, hbalanced₁.append hbalanced₂, fun m => ?_⟩
  · rw [hcode₂, hcode₁, List.append_assoc]
  · exact (hrun₁ m).append (hrun₂ (F m))

theorem congr {e e' : Emitter} {F G : Memory → Memory} (h : Performs e e' F)
    (hFG : ∀ m, F m = G m) : Performs e e' G := by
  obtain rfl : F = G := funext hFG
  exact h

end Performs

/-! ## Single operations -/

theorem performs_moveTo {o : Int} {e e' : Emitter} (h : moveTo o e = .ok () e') :
    Performs e e' (fun m => m) ∧ e'.cursor = e.base + o := by
  obtain ⟨rfl, -⟩ := moveTo_ok h
  refine ⟨⟨rfl, (motion (e.base + o - e.cursor)).toList, by simp, ?_, fun m => ?_⟩, rfl⟩
  · rw [motion, Array.toList_replicate]
    apply Balanced.replicate
    split <;> decide
  · have := Executes.motion (e.base + o - e.cursor) e.cursor m
    rwa [show e.cursor + (e.base + o - e.cursor) = e.base + o by omega] at this

theorem performs_repeated {i : Instruction} (hi : i.IsPlain) {n : Nat} {F : Int → Memory → Memory}
    (hrun : ∀ p m, Executes (List.replicate n i) p m p (F p m)) {e e' : Emitter}
    (h : repeated i n e = .ok () e') : Performs e e' (F e.cursor) ∧ e'.cursor = e.cursor := by
  cases h
  exact ⟨⟨rfl, List.replicate n i, by simp, .replicate hi n, fun m => hrun e.cursor m⟩, rfl⟩

theorem performs_add {n : Nat} {e e' : Emitter} (h : add n e = .ok () e') :
    Performs e e' (fun m => m.set e.cursor (m.cells e.cursor + UInt8.ofNat n)) ∧
      e'.cursor = e.cursor :=
  performs_repeated (by decide) (F := fun p m => m.set p (m.cells p + UInt8.ofNat n))
    (Executes.increments n) h

theorem performs_sub {n : Nat} {e e' : Emitter} (h : sub n e = .ok () e') :
    Performs e e' (fun m => m.set e.cursor (m.cells e.cursor - UInt8.ofNat n)) ∧
      e'.cursor = e.cursor :=
  performs_repeated (by decide) (F := fun p m => m.set p (m.cells p - UInt8.ofNat n))
    (Executes.decrements n) h

theorem performs_read {e e' : Emitter} (h : read e = .ok () e') :
    Performs e e' (fun m => m.receive e.cursor) ∧ e'.cursor = e.cursor :=
  performs_repeated (by decide) (F := fun p m => m.receive p)
    (fun p m => by simpa [Instruction.displacement, Instruction.act] using
      Executes.plain (i := .read) (by decide) p m) h

theorem performs_write {e e' : Emitter} (h : write e = .ok () e') :
    Performs e e' (fun m => m.send [m.cells e.cursor]) ∧ e'.cursor = e.cursor :=
  performs_repeated (by decide) (F := fun p m => m.send [m.cells p])
    (fun p m => by simpa [Instruction.displacement, Instruction.act] using
      Executes.plain (i := .write) (by decide) p m) h

/-! ## Loops -/

theorem endLoop_ok {e e' : Emitter} (h : endLoop e = .ok () e') :
    e'.base = e.base ∧ e'.cursor = e.cursor ∧ e'.code = e.code.push .loopEnd := by
  simp only [endLoop] at h
  split at h
  · cases h
  · split at h
    · cases h; exact ⟨rfl, rfl, rfl⟩
    · cases h

/-- A loop on a cell. -/
theorem performs_loopOn {o : Int} {body : Action Unit} {e e' : Emitter} {B F : Memory → Memory}
    (h : loopOn o body e = .ok () e')
    (hbody : ∀ u v, u.base = e.base → u.cursor = e.base + o → body u = .ok () v → Performs u v B)
    (hdown : ∀ m, m.cells (e.base + o) ≠ 0 →
      ((B m).cells (e.base + o)).toNat < (m.cells (e.base + o)).toNat)
    (hround : ∀ m, m.cells (e.base + o) ≠ 0 → F (B m) = F m)
    (hleave : ∀ m, m.cells (e.base + o) = 0 → F m = m) :
    Performs e e' F ∧ e'.cursor = e.base + o := by
  obtain ⟨_, e₁, h₁, h⟩ := bind_eq_ok.1 h
  obtain ⟨_, e₂, h₂, h⟩ := bind_eq_ok.1 h
  obtain ⟨_, e₃, h₃, h⟩ := bind_eq_ok.1 h
  obtain ⟨_, e₄, h₄, h₅⟩ := bind_eq_ok.1 h
  obtain ⟨⟨hbase₁, seg₁, hcode₁, hbalanced₁, hrun₁⟩, hcursor₁⟩ := performs_moveTo h₁
  cases h₂
  obtain ⟨hbase₃, seg₃, hcode₃, hbalanced₃, hrun₃⟩ :=
    hbody _ e₃ (by exact hbase₁) (by exact hcursor₁) h₃
  obtain ⟨⟨hbase₄, seg₄, hcode₄, hbalanced₄, hrun₄⟩, hcursor₄⟩ := performs_moveTo h₄
  have hcursor : e₄.cursor = e.base + o := by rw [hcursor₄, hbase₃]; exact congrArg (· + o) hbase₁
  obtain ⟨hbase₅, hcursor₅, hcode₅⟩ := endLoop_ok h₅
  refine ⟨⟨?_, seg₁ ++ .loopBegin :: ((seg₃ ++ seg₄) ++ [.loopEnd]), ?_, ?_, fun m => ?_⟩, ?_⟩
  · rw [hbase₅, hbase₄, hbase₃]
    exact hbase₁
  · rw [hcode₅, Array.toList_push, hcode₄, hcode₃, Array.toList_push, hcode₁]
    simp
  · exact hbalanced₁.append (hbalanced₃.append hbalanced₄).loop
  · rw [hcursor₅, hcursor]
    refine (hcursor₁ ▸ hrun₁ m).append ?_
    refine Executes.loop (hbalanced₃.append hbalanced₄) (fun m _ => ?_) hdown hround hleave m
    have hround₃ : Executes seg₃ (e.base + o) m e₃.cursor (B m) := hcursor₁ ▸ hrun₃ m
    exact hround₃.append (hcursor ▸ hrun₄ (B m))
  · rw [hcursor₅, hcursor]

theorem performs_clearCell {o : Int} {e e' : Emitter} (h : clearCell o e = .ok () e') :
    Performs e e' (fun m => m.set (e.base + o) 0) ∧ e'.cursor = e.base + o := by
  refine performs_loopOn (B := fun m => m.set (e.base + o) (m.cells (e.base + o) - 1)) h ?_ ?_ ?_ ?_
  · intro u v _ hcursor hsub
    have hperforms := (performs_sub hsub).1
    rwa [hcursor] at hperforms
  · intro m hm
    simpa using UInt8.toNat_sub_one_lt hm
  · intro m _
    exact m.set_set _ _ _
  · intro m hm
    rw [← hm, m.set_cells]

/-- Steps at the targets, one after the other. -/
theorem performs_atEach {step : Action Unit} {amount : UInt8}
    (hstep : ∀ u v, step u = .ok () v →
      Performs u v fun m => m.set u.cursor (m.cells u.cursor + amount))
    (targets : List Int) {e e' : Emitter} (h : Frame.atEach targets step e = .ok () e') :
    Performs e e' (Memory.shiftAll (targets.map (e.base + ·)) amount) := by
  induction targets generalizing e with
  | nil =>
    cases h
    exact (Performs.refl _).congr fun m => (m.shiftAll_nil amount).symm
  | cons t rest ih =>
    obtain ⟨_, e₁, h₁, h⟩ := bind_eq_ok.1 h
    obtain ⟨_, e₂, h₂, h⟩ := bind_eq_ok.1 h
    obtain ⟨hmove, hcursor⟩ := performs_moveTo h₁
    have hshift := hstep e₁ e₂ h₂
    have hrest := ih h
    rw [hshift.base, hmove.base] at hrest
    rw [hcursor] at hshift
    refine ((hmove.trans hshift).trans hrest).congr fun m => ?_
    rw [List.map_cons, ← Memory.shiftAll_cons]

/-- Emptying a cell into others: each of them takes the value as many times as it is a target,
counted up or down by the step. -/
theorem performs_transfer {src : Int} {targets : List Int} (hsrc : src ∉ targets)
    {step : Action Unit} {amount : UInt8}
    (hstep : ∀ u v, step u = .ok () v →
      Performs u v fun m => m.set u.cursor (m.cells u.cursor + amount))
    {e e' : Emitter} (h : loopOn src (do sub 1; Frame.atEach targets step) e = .ok () e') :
    Performs e e'
      (fun m => (m.shiftAll (targets.map (e.base + ·)) (amount * m.cells (e.base + src))).set
      (e.base + src) 0) ∧ e'.cursor = e.base + src := by
  have hcount : (targets.map (e.base + ·)).count (e.base + src) = 0 := by
    apply List.count_eq_zero_of_not_mem
    intro hmem
    obtain ⟨t, ht, heq⟩ := List.mem_map.1 hmem
    obtain rfl : t = src := by omega
    exact hsrc ht
  refine performs_loopOn (B := fun m => (m.set (e.base + src) (m.cells (e.base + src) - 1)).shiftAll
    (targets.map (e.base + ·)) amount) h ?_ ?_ ?_ ?_
  · intro u v hbase hcursor hbody
    obtain ⟨_, w, hw, hbody⟩ := bind_eq_ok.1 hbody
    have hsub := (performs_sub hw).1
    have heach := performs_atEach hstep targets hbody
    rw [hsub.base, hbase] at heach
    rw [hcursor] at hsub
    exact hsub.trans heach
  · intro m hm
    simpa [hcount] using UInt8.toNat_sub_one_lt hm
  · -- a round takes one from the source, and what is to come is less by one step at each target
    intro m _
    refine Memory.ext_cells (fun p => ?_) rfl rfl
    by_cases hp : p = e.base + src
    · simp [hp]
    · simp only [Memory.cells_set, Memory.cells_shiftAll, hp, if_false, if_true, hcount]
      grind
  · intro m hm
    refine Memory.ext_cells (fun p => ?_) rfl rfl
    by_cases hp : p = e.base + src
    · simp [hp, hm]
    · simp [hp, hm]

/-- Doing something once if a cell is not zero. -/
theorem performs_whenNonzero {o : Int} {body : Action Unit} {X : Memory → Memory} {e e' : Emitter}
    (h : whenNonzero o body e = .ok () e')
    (hbody : ∀ u v, u.base = e.base → body u = .ok () v → Performs u v X) :
    Performs e e' (fun m => if m.cells (e.base + o) = 0 then m else (X m).set (e.base + o) 0) := by
  refine (performs_loopOn (B := fun m => (X m).set (e.base + o) 0) h ?_ ?_ ?_ ?_).1
  · intro u v hbase hcursor hrun
    obtain ⟨_, w, hw, hclear⟩ := bind_eq_ok.1 hrun
    have hX := hbody u w hbase hw
    have hzero := (performs_clearCell hclear).1
    rw [hX.base, hbase] at hzero
    exact hX.trans hzero
  · intro m hm
    have hpos : (m.cells (e.base + o)).toNat ≠ 0 := fun hzero => hm (UInt8.toNat.inj hzero)
    simpa using Nat.pos_of_ne_zero hpos
  · intro m hm
    simp [hm]
  · intro m hm
    simp [hm]

end Emitter

end TapeToolchain
