import TapeToolchain.Proofs.Execution.Segment

/-!
The tape has no marks: a machine whose cursor and cells are moved by a distance does the same as
before, moved by that distance (`Executes.shifted`). And a piece of code leads to one end only
(`Executes.unique`).
-/

namespace TapeToolchain

/-- The memory as it looks from a place further to the right. -/
def Memory.shifted (m : Memory) (d : Int) : Memory :=
  { m with cells := fun p => m.cells (p + d) }

namespace Memory

@[simp] theorem cells_shifted (m : Memory) (d p : Int) :
    (m.shifted d).cells p = m.cells (p + d) := rfl

@[simp] theorem input_shifted (m : Memory) (d : Int) : (m.shifted d).input = m.input := rfl

@[simp] theorem output_shifted (m : Memory) (d : Int) : (m.shifted d).output = m.output := rfl

theorem shifted_shifted (m : Memory) (d : Int) : (m.shifted d).shifted (-d) = m := by
  refine ext_cells (fun p => ?_) rfl rfl
  simp

theorem set_shifted (m : Memory) (d p : Int) (v : UInt8) :
    (m.shifted d).set (p - d) v = (m.set p v).shifted d := by
  refine ext_cells (fun q => ?_) rfl rfl
  have hiff : q = p - d ↔ q + d = p := by omega
  simp [hiff]

theorem act_shifted (i : Instruction) (d p : Int) (m : Memory) :
    i.act (p - d) (m.shifted d) = (i.act p m).shifted d := by
  have hcell : (m.shifted d).cells (p - d) = m.cells p := by simp
  cases i with
  | increment | decrement => simp only [Instruction.act, hcell, set_shifted]
  | write => simp only [Instruction.act, hcell]; rfl
  | read =>
    simp only [Instruction.act, receive, input_shifted]
    cases m.input with
    | nil => rfl
    | cons byte rest => simp only [set_shifted]; rfl
  | left | right | loopBegin | loopEnd => rfl

end Memory

namespace Machine

def shifted (s : Machine) (d : Int) : Machine :=
  ⟨s.next, s.cursor - d, s.memory.shifted d⟩

theorem current_shifted (s : Machine) (d : Int) : (s.shifted d).current = s.current := by
  simp [current, shifted]

theorem step_shifted (code : List Instruction) (s : Machine) (d : Int) :
    step code (s.shifted d) = (step code s).map (·.shifted d) := by
  have hnext : (s.shifted d).next = s.next := rfl
  simp only [step, current_shifted, hnext]
  cases code[s.next]? with
  | none => rfl
  | some i =>
    cases i with
    | loopBegin | loopEnd =>
      by_cases hzero : s.current = 0
      · simp [shifted, Function.comp_def, hzero]
      · simp [shifted, Function.comp_def, hzero]
    | increment | decrement | left | right | read | write =>
      simp only [shifted, Memory.act_shifted, Option.map_some, Option.some.injEq, mk.injEq,
        true_and, and_true]
      omega

theorem Reaches.shifted {code : List Instruction} {s t : Machine} (h : Reaches code s t) (d : Int) :
    Reaches code (s.shifted d) (t.shifted d) := by
  obtain ⟨n, hn⟩ := h
  refine ⟨n, ?_⟩
  induction n generalizing s with
  | zero => cases hn; rfl
  | succ n ih =>
    rw [runFor] at hn ⊢
    rw [step_shifted]
    cases hs : step code s with
    | none => rw [hs] at hn; cases hn
    | some u => rw [hs] at hn; exact ih hn

end Machine

namespace Executes

theorem shifted {seg : List Instruction} {p p' : Int} {m m' : Memory} (h : Executes seg p m p' m')
    (d : Int) : Executes seg (p - d) (m.shifted d) (p' - d) (m'.shifted d) :=
  fun before after => (h before after).shifted d

/-- A piece of code has one end only. -/
theorem unique {seg : List Instruction} {p p₁ p₂ : Int} {m m₁ m₂ : Memory}
    (h₁ : Executes seg p m p₁ m₁) (h₂ : Executes seg p m p₂ m₂) : p₁ = p₂ ∧ m₁ = m₂ := by
  have hsame := Machine.eq_of_halted (h₁ [] []) (by simp [Machine.Halted]) (h₂ [] [])
    (by simp [Machine.Halted])
  simpa using hsame

end Executes

end TapeToolchain
