import TapeToolchain.Frame.Emitter
import TapeToolchain.Proofs.Execution.Machine
import Mathlib.Tactic.Ring

/-!
Pieces of code at work. A piece executes from one cursor and memory to another if every machine that
comes to it, whatever code stands around it, gets to its end in that way. Pieces in sequence execute
one after the other. A loop is described by the function that the whole of it computes: a round does
not change what the function yields, and the loop is left where the function yields the memory
itself.
-/

namespace TapeToolchain

/-- Wherever the piece of code stands, a machine goes through it from the first cursor and memory to
the second. -/
def Executes (seg : List Instruction) (p : Int) (m : Memory) (p' : Int) (m' : Memory) : Prop :=
  ∀ before after, Machine.Reaches (before ++ seg ++ after) ⟨before.length, p, m⟩
    ⟨before.length + seg.length, p', m'⟩

namespace Memory

@[simp] theorem cells_set (m : Memory) (p q : Int) (v : UInt8) :
    (m.set p v).cells q = if q = p then v else m.cells q := by
  simp [set, Function.update_apply]

/-- Two memories with the same input and output are equal if their cells are. -/
theorem ext_cells {m m' : Memory} (hcells : ∀ p, m.cells p = m'.cells p)
    (hinput : m.input = m'.input) (houtput : m.output = m'.output) : m = m' :=
  Memory.ext (funext hcells) hinput houtput

theorem set_set (m : Memory) (p : Int) (u v : UInt8) : (m.set p u).set p v = m.set p v := by
  refine ext_cells (fun q => ?_) rfl rfl
  by_cases h : q = p <;> simp [h]

theorem set_cells (m : Memory) (p : Int) : m.set p (m.cells p) = m := by
  refine ext_cells (fun q => ?_) rfl rfl
  by_cases h : q = p <;> simp [h]

end Memory

namespace Executes

theorem nil (p : Int) (m : Memory) : Executes [] p m p m := by
  intro before after
  exact .refl _ _

theorem append {a b : List Instruction} {p₁ p₂ p₃ : Int} {m₁ m₂ m₃ : Memory}
    (ha : Executes a p₁ m₁ p₂ m₂) (hb : Executes b p₂ m₂ p₃ m₃) :
    Executes (a ++ b) p₁ m₁ p₃ m₃ := by
  intro before after
  have h₁ := ha before (b ++ after)
  have h₂ := hb (before ++ a) after
  simp only [List.length_append, List.append_assoc, Nat.add_assoc] at h₁ h₂ ⊢
  exact h₁.trans h₂

/-- One instruction that is no end of a loop. -/
theorem plain {i : Instruction} (h : i.IsPlain) (p : Int) (m : Memory) :
    Executes [i] p m (p + i.displacement) (i.act p m) := by
  intro before after
  apply Machine.Reaches.single
  rw [List.append_assoc]
  exact Machine.step_plain h

/-- The same instruction again and again. -/
theorem replicate {i : Instruction} (h : i.IsPlain) {F : Nat → Int → Memory → Memory}
    (hzero : ∀ p m, F 0 p m = m)
    (hsucc : ∀ n p m, F n (p + i.displacement) (i.act p m) = F (n + 1) p m) (n : Nat) (p : Int)
    (m : Memory) : Executes (List.replicate n i) p m (p + n * i.displacement) (F n p m) := by
  induction n generalizing p m with
  | zero =>
    rw [hzero]
    simpa using nil p m
  | succ n ih =>
    have hfirst := (plain h p m).append (ih (p + i.displacement) (i.act p m))
    have hcursor : p + i.displacement + n * i.displacement = p + (n + 1 : Nat) *
        i.displacement := by
      push_cast
      ring
    rw [hsucc, hcursor] at hfirst
    exact hfirst

theorem increments (n : Nat) (p : Int) (m : Memory) :
    Executes (List.replicate n .increment) p m p (m.set p (m.cells p + UInt8.ofNat n)) := by
  have h := replicate (i := .increment) (by decide)
    (F := fun n p m => m.set p (m.cells p + UInt8.ofNat n)) ?_ ?_ n p m
  · simpa [Instruction.displacement] using h
  · intro p m
    simp [Memory.set_cells]
  · intro n p m
    simp only [Instruction.displacement, Instruction.act, Int.add_zero, Memory.cells_set, if_true,
      Memory.set_set]
    have hn : UInt8.ofNat (n + 1) = UInt8.ofNat n + 1 := UInt8.ofNat_add n 1
    congr 1
    grind

theorem decrements (n : Nat) (p : Int) (m : Memory) :
    Executes (List.replicate n .decrement) p m p (m.set p (m.cells p - UInt8.ofNat n)) := by
  have h := replicate (i := .decrement) (by decide)
    (F := fun n p m => m.set p (m.cells p - UInt8.ofNat n)) ?_ ?_ n p m
  · simpa [Instruction.displacement] using h
  · intro p m
    simp [Memory.set_cells]
  · intro n p m
    simp only [Instruction.displacement, Instruction.act, Int.add_zero, Memory.cells_set, if_true,
      Memory.set_set]
    have hn : UInt8.ofNat (n + 1) = UInt8.ofNat n + 1 := UInt8.ofNat_add n 1
    congr 1
    grind

/-- Moving the cursor leaves the memory alone. -/
theorem motion (d p : Int) (m : Memory) : Executes (Emitter.motion d).toList p m (p + d) m := by
  rw [Emitter.motion, Array.toList_replicate]
  split
  · next hd =>
    have h := replicate (i := .left) (by decide) (F := fun _ _ m => m) (fun _ _ => rfl)
      (fun _ _ _ => rfl) d.natAbs p m
    have hcursor : p + d.natAbs * Instruction.left.displacement = p + d := by
      show p + d.natAbs * (-1) = p + d
      omega
    rwa [hcursor] at h
  · next hd =>
    have h := replicate (i := .right) (by decide) (F := fun _ _ m => m) (fun _ _ => rfl)
      (fun _ _ _ => rfl) d.natAbs p m
    have hcursor : p + d.natAbs * Instruction.right.displacement = p + d := by
      show p + d.natAbs * 1 = p + d
      omega
    rwa [hcursor] at h

/-- A loop goes on in rounds that keep an invariant and count down, until its cell is zero. -/
theorem rounds {body : List Instruction} {I : Nat → Int → Memory → Prop} (hbalanced : Balanced body)
    (hbody : ∀ n p m, I n p m → m.cells p ≠ 0 → ∃ n' < n, ∃ p' m', I n' p' m' ∧
      Executes body p m p' m')
    {n : Nat} {p : Int} {m : Memory} (hI : I n p m) :
    ∃ n' p' m', I n' p' m' ∧ m'.cells p' = 0 ∧
      Executes (.loopBegin :: (body ++ [.loopEnd])) p m p' m' := by
  -- Both ends of the loop test the cell, so the rounds that remain may be counted from either end.
  suffices hrounds : ∃ n' p' m', I n' p' m' ∧ m'.cells p' = 0 ∧ ∀ before after (next : Nat),
      (next = before.length ∨ next = before.length + 1 + body.length) →
      Machine.Reaches (before ++ .loopBegin :: (body ++ .loopEnd :: after)) ⟨next, p, m⟩
        ⟨before.length + body.length + 2, p', m'⟩ by
    obtain ⟨n', p', m', hI', hzero, hrun⟩ := hrounds
    refine ⟨n', p', m', hI', hzero, fun before after => ?_⟩
    have hcode : before ++ .loopBegin :: (body ++ [.loopEnd]) ++ after =
        before ++ .loopBegin :: (body ++ .loopEnd :: after) := by simp
    have hlength : before.length + (Instruction.loopBegin :: (body ++ [.loopEnd])).length =
        before.length + body.length + 2 := by
      simp only [List.length_cons, List.length_append, List.length_nil]
      omega
    rw [hcode, hlength]
    exact hrun before after _ (Or.inl rfl)
  induction n using Nat.strongRecOn generalizing p m with
  | ind n ih =>
    have htest : ∀ before after (next : Nat),
        (next = before.length ∨ next = before.length + 1 + body.length) →
        Machine.step (before ++ .loopBegin :: (body ++ .loopEnd :: after)) ⟨next, p, m⟩ =
          some ⟨if m.cells p = 0 then before.length + body.length + 2 else before.length + 1,
            p, m⟩ := by
      rintro before after next (rfl | rfl)
      · exact Machine.step_loopBegin hbalanced
      · exact Machine.step_loopEnd hbalanced
    by_cases hzero : m.cells p = 0
    · refine ⟨n, p, m, hI, hzero, fun before after next hnext => ?_⟩
      have hleave := htest before after next hnext
      rw [if_pos hzero] at hleave
      exact .single hleave
    · obtain ⟨n₁, hlt, p₁, m₁, hI₁, hround⟩ := hbody n p m hI hzero
      obtain ⟨n', p', m', hI', hzero', hrest⟩ := ih n₁ hlt hI₁
      refine ⟨n', p', m', hI', hzero', fun before after next hnext => ?_⟩
      have henter := htest before after next hnext
      rw [if_neg hzero] at henter
      have hround' := hround (before ++ [.loopBegin]) (.loopEnd :: after)
      simp only [List.append_assoc, List.cons_append, List.nil_append, List.length_append,
        List.length_cons, List.length_nil, Nat.zero_add] at hround'
      exact (Machine.Reaches.single henter).trans
        (hround'.trans (hrest before after _ (Or.inr rfl)))

/-- A loop computes `F` if a round `B` of it counts its cell down and changes nothing in what `F`
yields, and `F` yields the memory itself where the loop is left. -/
theorem loop {body : List Instruction} {p : Int} {B F : Memory → Memory} (hbalanced : Balanced body)
    (hbody : ∀ m, m.cells p ≠ 0 → Executes body p m p (B m))
    (hdown : ∀ m, m.cells p ≠ 0 → ((B m).cells p).toNat < (m.cells p).toNat)
    (hround : ∀ m, m.cells p ≠ 0 → F (B m) = F m) (hleave : ∀ m, m.cells p = 0 → F m = m)
    (m : Memory) : Executes (.loopBegin :: (body ++ [.loopEnd])) p m p (F m) := by
  have hkeep : ∀ n q m', (q = p ∧ n = (m'.cells p).toNat ∧ F m' = F m) → m'.cells q ≠ 0 →
      ∃ n' < n, ∃ q' m'', (q' = p ∧ n' = (m''.cells p).toNat ∧ F m'' = F m) ∧
        Executes body q m' q' m'' := by
    rintro n q m' ⟨rfl, rfl, hF⟩ hne
    exact ⟨_, hdown m' hne, q, B m', ⟨rfl, rfl, (hround m' hne).trans hF⟩, hbody m' hne⟩
  obtain ⟨n, q, m', ⟨rfl, -, hF⟩, hzero, hrun⟩ := rounds hbalanced hkeep ⟨rfl, rfl, rfl⟩
  rw [← hF, hleave m' hzero]
  exact hrun

end Executes

end TapeToolchain
