import TapeToolchain.Proofs.Emission.Operation

/-!
The places of written code among the marks of its emission, and where a step of the machine leads
among them. A step goes to the place behind some instruction: its own, or the partner of the loop
start or loop end that it is at (`step_leads`).
-/

namespace TapeToolchain.Emitter

/-- The number of marks up to the `n`-th instruction, which is the last of them. -/
def placeOf : List Mark → Nat → Nat
  | _, 0 => 0
  | [], _ + 1 => 0
  | .instruction _ :: rest, n + 1 => placeOf rest n + 1
  | .rebase _ :: rest, n + 1 => placeOf rest (n + 1) + 1

/-- A piece of code at an instruction is a piece of the marks at that instruction. -/
theorem codeOf_eq_append {marks : List Mark} {before after : List Instruction} {i : Instruction}
    (h : codeOf marks = before ++ i :: after) :
    ∃ a c, marks = a ++ .instruction i :: c ∧ codeOf a = before ∧ codeOf c = after := by
  obtain ⟨a, rest, rfl, ha, hrest⟩ := List.filterMap_eq_append_iff.1 h
  obtain ⟨gap, mark, c, rfl, hgap, hmark, hc⟩ := List.filterMap_eq_cons_iff.1 hrest
  refine ⟨a ++ gap, c, ?_, ?_, hc⟩
  · cases mark with
    | instruction j => cases hmark; simp
    | rebase d => cases hmark
  · have : codeOf gap = [] := List.filterMap_eq_nil_iff.2 hgap
    rw [codeOf_append, this, List.append_nil]
    exact ha

theorem placeOf_append (a : List Mark) (i : Instruction) (c : List Mark) :
    placeOf (a ++ .instruction i :: c) ((codeOf a).length + 1) = a.length + 1 := by
  induction a with
  | nil => simp [placeOf]
  | cons mark a ih =>
    cases mark with
    | instruction j => simp [placeOf, ih]
    | rebase d => simp [placeOf, ih]

/-- Where a step leads: behind its own instruction, or behind its partner if it is at one end of a
loop. -/
theorem step_leads {a c : List Mark} {i : Instruction} {s t : Machine}
    (hs : s.next = (codeOf a).length)
    (h : Machine.step (codeOf (a ++ .instruction i :: c)) s = some t) :
    t.cursor = s.cursor + i.displacement ∧
      (t.next = (codeOf a).length + 1 ∨
        (i = .loopBegin ∧ ∃ body rest, c = body ++ .instruction .loopEnd :: rest ∧
          Balanced (codeOf body) ∧
          t.next = (codeOf (a ++ .instruction .loopBegin :: body)).length + 1) ∨
        (i = .loopEnd ∧ ∃ first body, a = first ++ .instruction .loopBegin :: body ∧
          Balanced (codeOf body) ∧ t.next = (codeOf first).length + 1)) := by
  have hi : (codeOf (a ++ .instruction i :: c))[s.next]? = some i := by simp [hs]
  rcases i.cases_plain with rfl | rfl | hplain
  · rw [Machine.step, hi] at h
    simp only at h
    split at h
    · obtain ⟨n, hn, rfl⟩ := Option.map_eq_some_iff.1 h
      obtain ⟨k, hk, rfl⟩ := Option.map_eq_some_iff.1 hn
      have hd : (codeOf (a ++ .instruction .loopBegin :: c)).drop (s.next + 1) = codeOf c := by
        rw [hs, codeOf_append, ← List.drop_drop, List.drop_left]; rfl
      rw [hd] at hk
      obtain ⟨body, rest, hbody, rfl, hnest⟩ := closingDistance_eq_some hk
      obtain ⟨mb, mc, rfl, rfl, -⟩ := codeOf_eq_append hbody
      refine ⟨(Int.add_zero _).symm, Or.inr (Or.inl ⟨rfl, mb, mc, rfl, hnest, ?_⟩)⟩
      simp only [codeOf_append, codeOf_instruction, List.length_append, List.length_cons, hs]
      omega
    · cases h
      exact ⟨(Int.add_zero _).symm, Or.inl (by rw [hs])⟩
  · rw [Machine.step, hi] at h
    simp only at h
    split at h
    · cases h
      exact ⟨(Int.add_zero _).symm, Or.inl (by rw [hs])⟩
    · obtain ⟨n, hn, rfl⟩ := Option.map_eq_some_iff.1 h
      obtain ⟨k, hk, rfl⟩ := Option.map_eq_some_iff.1 hn
      have ht : (codeOf (a ++ .instruction .loopEnd :: c)).take s.next = codeOf a := by
        rw [hs, codeOf_append]; exact List.take_left
      rw [ht] at hk
      obtain ⟨body, rest, hbody, rfl, hnest⟩ := closingDistance_eq_some hk
      -- The search ran over the mirrored code, so what it found is read back from there.
      have hcode : codeOf a = mirrored rest ++ .loopBegin :: mirrored body := by
        rw [← mirrored_mirrored (codeOf a), hbody, mirrored_append]
        simp [mirrored, Instruction.mirror]
      obtain ⟨first, mb, rfl, hfirst, hmb⟩ := codeOf_eq_append hcode
      refine ⟨(Int.add_zero _).symm, Or.inr (Or.inr ⟨rfl, first, mb, rfl, ?_, ?_⟩)⟩
      · rw [hmb]; exact Balanced.mirrored hnest
      · have hlen : (codeOf mb).length = body.length := by rw [hmb, length_mirrored]
        simp only [codeOf_append, codeOf_instruction, List.length_append, List.length_cons] at hs
        show s.next - body.length = _
        omega
  · have hcode : codeOf (a ++ .instruction i :: c) = codeOf a ++ i :: codeOf c := by simp
    obtain ⟨n, p, m⟩ := s
    subst hs
    rw [hcode, Machine.step_plain hplain] at h
    cases h
    exact ⟨rfl, Or.inl rfl⟩

/-- Both ends of a loop that the emitter accepts are at the same offset, whatever its body does to
the base. -/
theorem relative_loop {body : List Mark} {e₀ e₁ e₂ e₃ : Emitter}
    (hbegin : step .loopBegin e₀ = .ok () e₁) (hbody : follow body e₁ = .ok () e₂)
    (hb : Balanced (codeOf body)) (hend : step .loopEnd e₂ = .ok () e₃) :
    e₁.relative = e₀.relative ∧ e₂.relative = e₀.relative ∧ e₃.relative = e₀.relative := by
  obtain ⟨-, hbase₁, hcursor₁, -, -, hloops₁, -⟩ := step_ok hbegin
  obtain ⟨-, hbase₃, hcursor₃, -, -, -, hloops₃, -⟩ := step_ok hend
  have h₁ : e₁.relative = e₀.relative := by
    rw [relative, hbase₁, hcursor₁]; exact congrArg (· - e₀.base) (Int.add_zero _)
  have h₃ : e₃.relative = e₂.relative := by
    rw [relative, hbase₃, hcursor₃]; exact congrArg (· - e₂.base) (Int.add_zero _)
  obtain ⟨opened, hopened, hloops₂⟩ :=
    loops_follow hbody [] (e₀.relative :: e₀.loops) (hloops₁ rfl) hb
  obtain rfl := List.eq_nil_of_length_eq_zero hopened
  have h₂ : e₂.relative = e₀.relative := by
    have := hloops₃ rfl
    rw [hloops₂, List.nil_append, List.cons.injEq] at this
    exact this.1.symm
  exact ⟨h₁, h₂, h₃.trans h₂⟩

end TapeToolchain.Emitter
