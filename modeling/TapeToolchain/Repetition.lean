/-!
Repetitions in lists, which parameters, pattern variables and operands must not have.
-/

namespace TapeToolchain

/-- The first element that is among those seen or stands before in the list. -/
def firstRepeated? [BEq α] : (seen : List α) → List α → Option α
  | _, [] => none
  | seen, x :: rest => if seen.contains x then some x else firstRepeated? (x :: seen) rest

theorem firstRepeated?_eq_none {α : Type} [BEq α] [LawfulBEq α] {seen l : List α} :
    firstRepeated? seen l = none ↔ l.Nodup ∧ ∀ x ∈ l, x ∉ seen := by
  induction l generalizing seen with
  | nil => simp [firstRepeated?]
  | cons x rest ih =>
    by_cases hx : x ∈ seen
    · simp [firstRepeated?, hx]
    · have hstep : firstRepeated? seen (x :: rest) = firstRepeated? (x :: seen) rest := by
        simp [firstRepeated?, hx]
      rw [hstep, ih]
      simp only [List.nodup_cons, List.mem_cons, not_or, forall_eq_or_imp]
      constructor
      · intro h
        obtain ⟨hnodup, hnew⟩ := h
        exact ⟨⟨fun hmem => (hnew x hmem).1 rfl, hnodup⟩, hx, fun y hy => (hnew y hy).2⟩
      · intro h
        obtain ⟨⟨hfirst, hnodup⟩, -, hnew⟩ := h
        exact ⟨hnodup, fun y hy => ⟨fun heq => hfirst (heq ▸ hy), hnew y hy⟩⟩

end TapeToolchain
