import Mathlib.Data.List.Chain

/-!
Texts as runs. Every text falls into runs of the same character that are as long as possible
(`runs`), which can be told from a list of runs by itself: no run is empty, and runs that follow
each other differ (`SeparateRuns`).
-/

namespace TapeToolchain

/-- The longest runs of a text, each with its length. -/
def runs {α : Type} [DecidableEq α] : List α → List (α × Nat)
  | [] => []
  | a :: rest =>
    match runs rest with
    | (b, k) :: more => if a = b then (b, k + 1) :: more else (a, 1) :: (b, k) :: more
    | [] => [(a, 1)]

def runsText {α : Type} (rs : List (α × Nat)) : List α :=
  rs.flatMap fun r => List.replicate r.2 r.1

/-- No run is empty, and neighbours differ. -/
structure SeparateRuns {α : Type} (rs : List (α × Nat)) : Prop where
  positive : ∀ r ∈ rs, 0 < r.2
  apart : rs.IsChain fun r s => r.1 ≠ s.1

variable {α β : Type} {rs : List (α × Nat)} {r : α × Nat}

@[simp] theorem runsText_nil : runsText ([] : List (α × Nat)) = [] := rfl

@[simp] theorem runsText_cons (r : α × Nat) (rs : List (α × Nat)) :
    runsText (r :: rs) = List.replicate r.2 r.1 ++ runsText rs := rfl

theorem map_runsText (g : α → β) (rs : List (α × Nat)) :
    (runsText rs).map g = runsText (rs.map fun r => (g r.1, r.2)) := by
  simp [runsText, List.map_flatMap, List.flatMap_map]

theorem runsText_runs [DecidableEq α] (text : List α) : runsText (runs text) = text := by
  induction text with
  | nil => rfl
  | cons a rest ih =>
    rw [runs]
    split
    · next b k more hruns =>
      rw [hruns] at ih
      split
      · next hab => subst hab; simp [List.replicate_succ, ← ih]
      · simp [← ih]
    · next hruns =>
      rw [hruns] at ih
      simp [← ih]

theorem separateRuns_runs [DecidableEq α] (text : List α) : SeparateRuns (runs text) := by
  induction text with
  | nil => exact ⟨nofun, .nil⟩
  | cons a rest ih =>
    rw [runs]
    split
    · next b k more hruns =>
      rw [hruns] at ih
      obtain ⟨hb, hmore⟩ := List.forall_mem_cons.1 ih.positive
      split
      · exact ⟨List.forall_mem_cons.2 ⟨Nat.succ_pos k, hmore⟩,
          List.isChain_cons.2 (List.isChain_cons.1 ih.apart)⟩
      · next hab =>
        exact ⟨List.forall_mem_cons.2 ⟨Nat.one_pos, ih.positive⟩, .cons_cons hab ih.apart⟩
    · exact ⟨by simp, .singleton _⟩

theorem runs_replicate [DecidableEq α] (a : α) (k : Nat) :
    runs (List.replicate (k + 1) a) = [(a, k + 1)] := by
  induction k with
  | zero => rfl
  | succ k ih =>
    rw [List.replicate_succ, runs, ih]
    exact if_pos rfl

namespace SeparateRuns

theorem tail (h : SeparateRuns (r :: rs)) : SeparateRuns rs :=
  ⟨(List.forall_mem_cons.1 h.positive).2, (List.isChain_cons.1 h.apart).2⟩

theorem fst_mem (h : SeparateRuns rs) (hr : r ∈ rs) : r.1 ∈ runsText rs :=
  List.mem_flatMap.2 ⟨r, hr, List.mem_replicate.2 ⟨Nat.ne_of_gt (h.positive r hr), rfl⟩⟩

/-- After a run comes another character. -/
theorem head?_ne (h : SeparateRuns (r :: rs)) : (runsText rs).head? ≠ some r.1 := by
  cases rs with
  | nil => nofun
  | cons s rs =>
    obtain ⟨k, hk⟩ :=
      Nat.exists_eq_add_one_of_ne_zero (Nat.ne_of_gt (h.tail.positive s List.mem_cons_self))
    rw [runsText_cons, hk, List.replicate_succ, List.cons_append, List.head?_cons]
    intro hsame
    exact (List.isChain_cons_cons.1 h.apart).1 (Option.some.inj hsame).symm

theorem map (h : SeparateRuns rs) {g : α × Nat → β × Nat} (hpos : ∀ r, 0 < r.2 → 0 < (g r).2)
    (hne : ∀ r ∈ rs, ∀ s ∈ rs, r.1 ≠ s.1 → (g r).1 ≠ (g s).1) : SeparateRuns (rs.map g) := by
  refine ⟨fun s hs => ?_, ?_⟩
  · obtain ⟨r, hr, rfl⟩ := List.mem_map.1 hs
    exact hpos r (h.positive r hr)
  · rw [List.isChain_map]
    exact h.apart.imp_of_mem_imp fun r s hr hs => hne r hr s hs

end SeparateRuns

end TapeToolchain
