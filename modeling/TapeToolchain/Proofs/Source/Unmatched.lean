import TapeToolchain.Proofs.Source.Matching
import Mathlib.Data.List.Nodup

/-!
The brackets of a text that have no partner, by their places (`strayClosings`, `unclosedOpenings`).
They can be followed along the text (`Unpartnered`): a closing bracket has no partner if nothing is
open, since an opening bracket has one partner only, and otherwise it takes the last open bracket
away.
-/

namespace TapeToolchain

/-! ## Partners by their places -/

theorem partners_iff {text : List Char} {i j : Nat} :
    Partners text i j ↔ i < j ∧ text[i]? = some '[' ∧ text[j]? = some ']' ∧
      BracketsBalanced ((text.take j).drop (i + 1)) := by
  constructor
  · rintro ⟨before, inner, after, rfl, rfl, rfl, hinner⟩
    have htake : (before ++ '[' :: (inner ++ ']' :: after)).take
        (before.length + 1 + inner.length) = before ++ '[' :: inner := by
      rw [← List.cons_append, ← List.append_assoc]
      apply List.take_left'
      simp only [List.length_append, List.length_cons]
      omega
    refine ⟨by omega, by simp, ?_, ?_⟩
    · rw [List.getElem?_append_right (by omega), Nat.add_assoc, Nat.add_sub_cancel_left,
        Nat.add_comm 1]
      simp
    · rw [htake, List.append_cons, List.drop_left' (by simp)]
      exact hinner
  · rintro ⟨hlt, hi, hj, hinner⟩
    obtain ⟨hj', hclose⟩ := List.getElem?_eq_some_iff.1 hj
    have hi' : i < (text.take j).length := by rw [List.length_take]; omega
    have hopen : (text.take j)[i] = '[' := by
      rw [List.getElem_take]
      exact (List.getElem?_eq_some_iff.1 hi).2
    refine ⟨text.take i, (text.take j).drop (i + 1), text.drop (j + 1), ?_, ?_, ?_, hinner⟩
    · have htake : text.take i = (text.take j).take i := by
        rw [List.take_take, Nat.min_eq_left (Nat.le_of_lt hlt)]
      have hfirst : text.take j = text.take i ++ '[' :: (text.take j).drop (i + 1) := by
        rw [htake, ← hopen, ← List.drop_eq_getElem_cons hi', List.take_append_drop]
      have hrest : text.drop j = ']' :: text.drop (j + 1) := by
        rw [← hclose, ← List.drop_eq_getElem_cons hj']
      calc text = text.take j ++ text.drop j := (List.take_append_drop j text).symm
        _ = text.take i ++ '[' :: (text.take j).drop (i + 1) ++ ']' :: text.drop (j + 1) := by
          rw [← hfirst, hrest]
        _ = text.take i ++ '[' :: ((text.take j).drop (i + 1) ++ ']' :: text.drop (j + 1)) := by
          rw [List.append_assoc, List.cons_append]
    · rw [List.length_take]
      omega
    · rw [List.length_drop, List.length_take]
      omega

instance (text : List Char) (i j : Nat) : Decidable (Partners text i j) :=
  decidable_of_iff _ partners_iff.symm

namespace Partners

variable {text : List Char} {i j j' : Nat}

/-- What comes after a closing bracket does not matter to it. -/
theorem append_iff (hj : j < text.length) (more : List Char) :
    Partners (text ++ more) i j ↔ Partners text i j := by
  refine ⟨fun h => ?_, fun h => h.append_right more⟩
  obtain ⟨hlt, hi, hclose, hinner⟩ := partners_iff.1 h
  rw [List.getElem?_append_left (by omega)] at hi hclose
  rw [List.take_append_of_le_length (Nat.le_of_lt hj)] at hinner
  exact partners_iff.2 ⟨hlt, hi, hclose, hinner⟩

/-- The first of two partners of an opening bracket would close too much of what stands before the
second. -/
theorem le_right (h : Partners text i j) (h' : Partners text i j') : j ≤ j' := by
  obtain ⟨-, -, -, hinner⟩ := partners_iff.1 h
  obtain ⟨hlt', -, hclose', hinner'⟩ := partners_iff.1 h'
  apply Nat.le_of_not_lt
  intro hlt
  obtain ⟨hbound, -⟩ := List.getElem?_eq_some_iff.1 hclose'
  have hstart : (text.take j').drop (i + 1) ++ [']'] <+: (text.take j).drop (i + 1) := by
    have htake : (text.take (j' + 1)).drop (i + 1) = (text.take j').drop (i + 1) ++ [']'] := by
      rw [List.take_add_one, hclose',
        List.drop_append_of_le_length (by rw [List.length_take]; omega)]
      rfl
    rw [← htake, List.drop_take, List.drop_take]
    exact List.take_prefix_take_left (by omega)
  have hcount := hinner.1 _ hstart
  have hbalance := hinner'.2
  rw [List.count_append, List.count_append, List.count_singleton_self,
    List.count_cons_of_ne (by decide), List.count_nil] at hcount
  omega

theorem eq_right (h : Partners text i j) (h' : Partners text i j') : j' = j :=
  Nat.le_antisymm (h'.le_right h) (h.le_right h')

end Partners

/-! ## Brackets without a partner -/

/-- The places of the closing brackets without a partner, in their order. -/
def strayClosings (text : List Char) : List Nat :=
  (List.range text.length).filter fun j => text[j]? = some ']' ∧ ∀ i < j, ¬ Partners text i j

/-- The places of the opening brackets without a partner, in their order. -/
def unclosedOpenings (text : List Char) : List Nat :=
  (List.range text.length).filter fun i => text[i]? = some '[' ∧
    ∀ j < text.length, ¬ Partners text i j

theorem mem_strayClosings {text : List Char} {j : Nat} :
    j ∈ strayClosings text ↔ text[j]? = some ']' ∧ ∀ i, ¬ Partners text i j := by
  simp only [strayClosings, List.mem_filter, List.mem_range, decide_eq_true_eq]
  constructor
  · rintro ⟨-, hj, hnone⟩
    exact ⟨hj, fun i hi => hnone i (partners_iff.1 hi).1 hi⟩
  · rintro ⟨hj, hnone⟩
    exact ⟨(List.getElem?_eq_some_iff.1 hj).1, hj, fun i _ => hnone i⟩

theorem mem_unclosedOpenings {text : List Char} {i : Nat} :
    i ∈ unclosedOpenings text ↔ text[i]? = some '[' ∧ ∀ j, ¬ Partners text i j := by
  simp only [unclosedOpenings, List.mem_filter, List.mem_range, decide_eq_true_eq]
  constructor
  · rintro ⟨-, hi, hnone⟩
    exact ⟨hi, fun j hj => hnone j (List.getElem?_eq_some_iff.1 (partners_iff.1 hj).2.2.1).1 hj⟩
  · rintro ⟨hi, hnone⟩
    exact ⟨(List.getElem?_eq_some_iff.1 hi).1, hi, fun j _ => hnone j⟩

/-- The lists hold the places of the brackets that have no partner in the text. -/
structure Unpartnered (text : List Char) (opened stray : List Nat) : Prop where
  opened (i : Nat) : i ∈ opened ↔ text[i]? = some '[' ∧ ∀ j, ¬ Partners text i j
  stray (j : Nat) : j ∈ stray ↔ text[j]? = some ']' ∧ ∀ i, ¬ Partners text i j

/-- Only the new character can be the second of new partners. -/
theorem Partners.of_snoc {text : List Char} {c : Char} {i j : Nat}
    (h : Partners (text ++ [c]) i j) : Partners text i j ∨ j = text.length := by
  have hlt := (List.getElem?_eq_some_iff.1 (partners_iff.1 h).2.2.1).1
  rw [List.length_append, List.length_singleton] at hlt
  rcases Nat.lt_succ_iff_lt_or_eq.1 hlt with hlt | hlast
  · exact Or.inl ((append_iff hlt [c]).1 h)
  · exact Or.inr hlast

namespace Unpartnered

variable {text : List Char} {opened stray : List Nat}

theorem nil : Unpartnered [] [] [] :=
  ⟨by simp, by simp⟩

theorem opened_lt (h : Unpartnered text opened stray) {i : Nat} (hi : i ∈ opened) :
    i < text.length :=
  (List.getElem?_eq_some_iff.1 ((h.opened i).1 hi).1).1

theorem stray_lt (h : Unpartnered text opened stray) {j : Nat} (hj : j ∈ stray) : j < text.length :=
  (List.getElem?_eq_some_iff.1 ((h.stray j).1 hj).1).1

/-- An earlier opening bracket has no partner just if it had none and the new character is none. -/
theorem opened_snoc (h : Unpartnered text opened stray) (c : Char) {i : Nat}
    (hi : i ≠ text.length) :
    ((text ++ [c])[i]? = some '[' ∧ ∀ j, ¬ Partners (text ++ [c]) i j) ↔
      i ∈ opened ∧ ¬ Partners (text ++ [c]) i text.length := by
  have hsame : (text ++ [c])[i]? = text[i]? := by grind
  rw [hsame, h.opened i]
  constructor
  · rintro ⟨hopen, hnone⟩
    exact ⟨⟨hopen, fun j hj => hnone j (hj.append_right [c])⟩, hnone _⟩
  · rintro ⟨⟨hopen, hnone⟩, hlast⟩
    refine ⟨hopen, fun j hj => ?_⟩
    rcases hj.of_snoc with hbefore | rfl
    · exact hnone j hbefore
    · exact hlast hj

/-- A new character is no partner of an earlier closing bracket. -/
theorem stray_snoc (h : Unpartnered text opened stray) (c : Char) {j : Nat} (hj : j ≠ text.length) :
    ((text ++ [c])[j]? = some ']' ∧ ∀ i, ¬ Partners (text ++ [c]) i j) ↔ j ∈ stray := by
  have hsame : (text ++ [c])[j]? = text[j]? := by grind
  have hiff : ∀ i, Partners (text ++ [c]) i j ↔ Partners text i j :=
    fun i => ⟨fun hi => hi.of_snoc.resolve_right hj, fun hi => hi.append_right [c]⟩
  rw [hsame, h.stray j]
  simp only [hiff]

theorem plain (h : Unpartnered text opened stray) {c : Char} (hopen : c ≠ '[') (hclose : c ≠ ']') :
    Unpartnered (text ++ [c]) opened stray where
  opened i := by
    by_cases hi : i = text.length
    · subst hi
      have hnot : text.length ∉ opened := fun hmem => Nat.lt_irrefl _ (h.opened_lt hmem)
      simp [hnot, hopen]
    · have hnone : ¬ Partners (text ++ [c]) i text.length :=
        fun hp => hclose (by simpa using (partners_iff.1 hp).2.2.1)
      rw [h.opened_snoc c hi]
      exact (and_iff_left hnone).symm
  stray j := by
    by_cases hj : j = text.length
    · subst hj
      have hnot : text.length ∉ stray := fun hmem => Nat.lt_irrefl _ (h.stray_lt hmem)
      simp [hnot, hclose]
    · exact (h.stray_snoc c hj).symm

theorem opening (h : Unpartnered text opened stray) :
    Unpartnered (text ++ ['[']) (text.length :: opened) stray where
  opened i := by
    rw [List.mem_cons]
    by_cases hi : i = text.length
    · subst hi
      have hnone : ∀ j, ¬ Partners (text ++ ['[']) text.length j := by
        intro j hj
        obtain ⟨hlt, -, hclose, -⟩ := partners_iff.1 hj
        have hbound := (List.getElem?_eq_some_iff.1 hclose).1
        rw [List.length_append, List.length_singleton] at hbound
        omega
      simp [hnone]
    · have hnone : ¬ Partners (text ++ ['[']) i text.length := fun hp => by
        simpa using (partners_iff.1 hp).2.2.1
      rw [h.opened_snoc '[' hi]
      simp [hi, hnone]
  stray j := by
    by_cases hj : j = text.length
    · subst hj
      have hnot : text.length ∉ stray := fun hmem => Nat.lt_irrefl _ (h.stray_lt hmem)
      simp [hnot]
    · exact (h.stray_snoc '[' hj).symm

/-- If nothing is open, a closing bracket has no partner: every opening bracket before it has one
already. -/
theorem closing (h : Unpartnered text [] stray) :
    Unpartnered (text ++ [']']) [] (text.length :: stray) where
  opened i := by
    refine ⟨fun hmem => absurd hmem List.not_mem_nil, fun hi => ?_⟩
    have hne : i ≠ text.length := fun heq => by simp [heq] at hi
    exact ((h.opened_snoc ']' hne).1 hi).1
  stray j := by
    rw [List.mem_cons]
    by_cases hj : j = text.length
    · subst hj
      have hnone : ∀ i, ¬ Partners (text ++ [']']) i text.length := by
        intro i hi
        obtain ⟨hlt, hopen, -⟩ := partners_iff.1 hi
        rw [List.getElem?_append_left hlt] at hopen
        have hpaired : ¬ ∀ j, ¬ Partners text i j :=
          fun hnone => List.not_mem_nil ((h.opened i).2 ⟨hopen, hnone⟩)
        obtain ⟨j, hj⟩ := not_forall_not.1 hpaired
        have heq := (hj.append_right [']']).eq_right hi
        have hbound := (List.getElem?_eq_some_iff.1 (partners_iff.1 hj).2.2.1).1
        omega
      simp [hnone]
    · rw [h.stray_snoc ']' hj]
      simp [hj]

/-- The partner of a closing bracket is open no longer. -/
theorem close {i : Nat} (h : Unpartnered text (i :: opened) stray) (hnot : i ∉ opened)
    (hpartners : Partners (text ++ [']']) i text.length) :
    Unpartnered (text ++ [']']) opened stray where
  opened k := by
    by_cases hk : k = text.length
    · subst hk
      have hlast : text.length ∉ opened :=
        fun hmem => Nat.lt_irrefl _ (h.opened_lt (List.mem_cons_of_mem i hmem))
      simp [hlast]
    · have hunique : Partners (text ++ [']']) k text.length ↔ k = i :=
        ⟨fun hp => hpartners.eq hp, fun heq => heq ▸ hpartners⟩
      rw [h.opened_snoc ']' hk, hunique, List.mem_cons]
      constructor
      · intro hmem
        exact ⟨Or.inr hmem, fun heq => hnot (heq ▸ hmem)⟩
      · rintro ⟨hmem, hne⟩
        exact hmem.resolve_left hne
  stray j := by
    by_cases hj : j = text.length
    · subst hj
      have hlast : text.length ∉ stray := fun hmem => Nat.lt_irrefl _ (h.stray_lt hmem)
      simp only [hlast, false_iff, not_and, not_forall, not_not]
      exact fun _ => ⟨i, hpartners⟩
    · exact (h.stray_snoc ']' hj).symm

end Unpartnered

end TapeToolchain
