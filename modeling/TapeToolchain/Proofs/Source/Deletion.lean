import TapeToolchain.Proofs.Source.Matching
import Mathlib.Data.List.Nodup

/-!
Texts from which characters are deleted. Without its unpaired brackets a text is balanced
(`Unpaired.balanced_erased`), and it cannot be balanced by the deletion of fewer characters
(`Unpaired.length_le`): up to the last stray bracket there are too many closing brackets, after it
there are too many opening ones (`Unpaired.surplus`), and each deletion lessens a surplus by one at
most.
-/

namespace TapeToolchain

/-- The characters that stay when those at some places are deleted. -/
def kept (places : List Nat) (chars : List (Char × Nat)) : List Char :=
  (chars.filter fun x => x.2 ∉ places).map (·.1)

/-- The text without the characters at some places. -/
def erased (places : List Nat) (text : List Char) : List Char :=
  kept places text.zipIdx

/-! ## What a deletion takes away -/

theorem kept_append (places : List Nat) (a b : List (Char × Nat)) :
    kept places (a ++ b) = kept places a ++ kept places b := by
  simp [kept]

theorem count_kept_le (places : List Nat) (chars : List (Char × Nat)) (c : Char) :
    (kept places chars).count c ≤ (chars.map (·.1)).count c :=
  (List.filter_sublist.map _).count_le c

theorem count_le_kept (places : List Nat) (chars : List (Char × Nat)) (c : Char) :
    (chars.map (·.1)).count c ≤ (kept places chars).count c +
      (chars.filter (·.2 ∈ places)).length := by
  induction chars with
  | nil => simp
  | cons x chars ih =>
    by_cases hx : x.2 ∈ places
    · have hkept : kept places (x :: chars) = kept places chars := by simp [kept, hx]
      have hcount := List.count_cons (a := c) (b := x.1) (l := chars.map (·.1))
      rw [hkept, List.filter_cons_of_pos (by simpa using hx), List.map_cons, List.length_cons,
        hcount]
      split <;> omega
    · have hkept : kept places (x :: chars) = x.1 :: kept places chars := by simp [kept, hx]
      rw [hkept, List.filter_cons_of_neg (by simpa using hx), List.map_cons, List.count_cons,
        List.count_cons]
      omega

/-- Each place takes away one character at most. -/
theorem length_deleted_le (places : List Nat) (text : List Char) :
    (text.zipIdx.filter (·.2 ∈ places)).length ≤ places.length := by
  have hsub : ((text.zipIdx.filter (·.2 ∈ places)).map (·.2)).Sublist (List.range' 0 text.length) :=
    List.zipIdx_map_snd 0 text ▸ List.filter_sublist.map _
  rw [← List.length_map (·.2)]
  apply (hsub.nodup (List.nodup_range' ..)).length_le_of_subset
  intro i hi
  obtain ⟨x, hx, rfl⟩ := List.mem_map.1 hi
  simpa using (List.mem_filter.1 hx).2

/-! ## Unpaired brackets and deletions -/

namespace Unpaired

variable {text : List Char} {opened stray : List Nat}

/-- A first part of the text closes too much, by the stray brackets, and the rest opens too much, by
the open ones. -/
theorem surplus (h : Unpaired text opened stray) : ∃ first rest, text = first ++ rest ∧
    first.count ']' = first.count '[' + stray.length ∧
    rest.count '[' = rest.count ']' + opened.length := by
  induction h with
  | @none text hbalanced => exact ⟨text, [], (List.append_nil _).symm, hbalanced.2.symm, rfl⟩
  | @closing before inner stray hbefore hinner ih =>
    obtain ⟨first, rest, rfl, hfirst, hrest⟩ := ih
    have hcount := hinner.2
    refine ⟨first ++ rest ++ ']' :: inner, [], (List.append_nil _).symm, ?_, rfl⟩
    simp only [List.count_append, List.count_cons_self,
      List.count_cons_of_ne (show ']' ≠ '[' by decide), List.length_cons,
      List.length_nil] at hrest ⊢
    omega
  | @opening before inner opened stray hbefore hinner ih =>
    obtain ⟨first, rest, rfl, hfirst, hrest⟩ := ih
    have hcount := hinner.2
    refine ⟨first, rest ++ '[' :: inner, List.append_assoc .., hfirst, ?_⟩
    simp only [List.count_append, List.count_cons_self,
      List.count_cons_of_ne (show '[' ≠ ']' by decide), List.length_cons]
    omega

/-- As many characters have to be deleted as there are unpaired brackets. -/
theorem length_le (h : Unpaired text opened stray) {places : List Nat}
    (hbalanced : BracketsBalanced (erased places text)) :
    opened.length + stray.length ≤ places.length := by
  obtain ⟨first, rest, rfl, hfirst, hrest⟩ := h.surplus
  have hdeleted := length_deleted_le places (first ++ rest)
  rw [erased, List.zipIdx_append, kept_append, Nat.zero_add] at hbalanced
  rw [List.zipIdx_append, List.filter_append, List.length_append, Nat.zero_add] at hdeleted
  -- what stays of the first part closes no more than it opens, so what stays of the rest opens no
  -- more than it closes
  have hstart := hbalanced.1 _ (List.prefix_append _ _)
  have hall := hbalanced.2
  rw [List.count_append, List.count_append] at hall
  have hclose := count_le_kept places first.zipIdx ']'
  have hopen := count_kept_le places first.zipIdx '['
  have hopen' := count_le_kept places (rest.zipIdx first.length) '['
  have hclose' := count_kept_le places (rest.zipIdx first.length) ']'
  rw [List.zipIdx_map_fst] at hclose hopen hopen' hclose'
  omega

end Unpaired

end TapeToolchain
