import TapeToolchain.Proofs.Execution.Brackets
import TapeToolchain.Proofs.Preliminaries

/-!
The brackets of a text, all other characters being ignored. Partners are an opening and a closing
bracket with balanced text between them. A text is followed from its start by the brackets that have
no partner so far (`Unpaired`): a closing bracket is the partner of the last open one, and what they
enclose then counts for nothing.
-/

namespace TapeToolchain

/-- No start of the text closes more brackets than it opens, and the whole text closes as many. -/
def BracketsBalanced (text : List Char) : Prop :=
  (∀ start, start <+: text → start.count ']' ≤ start.count '[') ∧ text.count '[' = text.count ']'

/-- The bracket at the second place closes the one at the first: what stands between them is
balanced. -/
def Partners (text : List Char) (i j : Nat) : Prop :=
  ∃ before inner after, text = before ++ '[' :: (inner ++ ']' :: after) ∧ before.length = i ∧
    i + 1 + inner.length = j ∧ BracketsBalanced inner

/-! ## Balanced texts and balanced code -/

theorem Instruction.isPlain_of_ofChar? {c : Char} {i : Instruction} (hi : ofChar? c = some i)
    (hopen : c ≠ '[') (hclose : c ≠ ']') : i.IsPlain := by
  rw [eq_toChar hi] at hopen hclose
  exact ⟨fun h => hopen (by rw [h]; rfl), fun h => hclose (by rw [h]; rfl)⟩

/-- The depth of open loops never falls below zero and is the surplus of opening brackets. -/
theorem nesting_filterMap_eq_some {text : List Char} {d d' : Nat} :
    nesting d (text.filterMap Instruction.ofChar?) = some d' ↔
      (∀ start, start <+: text → start.count ']' ≤ d + start.count '[') ∧
        d + text.count '[' = d' + text.count ']' := by
  induction text generalizing d with
  | nil => simp [nesting]
  | cons c text ih =>
    rw [List.forall_prefix_cons]
    by_cases hopen : c = '['
    · subst hopen
      show nesting (d + 1) (text.filterMap Instruction.ofChar?) = some d' ↔ _
      simp only [ih, List.count_cons_self, List.count_cons_of_ne (show '[' ≠ ']' by decide),
        List.count_nil]
      grind
    · by_cases hclose : c = ']'
      · subst hclose
        simp only [List.count_cons_self, List.count_cons_of_ne (show ']' ≠ '[' by decide),
          List.count_nil]
        cases d with
        | zero =>
          show none = some d' ↔ _
          -- the bracket itself is a start of the text that closes too much
          constructor
          · intro h
            cases h
          · intro h
            have hfirst := h.1.2 [] List.nil_prefix
            simp at hfirst
        | succ d =>
          show nesting d (text.filterMap Instruction.ofChar?) = some d' ↔ _
          rw [ih]
          grind
      · have hplain : nesting d ((c :: text).filterMap Instruction.ofChar?) =
            nesting d (text.filterMap Instruction.ofChar?) := by
          rw [List.filterMap_cons]
          split
          · rfl
          · next hi => exact nesting_plain (Instruction.isPlain_of_ofChar? hi hopen hclose) d _
        rw [hplain, ih]
        simp [hopen, hclose]

theorem bracketsBalanced_iff {text : List Char} :
    BracketsBalanced text ↔ Balanced (text.filterMap Instruction.ofChar?) := by
  rw [Balanced, nesting_filterMap_eq_some, BracketsBalanced]
  simp only [Nat.zero_add]

instance (text : List Char) : Decidable (BracketsBalanced text) :=
  decidable_of_iff _ bracketsBalanced_iff.symm

namespace BracketsBalanced

variable {text more : List Char}

theorem nil : BracketsBalanced [] :=
  bracketsBalanced_iff.2 .nil

theorem append (h : BracketsBalanced text) (hmore : BracketsBalanced more) :
    BracketsBalanced (text ++ more) := by
  rw [bracketsBalanced_iff, List.filterMap_append]
  exact (bracketsBalanced_iff.1 h).append (bracketsBalanced_iff.1 hmore)

theorem enclosed (h : BracketsBalanced text) : BracketsBalanced ('[' :: (text ++ [']'])) := by
  have hloop := (bracketsBalanced_iff.1 h).loop
  rw [bracketsBalanced_iff]
  simpa [List.filterMap_cons, List.filterMap_append, Instruction.ofChar?] using hloop

theorem single {c : Char} (hopen : c ≠ '[') (hclose : c ≠ ']') : BracketsBalanced [c] := by
  rw [bracketsBalanced_iff, Balanced, nesting_filterMap_eq_some, List.forall_prefix_cons]
  simp [hopen, hclose]

end BracketsBalanced

/-! ## Partners -/

namespace Partners

variable {text : List Char} {i i' j : Nat}

theorem append_right (h : Partners text i j) (more : List Char) : Partners (text ++ more) i j := by
  obtain ⟨before, inner, after, rfl, hi, hj, hinner⟩ := h
  exact ⟨before, inner, after ++ more, by simp, hi, hj, hinner⟩

/-- Of two brackets with the same partner neither comes after the other: between them one would be
left open. -/
theorem le (h : Partners text i j) (h' : Partners text i' j) : i' ≤ i := by
  obtain ⟨before, inner, after, htext, hi, hj, hinner⟩ := h
  obtain ⟨before', inner', after', htext', hi', hj', hinner'⟩ := h'
  -- otherwise the inner one of the two brackets is left open in the text between the outer one and
  -- the partner
  apply Nat.le_of_not_lt
  intro hlt
  have htake : text.take j = before ++ '[' :: inner := by
    rw [htext, ← List.cons_append, ← List.append_assoc]
    apply List.take_left'
    simp only [List.length_append, List.length_cons]
    omega
  have htake' : text.take j = before' ++ '[' :: inner' := by
    rw [htext', ← List.cons_append, ← List.append_assoc]
    apply List.take_left'
    simp only [List.length_append, List.length_cons]
    omega
  have hdrop : inner.drop (i' - (i + 1)) = '[' :: inner' := by
    have hinner_eq : inner = (text.take j).drop (i + 1) := by
      rw [htake, List.append_cons]
      exact (List.drop_left' (by simp [hi])).symm
    rw [hinner_eq, List.drop_drop, Nat.add_sub_cancel' hlt, htake']
    exact List.drop_left' hi'
  have hsplit : inner = inner.take (i' - (i + 1)) ++ '[' :: inner' := by
    rw [← hdrop, List.take_append_drop]
  have hstart := hinner.1 _ (List.take_prefix (i' - (i + 1)) inner)
  have hcount := hinner.2
  have hcount' := hinner'.2
  rw [hsplit, List.count_append, List.count_append, List.count_cons_self,
    List.count_cons_of_ne (by decide)] at hcount
  omega

theorem eq (h : Partners text i j) (h' : Partners text i' j) : i' = i :=
  Nat.le_antisymm (h.le h') (h'.le h)

end Partners

/-! ## Brackets without a partner -/

/-- The places of the brackets of a text that have no partner in it, the last ones first: those that
are still open, and those that close nothing. -/
inductive Unpaired : (text : List Char) → (opened stray : List Nat) → Prop where
  | none {text : List Char} : BracketsBalanced text → Unpaired text [] []
  | closing {before inner : List Char} {stray : List Nat} :
      Unpaired before [] stray → BracketsBalanced inner →
      Unpaired (before ++ ']' :: inner) [] (before.length :: stray)
  | opening {before inner : List Char} {opened stray : List Nat} :
      Unpaired before opened stray → BracketsBalanced inner →
      Unpaired (before ++ '[' :: inner) (before.length :: opened) stray

namespace Unpaired

variable {text : List Char} {opened stray : List Nat}

theorem bracketsBalanced (h : Unpaired text [] []) : BracketsBalanced text := by
  cases h with
  | none hbalanced => exact hbalanced

theorem append {more : List Char} (h : Unpaired text opened stray) (hmore : BracketsBalanced more) :
    Unpaired (text ++ more) opened stray := by
  cases h with
  | none hbalanced => exact .none (hbalanced.append hmore)
  | closing hbefore hinner =>
    rw [List.append_assoc, List.cons_append]
    exact .closing hbefore (hinner.append hmore)
  | opening hbefore hinner =>
    rw [List.append_assoc, List.cons_append]
    exact .opening hbefore (hinner.append hmore)

/-- A closing bracket is the partner of the last open one. -/
theorem close {i : Nat} (h : Unpaired text (i :: opened) stray) :
    Unpaired (text ++ [']']) opened stray ∧ Partners (text ++ [']']) i text.length := by
  cases h with
  | @opening before inner _ _ hbefore hinner =>
    have htext : before ++ '[' :: inner ++ [']'] = before ++ '[' :: (inner ++ [']']) := by simp
    rw [htext]
    refine ⟨hbefore.append hinner.enclosed, before, inner, [], rfl, rfl, ?_, hinner⟩
    simp only [List.length_append, List.length_cons]
    omega

theorem lt_length (h : Unpaired text opened stray) : ∀ i ∈ opened ++ stray, i < text.length := by
  induction h with
  | none _ => simp
  | closing _ _ ih | opening _ _ ih =>
    intro i hi
    simp only [List.length_append, List.length_cons]
    grind

/-- The places are listed from the last one to the first. -/
theorem descending (h : Unpaired text opened stray) :
    opened.Pairwise (· > ·) ∧ stray.Pairwise (· > ·) := by
  induction h with
  | none _ => simp
  | closing hbefore _ ih =>
    exact ⟨.nil, List.pairwise_cons.2 ⟨fun i hi => hbefore.lt_length i (List.mem_append_right _ hi),
      ih.2⟩⟩
  | opening hbefore _ ih =>
    exact ⟨List.pairwise_cons.2 ⟨fun i hi => hbefore.lt_length i (List.mem_append_left _ hi), ih.1⟩,
      ih.2⟩

end Unpaired

end TapeToolchain
