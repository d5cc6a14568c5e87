import TapeToolchain.Text.Hex
import Mathlib.Algebra.Group.Nat.Defs

/-!
Hexadecimal text of a fixed width. A number that fits in the width is padded to exactly its last
digits (`toList_padded`), which can be written one after the other (`lastDigits_add`). Padded or
not, the text reads back as the number (`value_padded`).
-/

namespace TapeToolchain.Hex

/-- The last `width` digits of `n`, the most significant first. -/
def lastDigits : (width n : Nat) → List Char
  | 0, _ => []
  | width + 1, n => lastDigits width (n / 16) ++ [digit (n % 16)]

theorem lastDigits_zero (width : Nat) : lastDigits width 0 = List.replicate width '0' := by
  induction width with
  | zero => rfl
  | succ width ih => rw [lastDigits, Nat.zero_div, ih, List.replicate_succ']; rfl

theorem lastDigits_add (v w n : Nat) :
    lastDigits (v + w) n = lastDigits v (n / 16 ^ w) ++ lastDigits w n := by
  induction w generalizing n with
  | zero => simp [lastDigits]
  | succ w ih =>
    rw [← Nat.add_assoc, lastDigits, ih, lastDigits, Nat.div_div_eq_div_mul, Nat.pow_succ',
      List.append_assoc]

theorem lastDigits_mod (width n : Nat) :
    lastDigits width (n % 16 ^ width) = lastDigits width n := by
  induction width generalizing n with
  | zero => rfl
  | succ width ih =>
    have hdiv : n % 16 ^ (width + 1) / 16 = n / 16 % 16 ^ width := by
      rw [Nat.pow_succ', Nat.mod_mul_right_div_self]
    have hmod : n % 16 ^ (width + 1) % 16 = n % 16 :=
      Nat.mod_mod_of_dvd _ ⟨16 ^ width, Nat.pow_succ'⟩
    rw [lastDigits, hdiv, ih, hmod, lastDigits]

theorem toList_padded {width n : Nat} (hpos : 0 < width) (h : n < 16 ^ width) :
    (padded width n).toList = lastDigits width n := by
  rw [padded, String.toList_ofList]
  induction width generalizing n with
  | zero => cases hpos
  | succ width ih =>
    rw [digits, lastDigits]
    split
    · next hlt =>
      rw [Nat.div_eq_of_lt hlt, lastDigits_zero, Nat.mod_eq_of_lt hlt]
      rfl
    · next hge =>
      have hdiv : n / 16 < 16 ^ width := Nat.div_lt_of_lt_mul (Nat.pow_succ' ▸ h)
      have hwidth : 0 < width := by
        refine Nat.pos_of_ne_zero fun hzero => ?_
        subst hzero
        omega
      rw [← ih hwidth hdiv, List.length_append, List.length_singleton, Nat.add_sub_add_right,
        List.append_assoc]

/-! ## Reading digits -/

/-- The digits in the order of their values. -/
def alphabet : List Char :=
  ['0', '1', '2', '3', '4', '5', '6', '7', '8', '9', 'a', 'b', 'c', 'd', 'e', 'f']

/-- The number that digits write, the most significant one first. -/
def value (digits : List Char) : Nat :=
  digits.foldl (fun n c => 16 * n + alphabet.idxOf c) 0

theorem digit_mem_alphabet {k : Nat} (h : k < 16) : digit k ∈ alphabet := by
  have hall : ∀ k < 16, digit k ∈ alphabet := by decide
  exact hall k h

theorem idxOf_digit {k : Nat} (h : k < 16) : alphabet.idxOf (digit k) = k := by
  have hall : ∀ k < 16, alphabet.idxOf (digit k) = k := by decide
  exact hall k h

theorem digits_subset_alphabet (n : Nat) : ∀ c ∈ digits n, c ∈ alphabet := by
  fun_induction digits n with
  | case1 n hlt => exact List.forall_mem_singleton.2 (digit_mem_alphabet hlt)
  | case2 n _ ih =>
    exact List.forall_mem_append.2
      ⟨ih, List.forall_mem_singleton.2 (digit_mem_alphabet (Nat.mod_lt n (by decide)))⟩

theorem padded_subset_alphabet (width n : Nat) : ∀ c ∈ (padded width n).toList, c ∈ alphabet := by
  rw [padded, String.toList_ofList]
  refine List.forall_mem_append.2 ⟨fun c hc => ?_, digits_subset_alphabet n⟩
  rw [List.eq_of_mem_replicate hc]
  decide

theorem value_append_singleton (cs : List Char) (c : Char) :
    value (cs ++ [c]) = 16 * value cs + alphabet.idxOf c := by
  rw [value, List.foldl_append]
  rfl

theorem value_digits (n : Nat) : value (digits n) = n := by
  fun_induction digits n with
  | case1 n hlt => simpa [value] using idxOf_digit hlt
  | case2 n _ ih =>
    rw [value_append_singleton, ih, idxOf_digit (Nat.mod_lt n (by decide))]
    omega

/-- Zeros in front do not matter. -/
theorem value_zeros_append (k : Nat) (cs : List Char) :
    value (List.replicate k '0' ++ cs) = value cs := by
  induction k with
  | zero => rfl
  | succ k ih =>
    rw [List.replicate_succ, List.cons_append, value, List.foldl_cons]
    exact ih

theorem value_padded (width n : Nat) : value (padded width n).toList = n := by
  rw [padded, String.toList_ofList, value_zeros_append, value_digits]

theorem padded_injective (width : Nat) {m n : Nat} (h : padded width m = padded width n) :
    m = n := by
  rw [← value_padded width m, h, value_padded]

/-- The digits are those that the library of numbers knows. -/
theorem digits_eq_toDigits (n : Nat) : digits n = Nat.toDigits 16 n := by
  have hdigit : ∀ k < 16, digit k = Nat.digitChar k := by decide
  fun_induction digits n with
  | case1 n hlt => rw [Nat.toDigits_of_lt_base hlt, hdigit n hlt]
  | case2 n hge ih =>
    rw [Nat.toDigits_of_base_le (by decide) (Nat.le_of_not_lt hge), ih,
      hdigit _ (Nat.mod_lt n (by decide))]

end TapeToolchain.Hex
