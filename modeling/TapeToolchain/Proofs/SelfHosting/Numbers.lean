import TapeToolchain.Proofs.Language.Stores
import TapeToolchain.Proofs.Preliminaries
import TapeToolchain.Proofs.SelfHosting.Macros
import TapeToolchain.Proofs.Text.Hex
import TapeToolchain.Source.Program

/-!
What the macros for arithmetic do.
-/

namespace TapeToolchain.SelfHosting

def HasLibrary (p : MacroProgram) : Prop :=
  ∀ m ∈ Library.macros, p.find? m.name = some m

variable {p : MacroProgram} {input output : List UInt8}

/-! ## Division -/

theorem flag_ne_zero : (1 : UInt8) ≠ 0 := by decide

/-- The names in a round of the division. -/
def divScope : Environment :=
  [("t", .var 4), ("r", .var 3), ("q", .var 2), ("y", .var 1), ("x", .var 0)]

/-- Units are taken away until the divisor is used up or nothing is left. -/
theorem ends_divUnits {rest : Block} {Q : Store → Prop} {x y q r t : UInt8} (hr : r ≠ 0)
    (ht : t ≠ 0)
    (hrest : ∀ (r' t' i : UInt8), (t' = 0 ↔ r' = 0) → i.toNat ≤ y.toNat →
      r'.toNat + (y.toNat - i.toNat) = r.toNat → (i = 0 ∨ r' = 0) →
      Ends p (("t2", .var 6) :: ("i", .var 5) :: divScope) rest
        ⟨[x, y, q, r', t', i, 0], none, input, output⟩ Q) :
    Ends p (("t2", .var 6) :: ("i", .var 5) :: divScope) (.whileNonzero "t2" Library.divUnit rest)
      ⟨[x, y, q, r, t, y, if y ≠ 0 ∧ t ≠ 0 then 1 else 0], none, input, output⟩ Q := by
  refine .loop (fun n st => ∃ r' t' i : UInt8, n = i.toNat ∧ (t' = 0 ↔ r' = 0) ∧ i.toNat ≤ y.toNat ∧
    r'.toNat + (y.toNat - i.toNat) = r.toNat ∧
    st = ⟨[x, y, q, r', t', i, if i ≠ 0 ∧ t' ≠ 0 then 1 else 0], none, input, output⟩) rfl
    ⟨r, t, y, rfl, ⟨fun h => absurd h ht, fun h => absurd h hr⟩, Nat.le_refl _, by simp, rfl⟩ ?_ ?_
  · rintro n _ ⟨r', t', i, rfl, hflag, hle, hsum, rfl⟩ hgoes
    have hboth : i ≠ 0 ∧ t' ≠ 0 := by
      by_contra hnot
      exact hgoes (if_neg hnot)
    have hi := UInt8.toNat_sub_one hboth.1
    have hr' := UInt8.toNat_sub_one (mt hflag.2 hboth.2)
    have hi₀ := UInt8.toNat_ne_zero hboth.1
    have hr₀ := UInt8.toNat_ne_zero (mt hflag.2 hboth.2)
    refine .straight 2 ⟨[x, y, q, r' - 1, t', i - 1, _], none, input, output⟩ rfl ?_
    refine .straight 1 ⟨[x, y, q, r' - 1, if r' - 1 = 0 then 0 else 1, i - 1, _], none, input,
      output⟩ rfl ?_
    refine .straight 1 ⟨[x, y, q, r' - 1, if r' - 1 = 0 then 0 else 1, i - 1,
      if i - 1 ≠ 0 ∧ (if r' - 1 = 0 then (0 : UInt8) else 1) ≠ 0 then 1 else 0], none, input,
      output⟩ rfl (.done ?_)
    refine ⟨_, by omega, r' - 1, if r' - 1 = 0 then 0 else 1, i - 1, rfl, by simp, by omega,
      by omega, rfl⟩
  · rintro n _ ⟨r', t', i, rfl, hflag, hle, hsum, rfl⟩ hzero
    have hstop : ¬ (i ≠ 0 ∧ t' ≠ 0) := fun hboth => by
      have hone : (if i ≠ 0 ∧ t' ≠ 0 then (1 : UInt8) else 0) = 0 := hzero
      rw [if_pos hboth] at hone
      exact absurd hone (by decide)
    rw [if_neg hstop]
    refine hrest r' t' i hflag hle hsum ?_
    rw [← hflag]
    tauto

/-- A round takes the divisor away and counts it, or comes to the end. -/
theorem ends_divRound {x y q r t : UInt8} (hy : y ≠ 0) (hr : r ≠ 0) (ht : t ≠ 0) :
    Ends p divScope Library.divRound ⟨[x, y, q, r, t], none, input, output⟩ fun st =>
      (r.toNat < y.toNat ∧ st = ⟨[x, y, q, 0, 0], none, input, output⟩) ∨
      ∃ r' t' : UInt8, r'.toNat + y.toNat = r.toNat ∧ (t' = 0 ↔ r' = 0) ∧
        st = ⟨[x, y, q + 1, r', t'], none, input, output⟩ := by
  have hy₀ := UInt8.toNat_ne_zero hy
  refine .declare 5 rfl fun _ => ?_
  refine .straight 1 ⟨[x, y, q, r, t, y], none, input, output⟩ rfl ?_
  refine .declare 6 rfl fun _ => ?_
  refine .straight 1 ⟨[x, y, q, r, t, y, if y ≠ 0 ∧ t ≠ 0 then 1 else 0], none, input,
    output⟩ rfl ?_
  refine ends_divUnits hr ht fun r' t' i hflag hle hsum hstop => ?_
  refine .declare 7 rfl fun _ => ?_
  refine .straight 1 ⟨[x, y, q, r', t', i, 0, if i = 0 then 1 else 0], none, input, output⟩ rfl ?_
  by_cases hi : i = 0
  · subst hi
    refine .enter (· = ⟨[x, y, q + 1, r', t', 0, 0, 1], none, input, output⟩) rfl flag_ne_zero
      (.straight 1 _ rfl (.done rfl)) ?_
    rintro _ rfl
    refine .declare 8 rfl fun _ => ?_
    refine .straight 1 ⟨[x, y, q + 1, r', t', 0, 0, 1, 0], none, input, output⟩ rfl ?_
    refine .skip rfl rfl (.done (Or.inr ⟨r', t', ?_, hflag, rfl⟩))
    simpa using hsum
  · obtain rfl : r' = 0 := hstop.resolve_left hi
    obtain rfl : t' = 0 := hflag.2 rfl
    have hi₀ := UInt8.toNat_ne_zero hi
    rw [if_neg hi]
    refine .skip rfl rfl ?_
    refine .declare 8 rfl fun _ => ?_
    refine .straight 1 ⟨[x, y, q, 0, 0, i, 0, 0, 1], none, input, output⟩ rfl ?_
    refine .enter (· = ⟨[x, y, q, 0, 0, i, 0, 0, 1], none, input, output⟩) rfl flag_ne_zero
      (.straight 1 _ rfl (.done rfl)) ?_
    rintro _ rfl
    refine .done (Or.inl ⟨?_, rfl⟩)
    simp at hsum
    omega

theorem ends_divQ (x y q : UInt8) (hy : y ≠ 0) :
    Ends p (Environment.bind [] Library.divQ.params [.var 0, .var 1, .var 2]) Library.divQ.body
      ⟨[x, y, q], none, input, output⟩ (· = ⟨[x, y, x / y], none, input, output⟩) := by
  have hy₀ := UInt8.toNat_ne_zero hy
  refine .declare 3 rfl fun _ => ?_
  refine .straight 2 ⟨[x, y, 0, x], none, input, output⟩ rfl ?_
  refine .declare 4 rfl fun _ => ?_
  refine .straight 1 ⟨[x, y, 0, x, if x = 0 then 0 else 1], none, input, output⟩ rfl ?_
  -- as long as the flag is set, something is left; then the quotient is found
  refine .loop (fun n st => ∃ q r t : UInt8, n = r.toNat ∧ (t ≠ 0 → r ≠ 0) ∧
    q.toNat * y.toNat + r.toNat ≤ x.toNat ∧ (t ≠ 0 → q.toNat * y.toNat + r.toNat = x.toNat) ∧
    (t = 0 → x.toNat < (q.toNat + 1) * y.toNat) ∧ st = ⟨[x, y, q, r, t], none, input, output⟩) rfl
    ⟨0, x, _, rfl, ?_, ?_, ?_, ?_, rfl⟩ ?_ ?_
  · exact fun ht hx => ht (if_pos hx)
  · simp
  · simp
  · intro ht
    have : x = 0 := by
      by_contra hx
      rw [if_neg hx] at ht
      exact absurd ht (by decide)
    subst this
    simpa using Nat.pos_of_ne_zero hy₀
  · rintro n _ ⟨q, r, t, rfl, hr, hle, hsum, -, rfl⟩ hne
    have hsum := hsum hne
    refine (ends_divRound hy (hr hne) hne).mono ?_
    rintro _ (⟨hlt, rfl⟩ | ⟨r', t', hr', hflag, rfl⟩)
    · refine ⟨0, Nat.pos_of_ne_zero (UInt8.toNat_ne_zero (hr hne)), q, 0, 0, rfl, nofun, ?_, nofun,
        fun _ => ?_, rfl⟩
      · exact Nat.le_trans (Nat.add_le_add_left (Nat.zero_le _) _) hle
      · rw [Nat.succ_mul]
        omega
    · have hq : (q + 1).toNat = q.toNat + 1 := by
        have hmul : (q.toNat + 1) * y.toNat ≤ x.toNat := by rw [Nat.succ_mul]; omega
        have hbound := Nat.le_trans (Nat.le_mul_of_pos_right _ (Nat.pos_of_ne_zero hy₀)) hmul
        have := x.toNat_lt
        rw [UInt8.toNat_add]
        exact Nat.mod_eq_of_lt (by simp; omega)
      have hsum' : (q + 1).toNat * y.toNat + r'.toNat = x.toNat := by rw [hq, Nat.succ_mul]; omega
      refine ⟨_, by omega, q + 1, r', t', rfl, fun ht hr => ht (hflag.2 hr), Nat.le_of_eq hsum',
        fun _ => hsum', fun ht => ?_, rfl⟩
      rw [Nat.succ_mul, ← hsum', hflag.1 ht]
      simpa using Nat.pos_of_ne_zero hy₀
  · rintro n _ ⟨q, r, t, rfl, -, hle, -, hdone, rfl⟩ hzero
    have hq : q = x / y := by
      rw [← UInt8.toNat_inj, UInt8.toNat_div]
      exact (Nat.div_eq_of_lt_le (Nat.le_trans (Nat.le_add_right _ _) hle) (hdone hzero)).symm
    subst hq
    exact .done rfl

theorem ends_divR (x y q r : UInt8) :
    Ends p (Environment.bind [] Library.divR.params [.var 0, .var 1, .var 2, .var 3])
      Library.divR.body
      ⟨[x, y, q, r], none, input, output⟩ (· = ⟨[x, y, q, x - q * y], none, input, output⟩) := by
  refine .straight 1 ⟨[x, y, q, x], none, input, output⟩ rfl ?_
  refine .declare 4 rfl fun _ => ?_
  refine .straight 1 ⟨[x, y, q, x, q], none, input, output⟩ rfl ?_
  refine .loop (fun n st => ∃ i : UInt8, n = i.toNat ∧
    st = ⟨[x, y, q, x - (q - i) * y, i], none, input, output⟩) rfl ⟨q, rfl, by simp⟩ ?_ ?_
  · rintro n _ ⟨i, rfl, rfl⟩ (hne : i ≠ 0)
    refine .straight 2 ⟨[x, y, q, x - (q - i) * y - y, i - 1], none, input, output⟩ rfl (.done ?_)
    have hpos := UInt8.toNat_ne_zero hne
    have hround : x - (q - i) * y - y = x - (q - (i - 1)) * y := by grind
    exact ⟨_, by rw [UInt8.toNat_sub_one hne]; omega, i - 1, rfl, by rw [hround]⟩
  · rintro n _ ⟨i, rfl, rfl⟩ hzero
    obtain rfl : i = 0 := hzero
    refine .done ?_
    rw [UInt8.sub_zero]
    rfl

/-- The quotient and the remainder of bytes. -/
theorem ends_div (hlib : HasLibrary p) (x y q r : UInt8) (hy : y ≠ 0) :
    Ends p (Environment.bind [] Library.div.params [.var 0, .var 1, .var 2, .var 3])
      Library.div.body
      ⟨[x, y, q, r], none, input, output⟩ (· = ⟨[x, y, x / y, x % y], none, input, output⟩) := by
  refine .called ⟨[x, y, x / y, r], none, input, output⟩
    (hlib Library.divQ (by simp [Library.macros])) rfl (by decide) (ends_divQ x y q hy) rfl ?_
  refine .called ⟨[x, y, x / y, x - x / y * y], none, input,
    output⟩ (hlib Library.divR (by simp [Library.macros])) rfl
    (by decide) (ends_divR x y (x / y) r) rfl (.done ?_)
  rw [UInt8.sub_div_mul]

/-! ## Output in hexadecimal -/

/-- The bytes of a text whose characters are bytes. -/
def textBytes (text : String) : List UInt8 :=
  text.toList.map Char.toUInt8

@[simp] theorem textBytes_append (a b : String) :
    textBytes (a ++ b) = textBytes a ++ textBytes b := by
  simp [textBytes]

/-- The last two digits, as bytes. -/
def hexByte (n : Nat) : List UInt8 :=
  (Hex.lastDigits 2 n).map Char.toUInt8

theorem hexByte_mod (n : Nat) : hexByte (n % 0x100) = hexByte n :=
  congrArg (List.map Char.toUInt8) (Hex.lastDigits_mod 2 n)

theorem textBytes_padded_two {n : Nat} (h : n < 0x100) :
    textBytes (Hex.padded 2 n) = hexByte n := by
  rw [textBytes, Hex.toList_padded (by decide) h, hexByte]

theorem textBytes_labelText {n : Nat} (h : n < 0x10000) :
    textBytes (labelText n) = hexByte (n / 0x100) ++ hexByte n := by
  rw [textBytes, labelText, Hex.toList_padded (by decide) h, Hex.lastDigits_add 2 2,
    List.map_append]
  rfl

theorem digit_small : ∀ n < 10, (UInt8.ofNat n / 10 = 0) ∧
    UInt8.ofNat n % 10 + 48 = (Hex.digit n).toUInt8 := by decide

theorem digit_large : ∀ n < 16, 10 ≤ n → (UInt8.ofNat n / 10 ≠ 0) ∧
    UInt8.ofNat n % 10 + 97 = (Hex.digit n).toUInt8 := by decide

/-- A digit is written. -/
theorem ends_printHexDigit (hlib : HasLibrary p) {n : Nat} (hn : n < 16) :
    Ends p (Environment.bind [] Library.printHexDigit.params [.var 0]) Library.printHexDigit.body
      ⟨[UInt8.ofNat n], none, input, output⟩
      (· = ⟨[UInt8.ofNat n], none, input, output ++ [(Hex.digit n).toUInt8]⟩) := by
  refine .declare 1 rfl fun _ => ?_
  refine .straight 2 ⟨[UInt8.ofNat n, 10], none, input, output⟩ rfl ?_
  refine .declare 2 rfl fun _ => .declare 3 rfl fun _ => ?_
  refine .called ⟨[UInt8.ofNat n, 10, UInt8.ofNat n / 10, UInt8.ofNat n % 10], none, input, output⟩
    (hlib Library.div (by simp [Library.macros])) rfl (by decide)
    (ends_div hlib (UInt8.ofNat n) 10 _ _ (by decide)) rfl ?_
  by_cases hsmall : n < 10
  · obtain ⟨hq, hdigit⟩ := digit_small n hsmall
    refine .skip rfl hq ?_
    refine .declare 4 rfl fun _ => ?_
    refine .straight 1 ⟨[UInt8.ofNat n, 10, UInt8.ofNat n / 10, UInt8.ofNat n % 10,
      if UInt8.ofNat n / 10 = 0 then 1 else 0], none, input, output⟩ rfl ?_
    rw [if_pos hq]
    refine .enter (· = ⟨[UInt8.ofNat n, 10, UInt8.ofNat n / 10, UInt8.ofNat n % 10 + 48, 1], none,
      input, output⟩) rfl flag_ne_zero (.straight 1 _ rfl (.done rfl)) ?_
    rintro _ rfl
    rw [hdigit]
    exact .straight 1 ⟨[UInt8.ofNat n, 10, UInt8.ofNat n / 10, (Hex.digit n).toUInt8, 1], none,
      input, output ++ [(Hex.digit n).toUInt8]⟩ rfl (.done rfl)
  · obtain ⟨hq, hdigit⟩ := digit_large n hn (Nat.le_of_not_lt hsmall)
    refine .enter (· = ⟨[UInt8.ofNat n, 10, UInt8.ofNat n / 10, UInt8.ofNat n % 10 + 97], none,
      input, output⟩) rfl hq (.straight 1 _ rfl (.done rfl)) ?_
    rintro _ rfl
    rw [hdigit]
    refine .declare 4 rfl fun _ => ?_
    refine .straight 1 ⟨[UInt8.ofNat n, 10, UInt8.ofNat n / 10, (Hex.digit n).toUInt8,
      if UInt8.ofNat n / 10 = 0 then 1 else 0], none, input, output⟩ rfl ?_
    rw [if_neg hq]
    refine .skip rfl rfl ?_
    exact .straight 1 ⟨[UInt8.ofNat n, 10, UInt8.ofNat n / 10, (Hex.digit n).toUInt8, 0], none,
      input, output ++ [(Hex.digit n).toUInt8]⟩ rfl (.done rfl)

/-- A byte is written in two digits. -/
theorem ends_printHexByte (hlib : HasLibrary p) (x : UInt8) :
    Ends p (Environment.bind [] Library.printHexByte.params [.var 0]) Library.printHexByte.body
      ⟨[x], none, input, output⟩ (· = ⟨[x], none, input, output ++ hexByte x.toNat⟩) := by
  have hq : x / 16 = UInt8.ofNat (x.toNat / 16 % 16) := by
    rw [← UInt8.toNat_inj, UInt8.toNat_div]
    have := x.toNat_lt
    simp
    omega
  have hr : x % 16 = UInt8.ofNat (x.toNat % 16) := by
    rw [← UInt8.toNat_inj, UInt8.toNat_mod]
    simp
    omega
  refine .declare 1 rfl fun _ => ?_
  refine .straight 2 ⟨[x, 16], none, input, output⟩ rfl ?_
  refine .declare 2 rfl fun _ => .declare 3 rfl fun _ => ?_
  refine .called ⟨[x, 16, x / 16, x % 16], none, input, output⟩
    (hlib Library.div (by simp [Library.macros])) rfl
    (by decide) (ends_div hlib x 16 _ _ (by decide)) rfl ?_
  rw [hq, hr]
  refine .called ⟨[x, 16, UInt8.ofNat (x.toNat / 16 % 16), UInt8.ofNat (x.toNat % 16)], none, input,
    output ++ [(Hex.digit (x.toNat / 16 % 16)).toUInt8]⟩ (hlib Library.printHexDigit
      (by simp [Library.macros])) rfl
    (by decide) (ends_printHexDigit hlib (Nat.mod_lt _ (by decide))) rfl ?_
  refine .called ⟨[x, 16, UInt8.ofNat (x.toNat / 16 % 16), UInt8.ofNat (x.toNat % 16)], none, input,
    output ++ hexByte x.toNat⟩ (hlib Library.printHexDigit (by simp [Library.macros])) rfl
    (by decide) (ends_printHexDigit hlib (Nat.mod_lt _ (by decide))) ?_ (.done rfl)
  rw [show hexByte x.toNat = [_] ++ [_] from rfl, ← List.append_assoc]
  rfl

/-! ## The counter -/

/-- The bytes of a counter, the low one first. -/
def counterBytes (k : Nat) : List UInt8 :=
  [UInt8.ofNat k, UInt8.ofNat (k / 0x100)]

theorem ends_counterInit (x y : UInt8) :
    Ends p (Environment.bind [] Library.counterInit.params [.var 0, .var 1])
      Library.counterInit.body
      ⟨[x, y], none, input, output⟩ (· = ⟨counterBytes 0, none, input, output⟩) :=
  .straight 2 ⟨[0, 0], none, input, output⟩ rfl (.done rfl)

/-- The counter counts modulo two bytes. -/
theorem ends_counterInc (k : Nat) :
    Ends p (Environment.bind [] Library.counterInc.params [.var 0, .var 1]) Library.counterInc.body
      ⟨counterBytes k, none, input, output⟩ (· = ⟨counterBytes (k + 1), none, input, output⟩) := by
  have hlow : UInt8.ofNat k + 1 = UInt8.ofNat (k + 1) := (UInt8.ofNat_add k 1).symm
  refine .straight 1 ⟨[UInt8.ofNat k + 1, UInt8.ofNat (k / 0x100)], none, input, output⟩ rfl ?_
  rw [hlow]
  refine .declare 2 rfl fun _ => ?_
  refine .straight 1 ⟨[UInt8.ofNat (k + 1), UInt8.ofNat (k / 0x100),
    if UInt8.ofNat (k + 1) = 0 then 1 else 0], none, input, output⟩ rfl ?_
  have hzero : UInt8.ofNat (k + 1) = 0 ↔ (k + 1) % 0x100 = 0 := by
    rw [← UInt8.toNat_inj, UInt8.toNat_ofNat']
    rfl
  by_cases hcarry : UInt8.ofNat (k + 1) = 0
  · have hhigh : UInt8.ofNat (k / 0x100) + 1 = UInt8.ofNat ((k + 1) / 0x100) := by
      have : (k + 1) / 0x100 = k / 0x100 + 1 := by
        have := hzero.1 hcarry
        omega
      rw [this, UInt8.ofNat_add]
      rfl
    rw [if_pos hcarry, counterBytes, ← hhigh, hcarry]
    refine .enter (· = ⟨[0, UInt8.ofNat (k / 0x100) + 1, 1], none, input, output⟩) rfl flag_ne_zero
      (.straight 2 _ rfl (.done rfl)) ?_
    rintro _ rfl
    exact .done rfl
  · have hhigh : (k + 1) / 0x100 = k / 0x100 := by
      have := mt hzero.2 hcarry
      omega
    rw [if_neg hcarry, counterBytes, hhigh]
    exact .skip rfl rfl (.done rfl)

/-- The counter is written in four digits. -/
theorem ends_counterPrint (hlib : HasLibrary p) (k : Nat) :
    Ends p (Environment.bind [] Library.counterPrint.params [.var 0, .var 1])
      Library.counterPrint.body ⟨counterBytes k, none, input, output⟩
      (· = ⟨counterBytes k, none, input, output ++ textBytes (labelText (k % 0x10000))⟩) := by
  have htext : textBytes (labelText (k % 0x10000)) =
      hexByte (UInt8.ofNat (k / 0x100)).toNat ++ hexByte (UInt8.ofNat k).toNat := by
    have hbyte : ∀ a, (UInt8.ofNat a).toNat = a % 0x100 := fun a => UInt8.toNat_ofNat'
    have hhigh : k % 0x10000 / 0x100 = k / 0x100 % 0x100 := by omega
    have hlow : k % 0x10000 % 0x100 = k % 0x100 := by omega
    rw [textBytes_labelText (Nat.mod_lt _ (by decide)), hbyte, hbyte,
      hhigh, ← hexByte_mod (k % 0x10000), hlow]
  refine .called ⟨counterBytes k, none, input, output ++ hexByte (UInt8.ofNat (k / 0x100)).toNat⟩
    (hlib Library.printHexByte (by simp [Library.macros])) rfl (by decide)
    (ends_printHexByte hlib _) rfl ?_
  refine .called ⟨counterBytes k, none, input, _ ++ hexByte (UInt8.ofNat k).toNat⟩
    (hlib Library.printHexByte (by simp [Library.macros])) rfl (by decide)
    (ends_printHexByte hlib _) rfl (.done ?_)
  rw [htext, ← List.append_assoc]

end TapeToolchain.SelfHosting
