import TapeToolchain.Proofs.SelfHosting.Numbers
import TapeToolchain.Proofs.Text.Runs

/-!
What the macros for input do. They read a text run by run: the length of the current run, in one
byte, its character, and the character after it, which is zero at the end of the text.
-/

namespace TapeToolchain.SelfHosting

variable {p : MacroProgram} {output : List UInt8}

/-- The cells and the input while a text is left: its first character is in a cell already. -/
def ahead (n c : UInt8) (text output : List UInt8) : Store :=
  ⟨[n, c, text.headD 0], none, text.tail, output⟩

/-- The cells and the input with the first run of a text in the cells. -/
def window (rs : List (UInt8 × Nat)) (output : List UInt8) : Store :=
  match rs with
  | [] => ahead 1 0 [] output
  | (c, k) :: rest => ahead (UInt8.ofNat k) c (runsText rest) output

/-- The character after a run, or the end of the text, differs from the run. -/
theorem headD_ne {r : UInt8 × Nat} {rs : List (UInt8 × Nat)} (hrs : SeparateRuns (r :: rs))
    (hr : r.1 ≠ 0) : (runsText rs).headD 0 ≠ r.1 := by
  have hne := hrs.head?_ne
  cases htext : runsText rs with
  | nil => exact Ne.symm hr
  | cons b more =>
    rw [htext] at hne
    exact fun h => hne (congrArg some h)

def inputScope : Environment :=
  [("merge_ok", .var 6), ("match", .var 5), ("not_match", .var 4), ("n_is_zero", .var 3),
    ("c_next", .var 2), ("c", .var 1), ("n", .var 0)]

/-- One more character is taken into the run. -/
theorem ends_inputMerge {n c d z u v w : UInt8} {text : List UInt8} (hd : d ≠ 0) :
    Ends p inputScope Library.inputMerge ⟨[n, c, d, z, u, v, w], none, text, output⟩
      (· = ⟨[n + 1, d, text.headD 0, z, text.headD 0 - d, v, if text.headD 0 - d = 0 then 1 else 0],
        none, text.tail, output⟩) := by
  refine .straight 3 ⟨[n + 1, d, d, z, u, v, 0], none, text, output⟩ rfl ?_
  refine .enter (· =
    ⟨[n + 1, d, text.headD 0, z, text.headD 0 - d, v, if text.headD 0 - d = 0 then 1 else 0], none,
      text.tail, output⟩) rfl hd ?_ fun _ h => .done h
  refine .straight 1 ⟨[n + 1, d, 0, z, u, v, 0], none, text, output⟩ rfl ?_
  have hread : Store.perform .getChar [.var 2] ⟨[n + 1, d, 0, z, u, v, 0], none, text, output⟩ =
      some ⟨[n + 1, d, text.headD 0, z, u, v, 0], none, text.tail, output⟩ := by
    cases text <;> rfl
  refine .builtin rfl hread ?_
  refine .straight 2 ⟨[n + 1, d, text.headD 0, z, text.headD 0 - d, v, 0], none, text.tail,
    output⟩ rfl ?_
  exact .straight 1 _ rfl (.done rfl)

/-- A whole run is taken in. -/
theorem ends_inputMerges {n c d z u v w : UInt8} {k : Nat} {rest : List UInt8} (hd : d ≠ 0)
    (hw : w ≠ 0) (hk : 0 < k) (hrest : rest.headD 0 ≠ d) {after : Block} {Q : Store → Prop}
    (hafter : ∀ u, Ends p inputScope after ⟨[n + UInt8.ofNat k, d, rest.headD 0, z, u, v, 0], none,
      rest.tail, output⟩ Q) :
    Ends p inputScope (.whileNonzero "merge_ok" Library.inputMerge after)
      ⟨[n, c, d, z, u, v, w], none, List.replicate (k - 1) d ++ rest, output⟩ Q := by
  refine .loop (fun j st => j ≤ k ∧ ∃ c u w : UInt8, (w = 0 ↔ j = 0) ∧ (j = 0 → c = d) ∧
    st = ⟨[n + UInt8.ofNat (k - j), c, (List.replicate j d ++ rest).headD 0, z, u, v, w], none,
      (List.replicate j d ++ rest).tail, output⟩) rfl
    ⟨Nat.le_refl k, c, u, w, ⟨fun h => absurd h hw, fun h => absurd h (Nat.ne_of_gt hk)⟩,
      fun h => absurd h (Nat.ne_of_gt hk), ?_⟩ ?_ ?_
  · obtain ⟨k, rfl⟩ := Nat.exists_eq_add_one_of_ne_zero (Nat.ne_of_gt hk)
    simp [List.replicate_succ]
  · rintro j _ ⟨hj, c, u, w, hflag, -, rfl⟩ (hne : w ≠ 0)
    obtain ⟨j, rfl⟩ := Nat.exists_eq_add_one_of_ne_zero (mt hflag.2 hne)
    refine (ends_inputMerge hd).mono ?_
    rintro _ rfl
    refine ⟨j, Nat.lt_succ_self j, Nat.le_of_succ_le hj, d,
      (List.replicate j d ++ rest).headD 0 - d,
      if (List.replicate j d ++ rest).headD 0 - d = 0 then 1 else 0, ?_, fun _ => rfl, ?_⟩
    · cases j with
      | zero => simpa [UInt8.sub_eq_iff_eq_add] using hrest
      | succ j => simp [List.replicate_succ]
    · have hn : n + UInt8.ofNat (k - (j + 1)) + 1 = n + UInt8.ofNat (k - j) := by
        have : k - j = k - (j + 1) + 1 := by omega
        rw [this, UInt8.ofNat_add]
        grind
      rw [hn]
      rfl
  · rintro j _ ⟨-, c, u, w, hflag, hc, rfl⟩ (hzero : w = 0)
    obtain rfl := hflag.1 hzero
    obtain rfl := hc rfl
    subst hzero
    exact hafter u

/-- An update reads on if the run is used up or the next character belongs to it. -/
theorem ends_inputUpdate {n c d : UInt8} {text : List UInt8} {Q : Store → Prop}
    (h : ∀ z u v w : UInt8, (w = 0 ↔ n ≠ 0 ∧ d ≠ c) →
      Ends p inputScope (.whileNonzero "merge_ok" Library.inputMerge .done)
        ⟨[n, c, d, z, u, v, w], none, text, output⟩ fun st => Q (st.close 3)) :
    Ends p (Environment.bind [] Library.inputUpdate.params [.var 0, .var 1, .var 2])
      Library.inputUpdate.body ⟨[n, c, d], none, text, output⟩ Q := by
  refine .declare 3 rfl fun _ => ?_
  refine .straight 1 ⟨[n, c, d, if n = 0 then 1 else 0], none, text, output⟩ rfl ?_
  refine .declare 4 rfl fun _ => ?_
  refine .straight 2 ⟨[n, c, d, if n = 0 then 1 else 0, d - c], none, text, output⟩ rfl ?_
  refine .declare 5 rfl fun _ => ?_
  refine .straight 1 ⟨[n, c, d, if n = 0 then 1 else 0, d - c, if d - c = 0 then 1 else 0], none,
    text, output⟩ rfl ?_
  refine .declare 6 rfl fun _ => ?_
  refine .straight 1 ⟨[n, c, d, if n = 0 then 1 else 0, d - c, if d - c = 0 then 1 else 0,
    if (if n = 0 then (1 : UInt8) else 0) ≠ 0 ∨
    (if d - c = 0 then (1 : UInt8) else 0) ≠ 0 then 1 else 0], none, text, output⟩ rfl ?_
  refine (h _ _ _ _ ?_).mono fun st hst => ?_
  · by_cases hn : n = 0 <;> by_cases hd : d = c <;> simp [hn, hd, UInt8.sub_eq_iff_eq_add]
  · simpa [Store.close, List.take_take] using hst

/-- With a run that is not used up, and another character after it, nothing is read. -/
theorem ends_inputUpdate_stay {n c d : UInt8} {text : List UInt8} (hn : n ≠ 0) (hd : d ≠ c) :
    Ends p (Environment.bind [] Library.inputUpdate.params [.var 0, .var 1, .var 2])
      Library.inputUpdate.body
      ⟨[n, c, d], none, text, output⟩ (· = ⟨[n, c, d], none, text, output⟩) :=
  ends_inputUpdate fun _ _ _ _ hw => .pass rfl (hw.2 ⟨hn, hd⟩) (.done rfl)

/-- After a run that is used up the next one is read. -/
theorem ends_inputUpdate_next {c : UInt8} {rs : List (UInt8 × Nat)} (hrs : SeparateRuns rs)
    (hbytes : ∀ r ∈ rs, r.1 ≠ 0) :
    Ends p (Environment.bind [] Library.inputUpdate.params [.var 0, .var 1, .var 2])
      Library.inputUpdate.body (ahead 0 c (runsText rs) output) (· = window rs output) := by
  refine ends_inputUpdate fun z u v w hw => ?_
  have hne : w ≠ 0 := fun h => absurd rfl (hw.1 h).1
  cases rs with
  | nil =>
    refine .once ⟨[1, 0, 0, z, u, v, 0], none, [], output⟩ rfl hne ?_ rfl (.done rfl)
    exact .straight 3 ⟨[1, 0, 0, z, u, v, 0], none, [], output⟩ rfl (.skip rfl rfl (.done rfl))
  | cons r rest =>
    have hr : r.1 ≠ 0 := hbytes r List.mem_cons_self
    have hpos : 0 < r.2 := hrs.positive r List.mem_cons_self
    obtain ⟨k, hk⟩ := Nat.exists_eq_add_one_of_ne_zero (Nat.ne_of_gt hpos)
    have htext : runsText (r :: rest) = r.1 :: (List.replicate (r.2 - 1) r.1 ++ runsText rest) := by
      rw [runsText_cons, hk, List.replicate_succ]
      rfl
    rw [htext]
    refine ends_inputMerges hr hne hpos (headD_ne hrs hr) fun u => .done ?_
    rw [UInt8.zero_add]
    rfl

/-- The first run of a text is read. -/
theorem ends_inputInit (hlib : HasLibrary p) {x y z : UInt8} {rs : List (UInt8 × Nat)}
    (hrs : SeparateRuns rs) (hbytes : ∀ r ∈ rs, r.1 ≠ 0) :
    Ends p (Environment.bind [] Library.inputInit.params [.var 0, .var 1, .var 2])
      Library.inputInit.body ⟨[x, y, z], none, runsText rs, output⟩ (· = window rs output) := by
  have hread : Store.perform .getChar [.var 2] ⟨[0, 0, 0], none, runsText rs, output⟩ =
      some (ahead 0 0 (runsText rs) output) := by
    cases runsText rs <;> rfl
  refine .straight 3 ⟨[0, 0, 0], none, runsText rs, output⟩ rfl ?_
  refine .builtin rfl hread ?_
  refine .called (window rs output) (hlib Library.inputUpdate (by simp [Library.macros]))
    rfl (by decide) (ends_inputUpdate_next hrs hbytes) ?_ (.done rfl)
  cases rs <;> rfl

end TapeToolchain.SelfHosting
