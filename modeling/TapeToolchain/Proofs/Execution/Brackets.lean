import TapeToolchain.Instruction

/-!
The nesting of loops in flat code. `nesting` follows the depth of open loops and gives up where a
loop end has no partner; code is balanced if it starts and ends at depth zero. `closingDistance` is
the search of the machine for the end of a loop. Its two laws say that it passes over whatever keeps
its loops closed, and that what it passes over has its loops closed. The search for the start of a
loop is the same search in the mirrored code.
-/

namespace TapeToolchain

/-- The instruction seen in a mirror: left and right change places, and so do the ends of a loop. -/
def Instruction.mirror : Instruction → Instruction
  | .left => .right
  | .right => .left
  | .loopBegin => .loopEnd
  | .loopEnd => .loopBegin
  | i => i

/-- Code read from its end in a mirror. -/
def mirrored (code : List Instruction) : List Instruction :=
  code.reverse.map .mirror

/-- The depth of open loops after the code, from a depth before it. -/
def nesting : Nat → List Instruction → Option Nat
  | depth, [] => some depth
  | depth, .loopBegin :: rest => nesting (depth + 1) rest
  | 0, .loopEnd :: _ => none
  | depth + 1, .loopEnd :: rest => nesting depth rest
  | depth, _ :: rest => nesting depth rest

/-- Every loop that is opened in the code is closed in it, and no other. -/
def Balanced (code : List Instruction) : Prop :=
  nesting 0 code = some 0

instance (code : List Instruction) : Decidable (Balanced code) :=
  inferInstanceAs (Decidable (nesting 0 code = some 0))

/-- The number of instructions before the loop end that closes `depth` loops more than are opened on
the way. -/
def closingDistance : Nat → List Instruction → Option Nat
  | _, [] => none
  | depth, .loopBegin :: rest => (closingDistance (depth + 1) rest).map (· + 1)
  | 0, .loopEnd :: _ => some 0
  | depth + 1, .loopEnd :: rest => (closingDistance depth rest).map (· + 1)
  | depth, _ :: rest => (closingDistance depth rest).map (· + 1)

/-- The instruction is neither end of a loop. -/
def Instruction.IsPlain (i : Instruction) : Prop :=
  i ≠ .loopBegin ∧ i ≠ .loopEnd

instance (i : Instruction) : Decidable i.IsPlain :=
  inferInstanceAs (Decidable (_ ∧ _))

/-! ## Nesting -/

theorem nesting_plain {i : Instruction} (h : i.IsPlain) (d : Nat) (rest : List Instruction) :
    nesting d (i :: rest) = nesting d rest := by
  obtain ⟨hb, he⟩ := h
  cases i <;> first | contradiction | (cases d <;> rfl)

theorem closingDistance_plain {i : Instruction} (h : i.IsPlain) (d : Nat)
    (rest : List Instruction) :
    closingDistance d (i :: rest) = (closingDistance d rest).map (· + 1) := by
  obtain ⟨hb, he⟩ := h
  cases i <;> first | contradiction | (cases d <;> rfl)

/-- The three ways in which code goes on. -/
theorem Instruction.cases_plain (i : Instruction) : i = .loopBegin ∨ i = .loopEnd ∨ i.IsPlain := by
  by_cases hb : i = .loopBegin
  · exact Or.inl hb
  · by_cases he : i = .loopEnd
    · exact Or.inr (Or.inl he)
    · exact Or.inr (Or.inr ⟨hb, he⟩)

theorem nesting_append (a b : List Instruction) (d : Nat) :
    nesting d (a ++ b) = (nesting d a).bind (nesting · b) := by
  induction a generalizing d with
  | nil => rfl
  | cons i a ih =>
    rcases i.cases_plain with rfl | rfl | h
    · exact ih (d + 1)
    · cases d with
      | zero => rfl
      | succ d => exact ih d
    · rw [List.cons_append, nesting_plain h, nesting_plain h]
      exact ih d

/-- Loops that stay open around the code do not matter to it. -/
theorem nesting_add {code : List Instruction} {d d' : Nat} (h : nesting d code = some d')
    (k : Nat) : nesting (d + k) code = some (d' + k) := by
  induction code generalizing d with
  | nil => simpa [nesting] using h
  | cons i code ih =>
    rcases i.cases_plain with rfl | rfl | hi
    · have := ih (d := d + 1) h
      rwa [Nat.add_right_comm] at this
    · cases d with
      | zero => cases h
      | succ d =>
        rw [Nat.add_right_comm]
        exact ih (d := d) h
    · rw [nesting_plain hi] at h ⊢
      exact ih h

/-- The depth grows by one for each loop that is opened, and shrinks by one for each that is
closed. -/
theorem count_of_nesting {code : List Instruction} {d d' : Nat} (h : nesting d code = some d') :
    d + code.count .loopBegin = d' + code.count .loopEnd := by
  induction code generalizing d with
  | nil => simpa [nesting] using h
  | cons i code ih =>
    rcases i.cases_plain with rfl | rfl | hi
    · have := ih (d := d + 1) h
      rw [List.count_cons_self, List.count_cons_of_ne (by decide)]
      omega
    · cases d with
      | zero => cases h
      | succ d =>
        have := ih (d := d) h
        rw [List.count_cons_self, List.count_cons_of_ne (by decide)]
        omega
    · rw [nesting_plain hi] at h
      rw [List.count_cons_of_ne hi.1, List.count_cons_of_ne hi.2]
      exact ih h

namespace Balanced

theorem nil : Balanced [] := rfl

theorem append {a b : List Instruction} (ha : Balanced a) (hb : Balanced b) :
    Balanced (a ++ b) := by
  rw [Balanced, nesting_append, ha]; exact hb

theorem loop {body : List Instruction} (h : Balanced body) :
    Balanced (.loopBegin :: (body ++ [.loopEnd])) := by
  have h1 : nesting 1 body = some 1 := nesting_add h 1
  show nesting 1 (body ++ [.loopEnd]) = some 0
  rw [nesting_append, h1]; rfl

theorem replicate {i : Instruction} (h : i.IsPlain) : ∀ n, Balanced (List.replicate n i)
  | 0 => nil
  | n + 1 => by
    rw [Balanced, List.replicate_succ, nesting_plain h]
    exact replicate h n

/-- No part at the start of balanced code closes more loops than it opens. -/
theorem count_le_of_prefix {code start : List Instruction} (h : Balanced code)
    (hs : start <+: code) : start.count .loopEnd ≤ start.count .loopBegin := by
  obtain ⟨rest, rfl⟩ := hs
  rw [Balanced, nesting_append] at h
  obtain ⟨d, hd, -⟩ := Option.bind_eq_some_iff.1 h
  have := count_of_nesting hd
  omega

end Balanced

/-! ## The search for the end of a loop -/

/-- The search passes over code that does not close the loop. -/
theorem closingDistance_append {code : List Instruction} {d d' : Nat} (h : nesting d code = some d')
    (rest : List Instruction) :
    closingDistance d (code ++ rest) = (closingDistance d' rest).map (· + code.length) := by
  induction code generalizing d with
  | nil =>
    obtain rfl : d = d' := by simpa [nesting] using h
    cases hc : closingDistance d rest <;> simp [hc]
  | cons i code ih =>
    have key : ∀ {e : Nat}, nesting e code = some d' →
        (closingDistance e (code ++ rest)).map (· + 1) =
          (closingDistance d' rest).map (· + (i :: code).length) := by
      intro e he
      rw [ih he, Option.map_map]
      congr 1
    rcases i.cases_plain with rfl | rfl | hi
    · exact key h
    · cases d with
      | zero => cases h
      | succ d => exact key h
    · rw [nesting_plain hi] at h
      rw [List.cons_append, closingDistance_plain hi]
      exact key h

theorem closingDistance_balanced {body : List Instruction} (h : Balanced body)
    (rest : List Instruction) :
    closingDistance 0 (body ++ .loopEnd :: rest) = some body.length := by
  rw [closingDistance_append h]
  simp [closingDistance]

/-- What the search passes over has closed its loops, and then comes a loop end. -/
theorem closingDistance_eq_some {code : List Instruction} {d k : Nat}
    (h : closingDistance d code = some k) :
    ∃ body rest, code = body ++ .loopEnd :: rest ∧ body.length = k ∧ nesting d body = some 0 := by
  induction code generalizing d k with
  | nil => cases h
  | cons i code ih =>
    have key : ∀ {e : Nat}, (∀ body, nesting d (i :: body) = nesting e body) →
        (closingDistance e code).map (· + 1) = some k →
        ∃ body rest, i :: code = body ++ .loopEnd :: rest ∧ body.length = k ∧
          nesting d body = some 0 := by
      intro e he hk
      obtain ⟨k', hk', rfl⟩ := Option.map_eq_some_iff.1 hk
      obtain ⟨body, rest, rfl, rfl, hn⟩ := ih hk'
      exact ⟨i :: body, rest, rfl, rfl, by rw [he]; exact hn⟩
    rcases i.cases_plain with rfl | rfl | hi
    · exact key (fun _ => rfl) h
    · cases d with
      | zero =>
        obtain rfl : 0 = k := by simpa [closingDistance] using h
        exact ⟨[], code, rfl, rfl, rfl⟩
      | succ d => exact key (fun _ => rfl) h
    · rw [closingDistance_plain hi] at h
      exact key (fun body => nesting_plain hi d body) h

/-- The search finds a loop end if the code closes more loops than it opens by more than is asked
for. -/
theorem exists_closingDistance {code : List Instruction} {d d' k : Nat}
    (h : nesting d code = some d') (hlt : d' + k < d) : ∃ n, closingDistance k code = some n := by
  induction code generalizing d k with
  | nil =>
    rw [nesting, Option.some.injEq] at h
    omega
  | cons i code ih =>
    have key : ∀ {e j : Nat}, nesting e code = some d' → d' + j < e →
        ∃ n, (closingDistance j code).map (· + 1) = some n := by
      intro e j he hj
      obtain ⟨n, hn⟩ := ih he hj
      exact ⟨n + 1, by rw [hn]; rfl⟩
    rcases i.cases_plain with rfl | rfl | hi
    · exact key h (by omega)
    · cases d with
      | zero => cases h
      | succ d =>
        cases k with
        | zero => exact ⟨0, rfl⟩
        | succ k => exact key (e := d) h (by omega)
    · rw [nesting_plain hi] at h
      rw [closingDistance_plain hi]
      exact key h hlt

/-! ## The mirror -/

theorem nesting_mirrored {code : List Instruction} {d d' : Nat} (h : nesting d code = some d') :
    nesting d' (mirrored code) = some d := by
  induction code generalizing d with
  | nil => exact Option.some.inj h ▸ rfl
  | cons i code ih =>
    have step : ∀ {e : Nat}, nesting e code = some d' →
        nesting d' (mirrored (i :: code)) = nesting e [i.mirror] := by
      intro e he
      rw [mirrored, List.reverse_cons, List.map_append, nesting_append, ← mirrored, ih he]
      rfl
    rcases i.cases_plain with rfl | rfl | hi
    · rw [step (e := d + 1) h]; rfl
    · cases d with
      | zero => cases h
      | succ d => rw [step (e := d) h]; rfl
    · rw [nesting_plain hi] at h
      have hm : i.mirror.IsPlain := by
        obtain ⟨hb, he⟩ := hi
        cases i <;> first | contradiction | decide
      rw [step h, nesting_plain hm]; rfl

theorem Balanced.mirrored {code : List Instruction} (h : Balanced code) :
    Balanced (mirrored code) :=
  nesting_mirrored h

theorem mirrored_append (a b : List Instruction) :
    mirrored (a ++ b) = mirrored b ++ mirrored a := by
  simp [mirrored]

theorem mirrored_mirrored (code : List Instruction) : mirrored (mirrored code) = code := by
  have hm : (Instruction.mirror ∘ Instruction.mirror) = id := by funext i; cases i <;> rfl
  simp [mirrored, ← List.map_reverse, hm]

theorem length_mirrored (code : List Instruction) : (mirrored code).length = code.length := by
  simp [mirrored]

end TapeToolchain
