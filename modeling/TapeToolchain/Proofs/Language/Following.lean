import TapeToolchain.Proofs.Execution.Segment
import TapeToolchain.Proofs.Language.Semantics

/-!
Machines that do what executions say. If an execution comes to its end, the machine gets to a place
where it is known what it holds; if the execution is cut off, the machine has written the same
output after a number of steps that grows with the depth (`Machine.Follows`). The second part is
what makes the machine run forever when the execution does.

`Runs` says this about a piece of code, wherever it stands, with assertions on the machine before
and after it. Pieces run one after the other; a loop runs if its body does, since each round takes a
step of the machine and between rounds the depth is bounded by the size of the code.
-/

namespace TapeToolchain

namespace Machine

/-- The machine does what the execution of depth `n` says, and `Q` holds when it has come to its
end. A machine that is cut off has taken at least `n / bound - 1` steps. -/
def Follows (code : List Instruction) (bound n : Nat) (s : Machine) (Q : World → Machine → Prop) :
    Execution → Prop
  | .finished w => ∃ t, Reaches code s t ∧ Q w t
  | .unfinished out =>
    ∃ k t, runFor code k s = some t ∧ t.memory.output = out ∧ n ≤ bound * (k + 1)
  | .stuck => False

namespace Follows

variable {code : List Instruction} {bound n : Nat} {s t : Machine} {Q R : World → Machine → Prop}
  {e : Execution}

theorem mono (h : Follows code bound n s Q e) {bound' : Nat} (hbound : bound ≤ bound') :
    Follows code bound' n s Q e := by
  cases e with
  | finished w => exact h
  | unfinished out =>
    obtain ⟨k, u, hk, hout, hn⟩ := h
    exact ⟨k, u, hk, hout, hn.trans (Nat.mul_le_mul_right _ hbound)⟩
  | stuck => exact h

/-- At depth zero the machine need not do anything. -/
theorem cutOff (code : List Instruction) (bound : Nat) (s : Machine) (Q : World → Machine → Prop) :
    Follows code bound 0 s Q (.unfinished s.memory.output) :=
  ⟨0, s, rfl, rfl, Nat.zero_le _⟩

/-- The machine gets there first. -/
theorem after (hreach : Reaches code s t) (h : Follows code bound n t Q e) :
    Follows code bound n s Q e := by
  cases e with
  | finished w =>
    obtain ⟨u, hu, hQ⟩ := h
    exact ⟨u, hreach.trans hu, hQ⟩
  | unfinished out =>
    obtain ⟨j, hj⟩ := hreach
    obtain ⟨k, u, hk, hout, hn⟩ := h
    refine ⟨j + k, u, runFor_trans hj hk, hout, hn.trans (Nat.mul_le_mul_left _ ?_)⟩
    omega
  | stuck => exact h

/-- One more step of the machine pays for one more level of depth. -/
theorem afterStep (hstep : step code s = some t) (hbound : 1 ≤ bound)
    (h : Follows code bound n t Q e) : Follows code bound (n + 1) s Q e := by
  cases e with
  | finished w => exact after (.single hstep) h
  | unfinished out =>
    obtain ⟨k, u, hk, hout, hn⟩ := h
    refine ⟨1 + k, u, runFor_trans (by rw [runFor_one, hstep]) hk, hout, ?_⟩
    calc n + 1 ≤ bound * (k + 1) + bound := Nat.add_le_add hn hbound
      _ = bound * (1 + k + 1) := by ring
  | stuck => exact h

/-- Without a step of the machine, one more level of depth is paid for by a greater bound. -/
theorem later (h : Follows code bound n s Q e) : Follows code (bound + 1) (n + 1) s Q e := by
  cases e with
  | finished w => exact h
  | unfinished out =>
    obtain ⟨k, u, hk, hout, hn⟩ := h
    refine ⟨k, u, hk, hout, ?_⟩
    calc n + 1 ≤ bound * (k + 1) + (k + 1) := Nat.add_le_add hn (Nat.le_add_left 1 k)
      _ = (bound + 1) * (k + 1) := by ring
  | stuck => exact h

/-- At the end of the run, the machine goes on to something else. -/
theorem andThen (h : Follows code bound n s Q e) {next : World → Execution}
    (hnext : ∀ w t, Q w t → Follows code bound n t R (next w)) :
    Follows code bound n s R (e.andThen next) := by
  cases e with
  | finished w =>
    obtain ⟨u, hu, hQ⟩ := h
    exact after hu (hnext w u hQ)
  | unfinished out => exact h
  | stuck => exact h

/-- At the end of the run, the machine takes some more steps. -/
theorem finish (h : Follows code bound n s Q e)
    (hmore : ∀ w t, Q w t → ∃ u, Reaches code t u ∧ R w u) : Follows code bound n s R e := by
  cases e with
  | finished w =>
    obtain ⟨t, ht, hQ⟩ := h
    obtain ⟨u, hu, hR⟩ := hmore w t hQ
    exact ⟨u, ht.trans hu, hR⟩
  | unfinished out => exact h
  | stuck => exact h

theorem close (h : Follows code bound n s Q e) (count : Nat)
    (hclose : ∀ w t, Q w t → R (w.close count) t) : Follows code bound n s R (e.close count) := by
  cases e with
  | finished w =>
    obtain ⟨t, ht, hQ⟩ := h
    exact ⟨t, ht, hclose w t hQ⟩
  | unfinished out => exact h
  | stuck => exact h

theorem of_close {count : Nat} (h : Follows code bound n s Q (e.close count))
    (hclose : ∀ w t, Q (w.close count) t → R w t) : Follows code bound n s R e := by
  cases e with
  | finished w =>
    obtain ⟨t, ht, hQ⟩ := h
    exact ⟨t, ht, hclose w t hQ⟩
  | unfinished out => exact h
  | stuck => exact h

end Follows

end Machine

open Machine (Follows Reaches)

/-- What is known of the world, the cursor and the memory at a place in the code. -/
abbrev Assertion := World → Int → Memory → Prop

/-- The machine stands at an instruction, where the assertion holds. -/
def Assertion.At (P : Assertion) (next : Nat) (w : World) (s : Machine) : Prop :=
  s.next = next ∧ P w s.cursor s.memory

/-- Wherever the piece of code stands, a machine that comes to it with `P` does what the executions
say, and leaves it with `Q`. -/
structure Runs (seg : List Instruction) (bound : Nat) (P Q : Assertion)
    (X : Nat → World → Execution) : Prop where
  balanced : Balanced seg
  follows (before after : List Instruction) (n : Nat) (w : World) (s : Machine) :
    P.At before.length w s →
      Follows (before ++ seg ++ after) bound n s (Q.At (before.length + seg.length)) (X n w)

namespace Runs

variable {seg a b : List Instruction} {bound bound' : Nat} {P P' Q Q' R : Assertion}
  {X Y Z : Nat → World → Execution}

/-- The piece at a known place. -/
theorem follows_at (h : Runs seg bound P Q X) (before after : List Instruction)
    {code : List Instruction} {next last n : Nat} {w : World} {s : Machine}
    (hcode : code = before ++ seg ++ after) (hnext : next = before.length)
    (hlast : last = before.length + seg.length) (hs : P.At next w s) :
    Follows code bound n s (Q.At last) (X n w) := by
  subst hcode hnext hlast
  exact h.follows before after n w s hs

theorem imp (h : Runs seg bound P Q X) (hP : ∀ w c m, P' w c m → P w c m)
    (hQ : ∀ w c m, Q w c m → Q' w c m) : Runs seg bound P' Q' X := by
  refine ⟨h.balanced, fun before after n w s hs => ?_⟩
  exact (h.follows before after n w s ⟨hs.1, hP _ _ _ hs.2⟩).finish fun w' t ht =>
    ⟨t, .refl _ _, ht.1, hQ _ _ _ ht.2⟩

/-- A change of the world that takes no depth. -/
theorem of_executes (hbalanced : Balanced seg) {change : World → World}
    (h : ∀ w c m, P w c m → ∃ c' m', Executes seg c m c' m' ∧ Q (change w) c' m') :
    Runs seg 0 P Q fun _ w => .finished (change w) := by
  refine ⟨hbalanced, fun before after n w s hs => ?_⟩
  obtain ⟨next, c, m⟩ := s
  obtain ⟨rfl, hP⟩ := hs
  obtain ⟨c', m', hexecutes, hQ⟩ := h w c m hP
  exact ⟨_, hexecutes before after, rfl, hQ⟩

/-- One piece after the other. -/
theorem append (ha : Runs a bound P Q X) (hb : Runs b bound' Q R Y) :
    Runs (a ++ b) (bound + bound') P R fun n w => (X n w).andThen (Y n) := by
  refine ⟨ha.balanced.append hb.balanced, fun before after n w s hs => ?_⟩
  have hfirst : Follows (before ++ (a ++ b) ++ after) bound n s (Q.At (before.length + a.length))
      (X n w) := ha.follows_at before (b ++ after) (by simp) rfl rfl hs
  refine (hfirst.mono (Nat.le_add_right _ _)).andThen fun w' t ht => ?_
  have hsecond : Follows (before ++ (a ++ b) ++ after) bound' n t
      (R.At (before.length + (a ++ b).length)) (Y n w') :=
    hb.follows_at (before ++ a) after (by simp) (by simp) (by simp [Nat.add_assoc]) ht
  exact hsecond.mono (Nat.le_add_left _ _)

/-- One level of depth. -/
theorem later (h : Runs seg bound P Q X) (hP : ∀ w c m, P w c m → w.output = m.output)
    (hzero : ∀ w, Y 0 w = .unfinished w.output)
    (hsucc : ∀ n w c m, P w c m → Y (n + 1) w = X n w) : Runs seg (bound + 1) P Q Y := by
  refine ⟨h.balanced, fun before after n w s hs => ?_⟩
  cases n with
  | zero =>
    rw [hzero, hP _ _ _ hs.2]
    exact .cutOff _ _ _ _
  | succ n =>
    rw [hsucc n _ _ _ hs.2]
    exact (h.follows before after n w s hs).later

/-- A loop with what comes after it. At every depth, the loop tests its variable and is either left
or gone through once more. -/
theorem loop {p : Int} {i : Nat}
    (hP : ∀ w c m, P w c m → c = p ∧ w.output = m.output ∧ m.cells p = w.get i)
    (ha : Runs a bound P P X) (hb : Runs b bound' P Q Y) (hzero : ∀ w, Z 0 w = .unfinished w.output)
    (hsucc : ∀ n w c m, P w c m →
      Z (n + 1) w = if w.get i = 0 then Y n w else (X n w).andThen (Z n)) :
    Runs (.loopBegin :: (a ++ [.loopEnd]) ++ b) (bound + bound' + 1) P Q Z := by
  refine ⟨ha.balanced.loop.append hb.balanced, fun before after n w s hs => ?_⟩
  have hcode : before ++ (.loopBegin :: (a ++ [.loopEnd]) ++ b) ++ after =
      before ++ .loopBegin :: (a ++ .loopEnd :: (b ++ after)) := by simp
  have hlength : before.length + (Instruction.loopBegin :: (a ++ [.loopEnd]) ++ b).length =
      before.length + a.length + 2 + b.length := by
    simp only [List.length_cons, List.length_append, List.length_nil]
    omega
  rw [hcode, hlength]
  -- Both ends of the loop test the variable, so the rounds that remain may be counted from either
  -- end.
  suffices hrounds : ∀ next w s, (next = before.length ∨ next = before.length + 1 + a.length) →
      P.At next w s → Follows (before ++ .loopBegin :: (a ++ .loopEnd :: (b ++ after)))
        (bound + bound' + 1) n s (Q.At (before.length + a.length + 2 + b.length)) (Z n w) from
    hrounds _ w s (Or.inl rfl) hs
  clear hs s w
  induction n with
  | zero =>
    intro next w s _ hs
    rw [hzero, (hP _ _ _ hs.2).2.1]
    exact .cutOff _ _ _ _
  | succ n ih =>
    intro next w s hnext hs
    obtain ⟨next, c, m⟩ := s
    obtain ⟨rfl, hs⟩ := hs
    obtain ⟨rfl, -, hget⟩ := hP _ _ _ hs
    have htest : Machine.step (before ++ .loopBegin :: (a ++ .loopEnd :: (b ++ after)))
        ⟨next, c, m⟩ =
        some ⟨if w.get i = 0 then before.length + a.length + 2 else before.length + 1, c, m⟩ := by
      rw [← hget]
      rcases hnext with hnext | hnext
      · obtain rfl : next = before.length := hnext
        exact Machine.step_loopBegin ha.balanced
      · obtain rfl : next = before.length + 1 + a.length := hnext
        exact Machine.step_loopEnd ha.balanced
    rw [hsucc n w c m hs]
    by_cases hleave : w.get i = 0
    · rw [if_pos hleave] at htest ⊢
      have hrest : Follows (before ++ .loopBegin :: (a ++ .loopEnd :: (b ++ after))) bound' n
          ⟨before.length + a.length + 2, c, m⟩ (Q.At (before.length + a.length + 2 + b.length))
          (Y n w) :=
        hb.follows_at (before ++ .loopBegin :: (a ++ [.loopEnd])) after (by simp) (by simp; omega)
          (by simp; omega) ⟨rfl, hs⟩
      exact (hrest.mono (by omega)).afterStep htest (by omega)
    · rw [if_neg hleave] at htest ⊢
      have hround : Follows (before ++ .loopBegin :: (a ++ .loopEnd :: (b ++ after))) bound n
          ⟨before.length + 1, c, m⟩ (P.At (before.length + 1 + a.length)) (X n w) :=
        ha.follows_at (before ++ [.loopBegin]) (.loopEnd :: (b ++ after)) (by simp)
          (by simp) (by simp) ⟨rfl, hs⟩
      refine ((hround.mono (by omega)).andThen fun w' t ht => ?_).afterStep htest (by omega)
      exact ih _ w' t (Or.inr rfl) ht

/-- A loop whose cell is zero at the end of its body is gone through at most once. -/
theorem once {p : Int} {i : Nat} (hP : ∀ w c m, P w c m → c = p ∧ m.cells p = w.get i)
    (hskip : ∀ w c m, P w c m → Q w c m)
    (ha : Runs a bound P (fun w c m => c = p ∧ m.cells p = 0 ∧ Q w c m) X) :
    Runs (.loopBegin :: (a ++ [.loopEnd])) bound P Q fun n w =>
      if w.get i = 0 then .finished w else X n w := by
  refine ⟨ha.balanced.loop, fun before after n w s hs => ?_⟩
  have hcode : before ++ .loopBegin :: (a ++ [.loopEnd]) ++ after =
      before ++ .loopBegin :: (a ++ .loopEnd :: after) := by simp
  have hlength : before.length + (Instruction.loopBegin :: (a ++ [.loopEnd])).length =
      before.length + a.length + 2 := by
    simp only [List.length_cons, List.length_append, List.length_nil]
    omega
  rw [hcode, hlength]
  obtain ⟨next, c, m⟩ := s
  obtain ⟨rfl, hs⟩ := hs
  obtain ⟨rfl, hget⟩ := hP _ _ _ hs
  have htest : Machine.step (before ++ .loopBegin :: (a ++ .loopEnd :: after))
      ⟨before.length, c, m⟩ =
      some ⟨if w.get i = 0 then before.length + a.length + 2 else before.length + 1, c, m⟩ := by
    rw [← hget]
    exact Machine.step_loopBegin ha.balanced
  by_cases hzero : w.get i = 0
  · rw [if_pos hzero] at htest ⊢
    exact ⟨_, .single htest, rfl, hskip _ _ _ hs⟩
  · rw [if_neg hzero] at htest ⊢
    have hbody : Follows (before ++ .loopBegin :: (a ++ .loopEnd :: after)) bound n
        ⟨before.length + 1, c, m⟩
        (Assertion.At (fun w c' m => c' = c ∧ m.cells c = 0 ∧ Q w c' m)
          (before.length + 1 + a.length))
        (X n w) :=
      ha.follows_at (before ++ [.loopBegin]) (.loopEnd :: after) (by simp) (by simp)
        (by simp) ⟨rfl, hs⟩
    refine Follows.after (.single htest) (hbody.finish fun w' t ht => ?_)
    obtain ⟨next, c', m'⟩ := t
    obtain ⟨rfl, rfl, hcleared, hQ⟩ := ht
    have hleave : Machine.step (before ++ .loopBegin :: (a ++ .loopEnd :: after))
        ⟨before.length + 1 + a.length, c', m'⟩ = _ := Machine.step_loopEnd ha.balanced
    rw [if_pos hcleared] at hleave
    exact ⟨_, .single hleave, rfl, hQ⟩

end Runs

end TapeToolchain
