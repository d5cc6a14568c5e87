import TapeToolchain.Proofs.Emission.Place
import TapeToolchain.Proofs.Preliminaries

/-!
The base of the frame at run time. Moves of the base write no code, but each has its place in the
code, and a running machine passes that place once in every round of the loops around it, or not at
all when a loop is skipped. The sum of the moves that a run has passed is its base at run time.

The emitter sees the code once, with every loop taken a single time; the machine may skip a loop or
repeat it with another base in every round. Yet cursor and base stay at the distance which the
emitter recorded for the place (`cursor_sub_base_eq_relative`): a loop is accepted only if its ends
are at the same offset from the base, and that is all that a jump needs.
-/

namespace TapeToolchain.Emitter

/-- A run of the written code from `s₀` comes by the place behind the first `k` marks in state `s`,
having passed moves of the base that add up to `b`. -/
inductive Passes (marks : List Mark) (s₀ : Machine) :
    (k : Nat) → (s : Machine) → (b : Int) → Prop where
  | start : Passes marks s₀ 0 s₀ 0
  | rebase {k : Nat} {s : Machine} {b d : Int} :
      Passes marks s₀ k s b → marks[k]? = some (.rebase d) → Passes marks s₀ (k + 1) s (b + d)
  | instruction {k : Nat} {s t : Machine} {b : Int} {i : Instruction} :
      Passes marks s₀ k s b → marks[k]? = some (.instruction i) →
      Machine.step (codeOf marks) s = some t → Passes marks s₀ (placeOf marks t.next) t b

/-- The number of instructions among the first `k` marks. -/
def written (marks : List Mark) (k : Nat) : Nat :=
  (codeOf (marks.take k)).length

theorem written_append (a c : List Mark) : written (a ++ c) a.length = (codeOf a).length := by
  rw [written, List.take_left]

theorem written_mono (marks : List Mark) {j k : Nat} (h : j ≤ k) :
    written marks j ≤ written marks k := by
  obtain ⟨n, rfl⟩ := Nat.exists_eq_add_of_le h
  rw [written, written, List.take_add, codeOf_append, List.length_append]
  exact Nat.le_add_right _ _

theorem split_of_getElem? {marks a c : List Mark} {mark : Mark} (h : marks = a ++ c)
    (hm : marks[a.length]? = some mark) : ∃ rest, c = mark :: rest := by
  subst h
  rw [List.getElem?_append_right (Nat.le_refl _), Nat.sub_self] at hm
  cases c with
  | nil => cases hm
  | cons x rest =>
    rw [List.getElem?_cons_zero, Option.some.injEq] at hm
    exact ⟨rest, by rw [hm]⟩

/-- At the end of each loop the base is where it was at the loop's start. -/
def LoopsKeepBase (marks : List Mark) (e₀ : Emitter) : Prop :=
  ∀ first body rest r r',
    marks = first ++ .instruction .loopBegin :: (body ++ .instruction .loopEnd :: rest) →
    Balanced (codeOf body) → follow first e₀ = .ok () r →
    follow (first ++ .instruction .loopBegin :: body) e₀ = .ok () r' → r'.base = r.base

/-! ## The distance from cursor to base -/

/-- A step of the machine, seen by the emitter. The step leads behind some instruction `j`. There
the emitter's offset differs from the one before the step as the machine's cursor does, and the base
is the same if loops keep it. -/
theorem step_recorded {a c : List Mark} {i : Instruction} {s t : Machine} {e₀ e r : Emitter}
    (hall : follow (a ++ .instruction i :: c) e₀ = .ok () e) (ha : follow a e₀ = .ok () r)
    (hs : s.next = (codeOf a).length)
    (ht : Machine.step (codeOf (a ++ .instruction i :: c)) s = some t) :
    ∃ a' c' j r', a ++ .instruction i :: c = a' ++ .instruction j :: c' ∧
      t.next = (codeOf a').length + 1 ∧ follow (a' ++ [.instruction j]) e₀ = .ok () r' ∧
      t.cursor - s.cursor = r'.relative - r.relative ∧
      (LoopsKeepBase (a ++ .instruction i :: c) e₀ → r'.base = r.base) := by
  obtain ⟨u, hu, hrest⟩ := follow_append.1 hall
  obtain rfl : r = u := by rw [ha] at hu; cases hu; rfl
  obtain ⟨v, hv, hc⟩ := follow_cons.1 hrest
  obtain ⟨-, hbase, hmove, -⟩ := step_ok hv
  obtain ⟨hcursor,
      hnext | ⟨rfl, body, rest, rfl, hb, hnext⟩ | ⟨rfl, first, body, rfl, hb, hnext⟩⟩ :=
    step_leads hs ht
  · -- on to the next instruction
    refine ⟨a, c, i, v, rfl, hnext, follow_append.2 ⟨r, ha, follow_single.2 hv⟩, ?_, fun _ => hbase⟩
    rw [hcursor, relative, relative, hbase, hmove]
    omega
  · -- over a skipped loop
    obtain ⟨w, hw, hend⟩ := follow_append.1 hc
    obtain ⟨x, hx, -⟩ := follow_cons.1 hend
    obtain ⟨-, hbase', -⟩ := step_ok (i := .loopEnd) hx
    obtain ⟨-, -, hrel⟩ := relative_loop hv hw hb hx
    have hbody : follow (a ++ .instruction .loopBegin :: body) e₀ = .ok () w :=
      follow_append.2 ⟨r, ha, follow_cons.2 ⟨v, hv, hw⟩⟩
    refine ⟨a ++ .instruction .loopBegin :: body, rest, .loopEnd, x, by simp, hnext,
      follow_append.2 ⟨w, hbody, follow_single.2 hx⟩, ?_, fun hkeep => ?_⟩
    · rw [hcursor, hrel, Int.sub_self]
      exact Int.sub_eq_zero_of_eq (Int.add_zero _)
    · exact hbase'.trans (hkeep a body rest r w rfl hb ha hbody)
  · -- back into a loop for another round
    obtain ⟨w, hw, hloop⟩ := follow_append.1 ha
    obtain ⟨x, hx, hbody⟩ := follow_cons.1 hloop
    obtain ⟨-, hbase', -⟩ := step_ok (i := .loopBegin) hx
    obtain ⟨hrel₁, hrel₂, -⟩ := relative_loop hx hbody hb hv
    refine ⟨first, body ++ .instruction .loopEnd :: c, .loopBegin, x, by simp, hnext,
      follow_append.2 ⟨w, hw, follow_single.2 hx⟩, ?_, fun hkeep => ?_⟩
    · rw [hcursor, hrel₁, hrel₂, Int.sub_self]
      exact Int.sub_eq_zero_of_eq (Int.add_zero _)
    · exact hbase'.trans (hkeep first body c w r (by simp) hb hw ha).symm

theorem Passes.recorded {marks : List Mark} {s₀ s : Machine} {e₀ e : Emitter} {k : Nat} {b : Int}
    (hall : follow marks e₀ = .ok () e) (hnext : s₀.next = 0) (hcursor : s₀.cursor = e₀.relative)
    (h : Passes marks s₀ k s b) :
    ∃ a c r, marks = a ++ c ∧ a.length = k ∧ s.next = (codeOf a).length ∧
      follow a e₀ = .ok () r ∧ s.cursor - b = r.relative ∧
      (LoopsKeepBase marks e₀ → e₀.base + b = r.base) := by
  induction h with
  | start =>
    exact ⟨[], marks, e₀, rfl, rfl, hnext, rfl, by rw [hcursor, Int.sub_zero],
      fun _ => Int.add_zero _⟩
  | @rebase k s b d h hmark ih =>
    obtain ⟨a, c, r, hsplit, rfl, hs, ha, hrel, hkeep⟩ := ih
    obtain ⟨rest, rfl⟩ := split_of_getElem? hsplit hmark
    rw [hsplit] at hall
    obtain ⟨u, hu, hrest⟩ := follow_append.1 hall
    obtain rfl : r = u := by rw [ha] at hu; cases hu; rfl
    obtain ⟨v, hv, -⟩ := follow_cons.1 hrest
    refine ⟨a ++ [.rebase d], rest, v, by simp [hsplit], by simp, by simpa using hs,
      follow_append.2 ⟨r, ha, follow_single.2 hv⟩, ?_, fun hk => ?_⟩
    · rw [rebase_ok hv]
      simp only [Emitter.relative] at hrel ⊢
      omega
    · rw [rebase_ok hv, ← Int.add_assoc, hkeep hk]
  | @instruction k s t b i h hmark hstep ih =>
    obtain ⟨a, c, r, hsplit, rfl, hs, ha, hrel, hkeep⟩ := ih
    obtain ⟨rest, rfl⟩ := split_of_getElem? hsplit hmark
    subst hsplit
    obtain ⟨a', c', j, r', hsplit', ht, ha', hmove, hbase⟩ := step_recorded hall ha hs hstep
    refine ⟨a' ++ [.instruction j], c', r', by simp [hsplit'], ?_, by simp [ht], ha', by omega,
      fun hk => (hkeep hk).trans (hbase hk).symm⟩
    rw [hsplit', ht, placeOf_append, List.length_append]
    rfl

/-! ## Every place of a run is passed -/

/-- Between two instructions a run passes all moves of the base that have their place there. -/
theorem Passes.rebases {marks : List Mark} {s₀ s : Machine} {j k : Nat} {b : Int}
    (h : Passes marks s₀ j s b) (hjk : j ≤ k) (hk : k ≤ marks.length)
    (hw : written marks k = written marks j) : ∃ b', Passes marks s₀ k s b' := by
  induction k, hjk using Nat.le_induction with
  | base => exact ⟨b, h⟩
  | succ k hjk ih =>
    have hle := written_mono marks hjk
    have hlast := written_mono marks (Nat.le_add_right k 1)
    obtain ⟨b', hb'⟩ := ih (by omega) (by omega)
    have hget : marks[k]? = some marks[k] := List.getElem?_eq_getElem hk
    cases hmark : marks[k] with
    | rebase d => exact ⟨b' + d, hb'.rebase (by rw [hget, hmark])⟩
    | instruction i =>
      have hsucc : written marks (k + 1) = written marks k + 1 := by
        rw [written, List.take_succ_eq_append_getElem hk, codeOf_append, hmark]
        simp [written]
      omega

theorem exists_passes {marks : List Mark} {s₀ s : Machine} {e₀ e : Emitter}
    (hall : follow marks e₀ = .ok () e) (h₀ : s₀.next = 0)
    (h : Machine.Reaches (codeOf marks) s₀ s) :
    s.next ≤ (codeOf marks).length ∧
      ∀ k ≤ marks.length, written marks k = s.next → ∃ b, Passes marks s₀ k s b := by
  refine h.invariant
    (P := fun s => s.next ≤ (codeOf marks).length ∧
      ∀ k ≤ marks.length, written marks k = s.next → ∃ b, Passes marks s₀ k s b) ?_ ⟨?_, ?_⟩
  · rintro s t ⟨-, hs⟩ hstep
    obtain ⟨i, hi⟩ := Machine.getElem?_of_step hstep
    obtain ⟨before, after, hcode, hbefore⟩ := List.eq_append_of_getElem? hi
    obtain ⟨a, c, rfl, rfl, -⟩ := codeOf_eq_append hcode
    obtain ⟨b, hb⟩ := hs a.length (by simp) (by rw [written_append, hbefore])
    have ht := hb.instruction (i := i) (by simp) hstep
    obtain ⟨r, hr, -⟩ := follow_append.1 hall
    obtain ⟨a', c', j, -, hsplit, hnext, -⟩ := step_recorded hall hr hbefore.symm hstep
    rw [hsplit] at ht ⊢
    rw [hnext, placeOf_append] at ht
    have hlast : written (a' ++ .instruction j :: c') (a'.length + 1) = t.next := by
      have := written_append (a' ++ [.instruction j]) c'
      simpa [hnext] using this
    refine ⟨by simp [hnext], fun k hk hw => ht.rebases ?_ hk (hw.trans hlast.symm)⟩
    -- A place with as many instructions in front of it is not before the last of them.
    refine Nat.lt_of_not_le fun hle => ?_
    have := written_mono (a' ++ .instruction j :: c') hle
    rw [written_append] at this
    omega
  · rw [h₀]; exact Nat.zero_le _
  · intro k hk hw
    refine Passes.start.rebases (Nat.zero_le k) hk ?_
    rw [hw, h₀]; rfl

/-- **The emitter's offset is the machine's, in every round of every loop.** Take any requests that
all succeed, from a fresh emitter, and run the code they write from the start of a tape with any
contents and any input. Wherever the run comes by a place of the code, the cursor is as far from the
base at run time as the emitter recorded when it was at that place, also between two moves of the
base and when loops move the base in every round. Every state of the run is seen so at all the
places where it is, and the emitter at the place behind a number of requests is the one that they
lead to. -/
theorem cursor_sub_base_eq_relative (n : UInt64) (ops : List Operation) (e : Emitter)
    (h : perform ops (new n) = .ok () e) (cells : Int → UInt8) (input : List UInt8) :
    codeOf (trace ops (new n)) = e.code.toList ∧
      (∀ k s b, Passes (trace ops (new n)) (Machine.start cells input) k s b →
        written (trace ops (new n)) k = s.next ∧
        ∃ r, follow ((trace ops (new n)).take k) (new n) = .ok () r ∧ s.cursor - b = r.relative) ∧
      (∀ s, Machine.Reaches e.code.toList (Machine.start cells input) s →
        ∀ k ≤ (trace ops (new n)).length, written (trace ops (new n)) k = s.next →
        ∃ b, Passes (trace ops (new n)) (Machine.start cells input) k s b) ∧
      ∀ done rest, ops = done ++ rest → ∃ r, perform done (new n) = .ok () r ∧
        follow ((trace ops (new n)).take (trace done (new n)).length) (new n) = .ok () r := by
  have hfollow := follow_trace (cursorInside_new n) h
  have hcode : codeOf (trace ops (new n)) = e.code.toList := by
    rw [codeOf_follow hfollow]; rfl
  refine ⟨hcode, ?_, ?_, ?_⟩
  · intro k s b hp
    obtain ⟨a, c, r, hsplit, rfl, hs, ha, hrel, -⟩ := hp.recorded hfollow rfl rfl
    rw [hsplit, written_append, List.take_left]
    exact ⟨hs.symm, r, ha, hrel⟩
  · intro s hs
    rw [← hcode] at hs
    exact (exists_passes hfollow rfl hs).2
  · rintro done rest rfl
    obtain ⟨r, hr, -⟩ := perform_append.1 h
    refine ⟨r, hr, ?_⟩
    rw [trace_append hr, List.take_left]
    exact follow_trace (cursorInside_new n) hr

/-- A loop that moves the base by two in every round: the emitter saw one round, the run takes
two. -/
theorem cursor_sub_base_second_round :
    ∃ e s b, perform [.add 1, .beginLoop, .rebase 2, .moveTo 0, .endLoop] (new 10) = .ok () e ∧
      e.base = 2 ∧ s.cursor = 4 ∧ b = 4 ∧
      Passes (trace [.add 1, .beginLoop, .rebase 2, .moveTo 0, .endLoop] (new 10))
        (Machine.start (fun p => if p = 2 then 1 else 0) []) 6 s b := by
  have h : perform [.add 1, .beginLoop, .rebase 2, .moveTo 0, .endLoop] (new 10) =
      .ok () ⟨10, 2, 2, #[.increment, .loopBegin, .right, .right, .loopEnd], []⟩ := rfl
  obtain ⟨-, hpass, hreach, -⟩ :=
    cursor_sub_base_eq_relative _ _ _ h (fun p => if p = 2 then 1 else 0) []
  obtain ⟨s, hs, hnext, hcursor⟩ :
      ∃ s, Machine.runFor [.increment, .loopBegin, .right, .right, .loopEnd] 8
          (Machine.start (fun p => if p = 2 then 1 else 0) []) = some s ∧
        s.next = 5 ∧ s.cursor = 4 := ⟨_, rfl, rfl, rfl⟩
  obtain ⟨b, hb⟩ := hreach s ⟨8, hs⟩ 6 (by decide) (hnext ▸ rfl)
  obtain ⟨-, r, hr, hrel⟩ := hpass 6 s b hb
  have hzero : r.relative = 0 := by cases hr; rfl
  exact ⟨_, s, b, h, rfl, hcursor, by omega, hb⟩

end TapeToolchain.Emitter
