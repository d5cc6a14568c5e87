import TapeToolchain.Proofs.Emission.RuntimeBase

/-!
The cursor at run time. If every loop leaves the base where it found it, the base at run time is the
one that the emitter recorded, and then so is the cursor: the checks that the emitter makes when it
writes the code are checks of every run of the code.
-/

namespace TapeToolchain.Emitter

/-- In every run of the code that requests write, from any tape and any input, the cursor is on the
tape and at the position that the emitter recorded for the place in the code, and the run goes on up
to the end of the code. -/
def TracksCursor (n : UInt64) (ops : List Operation) (e : Emitter) : Prop :=
  ∀ cells input s, Machine.Reaches e.code.toList (Machine.start cells input) s →
    (0 ≤ s.cursor ∧ s.cursor < n.toNat) ∧
    (∀ k ≤ (trace ops (new n)).length, written (trace ops (new n)) k = s.next →
      ∃ r, follow ((trace ops (new n)).take k) (new n) = .ok () r ∧ s.cursor = r.cursor) ∧
    (s.Halted e.code.toList ∧ s.cursor = e.cursor ∨
      ∃ t, Machine.step e.code.toList s = some t)

theorem limit_eq_toNat {e : Emitter} {n : UInt64} (hsize : e.tapeSize = n) (hn : n.toNat < 2 ^ 63) :
    e.limit = n.toNat := by
  have hlt : n.toNat < 0x8000000000000000 := hn
  rw [limit, hsize, signedSize, if_pos hlt]

theorem CursorInside.bounds {e : Emitter} (h : e.CursorInside) {n : UInt64} (hsize : e.tapeSize = n)
    (hpos : 1 ≤ n.toNat) (hn : n.toNat < 2 ^ 63) : 0 ≤ e.cursor ∧ e.cursor < n.toNat := by
  rcases h with h | h
  · omega
  · rw [onTape_iff, limit_eq_toNat hsize hn] at h
    exact h

theorem exists_written (marks : List Mark) {m : Nat} (h : m ≤ (codeOf marks).length) :
    ∃ k ≤ marks.length, written marks k = m := by
  induction marks generalizing m with
  | nil => exact ⟨0, Nat.le_refl _, (Nat.le_zero.1 h).symm⟩
  | cons mark rest ih =>
    cases mark with
    | rebase d =>
      obtain ⟨k, hk, hw⟩ := ih h
      exact ⟨k + 1, Nat.succ_le_succ hk, hw⟩
    | instruction i =>
      cases m with
      | zero => exact ⟨0, Nat.zero_le _, rfl⟩
      | succ m =>
        obtain ⟨k, hk, hw⟩ := ih (Nat.le_of_succ_le_succ h)
        exact ⟨k + 1, Nat.succ_le_succ hk, congrArg (· + 1) hw⟩

theorem written_length (marks : List Mark) :
    written marks marks.length = (codeOf marks).length := by
  rw [written, List.take_length]

/-- Loops that keep the base make every run keep to the recorded cursor. -/
theorem tracksCursor_of_loopsKeepBase {n : UInt64} (hpos : 1 ≤ n.toNat) (hn : n.toNat < 2 ^ 63)
    {ops : List Operation} {e : Emitter} (h : perform ops (new n) = .ok () e)
    (hclosed : e.loops = []) (hkeep : LoopsKeepBase (trace ops (new n)) (new n)) :
    TracksCursor n ops e := by
  intro cells input s hs
  have hall := follow_trace (cursorInside_new n) h
  have hcode : codeOf (trace ops (new n)) = e.code.toList := by
    rw [codeOf_follow hall]; rfl
  rw [← hcode] at hs ⊢
  obtain ⟨hle, hpass⟩ := exists_passes hall rfl hs
  have hplace : ∀ k ≤ (trace ops (new n)).length, written (trace ops (new n)) k = s.next →
      ∃ r, follow ((trace ops (new n)).take k) (new n) = .ok () r ∧ s.cursor = r.cursor := by
    intro k hk hw
    obtain ⟨b, hb⟩ := hpass k hk hw
    obtain ⟨a, c, r, hsplit, rfl, -, ha, hrel, hbase⟩ := hb.recorded hall rfl rfl
    -- the base at run time is the recorded one, so equal distances from it are equal places
    have hb' : 0 + b = r.base := hbase hkeep
    rw [hsplit, List.take_left]
    refine ⟨r, ha, ?_⟩
    rw [relative] at hrel
    omega
  refine ⟨?_, hplace, ?_⟩
  · obtain ⟨k, hk, hw⟩ := exists_written _ hle
    obtain ⟨r, hr, hcursor⟩ := hplace k hk hw
    rw [hcursor]
    exact ((cursorInside_new n).follow hr).bounds (tapeSize_follow hr) hpos hn
  · rcases Nat.lt_or_eq_of_le hle with hlt | hend
    · have hbalanced : Balanced (codeOf (trace ops (new n))) := by
        have := nesting_follow hall
        rwa [hclosed] at this
      exact Or.inr (Machine.exists_step hbalanced hlt)
    · obtain ⟨r, hr, hcursor⟩ := hplace _ (Nat.le_refl _) ((written_length _).trans hend.symm)
      rw [List.take_length, hall] at hr
      cases hr
      exact Or.inl ⟨hend, hcursor⟩

/-! ## Requests that leave the base alone -/

/-- The second emitter is reached from the first by requests that do not move the base. -/
def Steady (e e' : Emitter) : Prop :=
  ∃ ops, (∀ op ∈ ops, ∀ d, op ≠ .rebase d) ∧ perform ops e = .ok () e'

theorem Steady.refl (e : Emitter) : Steady e e :=
  ⟨[], nofun, rfl⟩

theorem Steady.trans (e₁ e₂ e₃ : Emitter) (h₁ : Steady e₁ e₂) (h₂ : Steady e₂ e₃) :
    Steady e₁ e₃ := by
  obtain ⟨ops₁, hops₁, h₁⟩ := h₁
  obtain ⟨ops₂, hops₂, h₂⟩ := h₂
  refine ⟨ops₁ ++ ops₂, fun op hop => ?_, perform_append.2 ⟨e₂, h₁, h₂⟩⟩
  rcases List.mem_append.1 hop with hop | hop
  · exact hops₁ op hop
  · exact hops₂ op hop

theorem Operation.meets_steady (op : Operation) (h : ∀ d, op ≠ .rebase d) :
    Meets Steady (fun _ => True) op.action := by
  refine ⟨fun e a e' he => ⟨[op], fun o ho => ?_, perform_cons.2 ⟨e', he, rfl⟩⟩,
    fun _ _ _ _ => trivial⟩
  rw [List.mem_singleton.1 ho]
  exact h

theorem Operation.mem_marks {op : Operation} (h : ∀ d, op ≠ .rebase d) {e : Emitter} {mark : Mark}
    (hm : mark ∈ op.marks e) : ∃ i, mark = .instruction i := by
  cases op with
  | rebase d => exact absurd rfl (h d)
  | shift _ | moveTo _ =>
    obtain ⟨i, -, rfl⟩ := List.mem_map.1 hm
    exact ⟨i, rfl⟩
  | add _ | sub _ => exact ⟨_, List.eq_of_mem_replicate hm⟩
  | beginLoop | endLoop | read | write | step _ => exact ⟨_, List.mem_singleton.1 hm⟩
  | raw text =>
    rw [Operation.marks] at hm
    split at hm
    · obtain ⟨i, -, rfl⟩ := List.mem_map.1 hm
      exact ⟨i, rfl⟩
    · cases hm

theorem mem_trace {ops : List Operation} (h : ∀ op ∈ ops, ∀ d, op ≠ .rebase d) {e : Emitter}
    {mark : Mark} (hm : mark ∈ trace ops e) : ∃ i, mark = .instruction i := by
  induction ops generalizing e with
  | nil => cases hm
  | cons op rest ih =>
    rw [trace] at hm
    split at hm
    · rcases List.mem_append.1 hm with hm | hm
      · exact Operation.mem_marks (h op List.mem_cons_self) hm
      · exact ih (fun o ho => h o (List.mem_cons_of_mem _ ho)) hm
    · cases hm

theorem base_follow {marks : List Mark} (h : ∀ mark ∈ marks, ∃ i, mark = .instruction i)
    {e e' : Emitter} (he : follow marks e = .ok () e') : e'.base = e.base := by
  induction marks generalizing e with
  | nil => cases he; rfl
  | cons mark rest ih =>
    obtain ⟨u, hu, hr⟩ := follow_cons.1 he
    obtain ⟨i, rfl⟩ := h mark List.mem_cons_self
    obtain ⟨-, hbase, -⟩ := step_ok (i := i) hu
    rw [ih (fun m hm => h m (List.mem_cons_of_mem _ hm)) hr, hbase]

/-- Where the base is never moved, loops keep it. -/
theorem loopsKeepBase_of_no_rebase {ops : List Operation} (h : ∀ op ∈ ops, ∀ d, op ≠ .rebase d)
    (e₀ : Emitter) : LoopsKeepBase (trace ops e₀) e₀ := by
  intro first body rest r r' hsplit _ hr hr'
  have hmarks : ∀ mark ∈ trace ops e₀, ∃ i, mark = .instruction i := fun mark hm => mem_trace h hm
  rw [hsplit] at hmarks
  have hr₀ : r.base = e₀.base := base_follow (fun m hm => hmarks m (by simp [hm])) hr
  have hr₁ : r'.base = e₀.base := by
    refine base_follow (fun m hm => hmarks m ?_) hr'
    simp only [List.mem_append, List.mem_cons] at hm ⊢
    tauto
  rw [hr₁, hr₀]

end TapeToolchain.Emitter
