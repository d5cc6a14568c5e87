import TapeToolchain.Frame.Emitter
import TapeToolchain.Proofs.Actions
import TapeToolchain.Proofs.Execution.Machine
import Mathlib.Tactic.Ring

/-!
What a sequence of requests makes the emitter write, step by step. A request leaves marks: the
instructions it writes, one by one, and the moves of the frame's base, which write nothing. The
marks of a successful sequence, followed one at a time, lead through the same emitter to the same
end (`follow_trace`), so that each place in the code, between two instructions or between two moves
of the base, has an emitter of its own.
-/

namespace TapeToolchain.Emitter

inductive Operation where
  | shift (distance : Int)
  | moveTo (offset : Int)
  | add (count : Nat)
  | sub (count : Nat)
  | beginLoop
  | endLoop
  | read
  | write
  | raw (fragment : String)
  | step (i : Instruction)
  | rebase (distance : Int)

def Operation.action : Operation → Action Unit
  | shift distance => Emitter.shift distance
  | moveTo offset => Emitter.moveTo offset
  | add count => Emitter.add count
  | sub count => Emitter.sub count
  | beginLoop => Emitter.beginLoop
  | endLoop => Emitter.endLoop
  | read => Emitter.read
  | write => Emitter.write
  | raw fragment => Emitter.raw fragment
  | step i => Emitter.step i
  | rebase distance => Emitter.rebase distance

/-- Requests one after the other, up to the first that fails. -/
def perform : List Operation → Action Unit
  | [] => pure ()
  | op :: rest => do
    op.action
    perform rest

/-- A written instruction or a move of the base. -/
inductive Mark where
  | instruction (i : Instruction)
  | rebase (distance : Int)

def Mark.instruction? : Mark → Option Instruction
  | instruction i => some i
  | rebase _ => none

/-- What a mark asks for by itself. -/
def Mark.action : Mark → Action Unit
  | instruction i => Emitter.step i
  | rebase distance => Emitter.rebase distance

def codeOf (marks : List Mark) : List Instruction :=
  marks.filterMap Mark.instruction?

/-- Follows marks one by one. -/
def follow : List Mark → Action Unit
  | [] => pure ()
  | mark :: rest => do
    mark.action
    follow rest

/-- The marks that a request leaves. -/
def Operation.marks (e : Emitter) : Operation → List Mark
  | shift distance => (motion distance).toList.map .instruction
  | moveTo offset => (motion (e.base + offset - e.cursor)).toList.map .instruction
  | add count => List.replicate count (.instruction .increment)
  | sub count => List.replicate count (.instruction .decrement)
  | beginLoop => [.instruction .loopBegin]
  | endLoop => [.instruction .loopEnd]
  | read => [.instruction .read]
  | write => [.instruction .write]
  | raw fragment =>
    match parseFragment fragment.toList with
    | .ok code => code.map .instruction
    | .error _ => []
  | step i => [.instruction i]
  | rebase distance => [.rebase distance]

/-- The marks that requests leave, up to the first that fails. -/
def trace : List Operation → Emitter → List Mark
  | [], _ => []
  | op :: rest, e =>
    match op.action e with
    | .ok () e' => op.marks e ++ trace rest e'
    | .error _ _ => []

/-! ## Sequences -/

theorem follow_append {a b : List Mark} {e e' : Emitter} :
    follow (a ++ b) e = .ok () e' ↔ ∃ u, follow a e = .ok () u ∧ follow b u = .ok () e' := by
  induction a generalizing e with
  | nil => simp [follow]
  | cons mark a ih =>
    simp only [List.cons_append, follow, bind_eq_ok, ih]
    grind

theorem follow_cons {mark : Mark} {rest : List Mark} {e e' : Emitter} :
    follow (mark :: rest) e = .ok () e' ↔ ∃ u, mark.action e = .ok () u ∧
      follow rest u = .ok () e' := by
  simp only [follow, bind_eq_ok]
  exact ⟨fun ⟨_, u, h⟩ => ⟨u, h⟩, fun ⟨u, h⟩ => ⟨(), u, h⟩⟩

theorem follow_single {mark : Mark} {e e' : Emitter} :
    follow [mark] e = .ok () e' ↔ mark.action e = .ok () e' := by
  simp [follow]

theorem perform_append {a b : List Operation} {e e' : Emitter} :
    perform (a ++ b) e = .ok () e' ↔ ∃ u, perform a e = .ok () u ∧ perform b u = .ok () e' := by
  induction a generalizing e with
  | nil => simp [perform]
  | cons op a ih =>
    simp only [List.cons_append, perform, bind_eq_ok, ih]
    grind

theorem perform_cons {op : Operation} {rest : List Operation} {e e' : Emitter} :
    perform (op :: rest) e = .ok () e' ↔ ∃ u, op.action e = .ok () u ∧
      perform rest u = .ok () e' := by
  simp only [perform, bind_eq_ok]
  exact ⟨fun ⟨_, u, h⟩ => ⟨u, h⟩, fun ⟨u, h⟩ => ⟨(), u, h⟩⟩

theorem trace_append {a b : List Operation} {e u : Emitter} (h : perform a e = .ok () u) :
    trace (a ++ b) e = trace a e ++ trace b u := by
  induction a generalizing e with
  | nil => cases h; rfl
  | cons op a ih =>
    obtain ⟨v, hv, ha⟩ := perform_cons.1 h
    simp only [List.cons_append, trace, hv, ih ha, List.append_assoc]

/-! ## One instruction -/

/-- What following an instruction changes when it succeeds. Only the moves look at the tape, and
only the ends of loops at the open loops. -/
theorem step_ok {i : Instruction} {e e' : Emitter} (h : step i e = .ok () e') :
    e'.tapeSize = e.tapeSize ∧ e'.base = e.base ∧ e'.cursor = e.cursor + i.displacement ∧
      e'.code = e.code.push i ∧
      (i.displacement ≠ 0 → e.onTape e'.cursor = true) ∧
      (i = .loopBegin → e'.loops = e.relative :: e.loops) ∧
      (i = .loopEnd → e.loops = e.relative :: e'.loops) ∧
      (i.IsPlain → e'.loops = e.loops) := by
  cases i with
  | left =>
    simp only [step, shift] at h
    split at h
    · next ht => cases h; exact ⟨rfl, rfl, rfl, rfl, fun _ => ht, nofun, nofun, fun _ => rfl⟩
    · cases h
  | right =>
    simp only [step, shift] at h
    split at h
    · next ht => cases h; exact ⟨rfl, rfl, rfl, rfl, fun _ => ht, nofun, nofun, fun _ => rfl⟩
    · cases h
  | loopEnd =>
    simp only [step, endLoop] at h
    split at h
    · cases h
    · next opened rest hl =>
      split at h
      · next ho =>
        cases h
        refine ⟨rfl, rfl, (Int.add_zero _).symm, rfl, fun hd => absurd rfl hd, nofun, fun _ => ?_,
          fun hp => absurd rfl hp.2⟩
        rw [hl, ho]
      · cases h
  | loopBegin =>
    cases h
    exact ⟨rfl, rfl, (Int.add_zero _).symm, rfl, fun hd => absurd rfl hd, fun _ => rfl, nofun,
      fun hp => absurd rfl hp.1⟩
  | increment | decrement | read | write =>
    cases h
    exact ⟨rfl, rfl, (Int.add_zero _).symm, rfl, fun hd => absurd rfl hd, nofun, nofun,
      fun _ => rfl⟩

theorem rebase_ok {d : Int} {e e' : Emitter} (h : rebase d e = .ok () e') :
    e' = { e with base := e.base + d } := by
  simp only [rebase] at h
  split at h
  · cases h; rfl
  · cases h

theorem onTape_iff {e : Emitter} {p : Int} : e.onTape p = true ↔ 0 ≤ p ∧ p < e.limit := by
  simp [onTape]

theorem step_of_plain {i : Instruction} (hi : i.IsPlain) {e : Emitter}
    (h : i.displacement ≠ 0 → e.onTape (e.cursor + i.displacement) = true) :
    step i e = .ok () { e with cursor := e.cursor + i.displacement, code := e.code.push i } := by
  obtain ⟨hb, he⟩ := hi
  cases i with
  | left | right =>
    have ht := h (by decide)
    simp only [Instruction.displacement] at ht
    simp only [step, shift, ht, if_true]
    rfl
  | loopBegin | loopEnd => contradiction
  | increment | decrement | read | write => simp only [Instruction.displacement, Int.add_zero]; rfl

/-- A run of one instruction, followed step by step. -/
theorem follow_replicate {i : Instruction} (hi : i.IsPlain) (n : Nat) {e : Emitter}
    (h : i.displacement ≠ 0 → ∀ k : Nat, k < n →
      e.onTape (e.cursor + (k + 1) * i.displacement) = true) :
    follow (List.replicate n (.instruction i)) e =
      .ok () { e with cursor := e.cursor + n * i.displacement,
                      code := e.code ++ Array.replicate n i } := by
  induction n generalizing e with
  | zero => simp [follow]
  | succ n ih =>
    have hfirst : i.displacement ≠ 0 → e.onTape (e.cursor + i.displacement) = true := by
      intro hd
      simpa using h hd 0 (Nat.succ_pos n)
    rw [List.replicate_succ, follow_cons]
    refine ⟨_, step_of_plain hi hfirst, ?_⟩
    rw [ih]
    · congr 2
      · push_cast; ring
      · rw [Array.push_eq_append, Array.append_assoc, Array.replicate_succ']
    · intro hd k hk
      have harith : e.cursor + ((k + 1 : Nat) + 1) * i.displacement =
          e.cursor + i.displacement + (k + 1) * i.displacement := by push_cast; ring
      have ht := h hd (k + 1) (Nat.succ_lt_succ hk)
      rw [harith] at ht
      exact ht

/-! ## The cursor of the emitter -/

/-- The cursor is on the tape, or still at its start: a tape may be too short for any cell. -/
def CursorInside (e : Emitter) : Prop :=
  e.cursor = 0 ∨ e.onTape e.cursor = true

theorem cursorInside_new (n : UInt64) : (new n).CursorInside := Or.inl rfl

theorem CursorInside.step {i : Instruction} {e e' : Emitter} (he : e.CursorInside)
    (h : Emitter.step i e = .ok () e') : e'.CursorInside := by
  obtain ⟨hsize, -, hcursor, -, htape, -⟩ := step_ok h
  have hlimit : e'.limit = e.limit := by rw [limit, limit, hsize]
  by_cases hd : i.displacement = 0
  · rw [hd, Int.add_zero] at hcursor
    rcases he with he | he
    · exact Or.inl (hcursor.trans he)
    · refine Or.inr ?_
      rw [onTape_iff] at he ⊢
      rwa [hlimit, hcursor]
  · refine Or.inr ?_
    have := htape hd
    rw [onTape_iff] at this ⊢
    rwa [hlimit]

theorem CursorInside.follow {marks : List Mark} {e e' : Emitter} (he : e.CursorInside)
    (h : Emitter.follow marks e = .ok () e') : e'.CursorInside := by
  induction marks generalizing e with
  | nil => cases h; exact he
  | cons mark rest ih =>
    obtain ⟨u, hu, hr⟩ := follow_cons.1 h
    cases mark with
    | instruction i => exact ih (he.step hu) hr
    | rebase d => exact ih (by rw [rebase_ok hu]; exact he) hr

/-- Moving is moving by single cells: none of the cells on the way lies outside of the tape. -/
theorem follow_motion {e : Emitter} (he : e.CursorInside) {d : Int}
    (ht : e.onTape (e.cursor + d) = true) :
    follow ((motion d).toList.map .instruction) e =
      .ok () { e with cursor := e.cursor + d, code := e.code ++ motion d } := by
  -- on a tape without cells the cursor stands at 0 all the same
  have hcursor : 0 ≤ e.cursor ∧ (e.cursor < e.limit ∨ e.cursor = 0) := by
    rcases he with he | he
    · exact ⟨by omega, Or.inr he⟩
    · rw [onTape_iff] at he
      exact ⟨he.1, Or.inl he.2⟩
  rw [onTape_iff] at ht
  by_cases hd : d < 0
  · have hm : motion d = Array.replicate d.natAbs .left := by rw [motion, if_pos hd]
    have hn : (d.natAbs : Int) = -d := by omega
    rw [hm, Array.toList_replicate, List.map_replicate, follow_replicate (by decide)]
    · simp only [hn, Instruction.displacement, Int.neg_mul_neg, Int.mul_one]
    · intro _ k hk
      rw [onTape_iff]
      show 0 ≤ e.cursor + (k + 1) * -1 ∧ e.cursor + (k + 1) * -1 < e.limit
      omega
  · have hm : motion d = Array.replicate d.natAbs .right := by rw [motion, if_neg hd]
    have hn : (d.natAbs : Int) = d := by omega
    rw [hm, Array.toList_replicate, List.map_replicate, follow_replicate (by decide)]
    · simp only [hn, Instruction.displacement, Int.mul_one]
    · intro _ k hk
      rw [onTape_iff]
      show 0 ≤ e.cursor + (k + 1) * 1 ∧ e.cursor + (k + 1) * 1 < e.limit
      omega

theorem follow_shift {e e' : Emitter} (he : e.CursorInside) {d : Int}
    (h : shift d e = .ok () e') : follow ((motion d).toList.map .instruction) e = .ok () e' := by
  simp only [shift] at h
  split at h
  · next ht => cases h; exact follow_motion he ht
  · cases h

theorem follow_replay {code : List Instruction} {e : Emitter} :
    follow (code.map .instruction) e = replay code e := by
  induction code generalizing e with
  | nil => rfl
  | cons i code ih =>
    show (step i >>= fun _ => follow (code.map .instruction)) e =
      (step i >>= fun _ => replay code) e
    cases h : step i e with
    | ok a u => rw [bind_of_ok h, bind_of_ok h, ih]
    | error c u => rw [bind_of_error h, bind_of_error h]

/-- A request that succeeds does what its marks do one by one. -/
theorem Operation.follow_marks {op : Operation} {e e' : Emitter} (he : e.CursorInside)
    (h : op.action e = .ok () e') : follow (op.marks e) e = .ok () e' := by
  cases op with
  | shift d => exact follow_shift he h
  | moveTo o => exact follow_shift he h
  | add n =>
    rw [Operation.marks, follow_replicate (by decide) n (fun hd => absurd rfl hd), ← h]
    simp only [Instruction.displacement, Int.mul_zero, Int.add_zero]
    rfl
  | sub n =>
    rw [Operation.marks, follow_replicate (by decide) n (fun hd => absurd rfl hd), ← h]
    simp only [Instruction.displacement, Int.mul_zero, Int.add_zero]
    rfl
  | beginLoop | endLoop | read | write | step i | rebase d => exact follow_single.2 h
  | raw text =>
    obtain ⟨code, u, hp, hr⟩ := bind_eq_ok.1 h
    cases hf : parseFragment text.toList with
    | error c => rw [hf] at hp; cases hp
    | ok code' =>
      rw [hf] at hp
      cases hp
      rw [Operation.marks, hf]
      exact follow_replay.trans hr

theorem follow_trace {ops : List Operation} {e e' : Emitter} (he : e.CursorInside)
    (h : perform ops e = .ok () e') : follow (trace ops e) e = .ok () e' := by
  induction ops generalizing e with
  | nil => exact h
  | cons op rest ih =>
    obtain ⟨u, hu, hr⟩ := perform_cons.1 h
    have hm := op.follow_marks he hu
    simp only [trace, hu]
    exact follow_append.2 ⟨u, hm, ih (he.follow hm) hr⟩

/-! ## What a followed sequence leaves -/

@[simp] theorem codeOf_nil : codeOf [] = [] := rfl

@[simp] theorem codeOf_instruction (i : Instruction) (rest : List Mark) :
    codeOf (.instruction i :: rest) = i :: codeOf rest := rfl

@[simp] theorem codeOf_rebase (d : Int) (rest : List Mark) :
    codeOf (.rebase d :: rest) = codeOf rest := rfl

@[simp] theorem codeOf_append (a b : List Mark) : codeOf (a ++ b) = codeOf a ++ codeOf b :=
  List.filterMap_append

theorem codeOf_follow {marks : List Mark} {e e' : Emitter} (h : follow marks e = .ok () e') :
    e'.code.toList = e.code.toList ++ codeOf marks := by
  induction marks generalizing e with
  | nil => cases h; simp
  | cons mark rest ih =>
    obtain ⟨u, hu, hr⟩ := follow_cons.1 h
    rw [ih hr]
    cases mark with
    | instruction i =>
      obtain ⟨-, -, -, hcode, -⟩ := step_ok hu
      simp [hcode]
    | rebase d => simp [rebase_ok hu]

theorem tapeSize_follow {marks : List Mark} {e e' : Emitter} (h : follow marks e = .ok () e') :
    e'.tapeSize = e.tapeSize := by
  induction marks generalizing e with
  | nil => cases h; rfl
  | cons mark rest ih =>
    obtain ⟨u, hu, hr⟩ := follow_cons.1 h
    rw [ih hr]
    cases mark with
    | instruction i => exact (step_ok hu).1
    | rebase d => rw [rebase_ok hu]

/-- The emitter counts the open loops of its code. -/
theorem nesting_follow {marks : List Mark} {e e' : Emitter} (h : follow marks e = .ok () e') :
    nesting e.loops.length (codeOf marks) = some e'.loops.length := by
  induction marks generalizing e with
  | nil => cases h; rfl
  | cons mark rest ih =>
    obtain ⟨u, hu, hr⟩ := follow_cons.1 h
    have hrest := ih hr
    cases mark with
    | rebase d =>
      rw [rebase_ok hu] at hrest
      exact hrest
    | instruction i =>
      obtain ⟨-, -, -, -, -, hbegin, hend, hplain⟩ := step_ok hu
      rcases i.cases_plain with rfl | rfl | hi
      · rw [hbegin rfl] at hrest
        exact hrest
      · rw [hend rfl]
        exact hrest
      · rw [hplain hi] at hrest
        rw [codeOf_instruction, nesting_plain hi]
        exact hrest

/-- The loops opened before a piece of code with closed loops are open behind it as they were. -/
theorem loops_follow {marks : List Mark} {e e' : Emitter} (h : follow marks e = .ok () e')
    (opened outer : List Int) {d : Nat} (he : e.loops = opened ++ outer)
    (hn : nesting opened.length (codeOf marks) = some d) :
    ∃ opened', opened'.length = d ∧ e'.loops = opened' ++ outer := by
  induction marks generalizing e opened with
  | nil =>
    cases h
    exact ⟨opened, by simpa [nesting] using hn, he⟩
  | cons mark rest ih =>
    obtain ⟨u, hu, hr⟩ := follow_cons.1 h
    cases mark with
    | rebase dist =>
      exact ih hr opened (by rw [rebase_ok hu]; exact he) hn
    | instruction i =>
      obtain ⟨-, -, -, -, -, hbegin, hend, hplain⟩ := step_ok hu
      rw [codeOf_instruction] at hn
      rcases i.cases_plain with rfl | rfl | hi
      · exact ih hr (e.relative :: opened) (by rw [hbegin rfl, he]; rfl) hn
      · cases opened with
        | nil => cases hn
        | cons o opened =>
          have hl := hend rfl
          rw [he, List.cons_append, List.cons.injEq] at hl
          exact ih hr opened hl.2.symm hn
      · rw [nesting_plain hi] at hn
        exact ih hr opened (by rw [hplain hi, he]) hn

end TapeToolchain.Emitter
