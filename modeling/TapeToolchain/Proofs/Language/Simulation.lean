import TapeToolchain.Proofs.Language.BuiltinSimulation
import TapeToolchain.Proofs.Language.Following

/-!
Code of frames that does what executions say: the code between two frames, for every world that the
memory holds when the machine comes there (`Frame.Realizes`). The code of a sequence, of a loop and
of a conditional is put together from the code of its parts, with the ends of loops at the cell of
the variable that is tested.
-/

namespace TapeToolchain

namespace Frame

/-- The cursor is where the emitter says, and the memory holds the world. -/
def At (f : Frame) (cells : List Int) : Assertion := fun w c m =>
  c = f.emitter.cursor ∧ f.Holds cells m w

/-- The code that was written between the two frames does what the executions `X` say. -/
structure Realizes (f f' : Frame) (cells : List Int) (X : Nat → World → Execution) : Prop where
  base : f'.emitter.base = f.emitter.base
  code : ∃ seg bound, f'.emitter.code.toList = f.emitter.code.toList ++ seg ∧
    Runs seg bound (f.At cells) (f'.At cells) X

theorem position_of_base {f f' : Frame} (h : f'.emitter.base = f.emitter.base) :
    f'.position = f.position := by
  funext o
  rw [position, h, position]

theorem At.congr {f f' : Frame} {cells : List Int} {w : World} {c : Int} {m : Memory}
    (h : f.At cells w c m) (hbase : f'.emitter.base = f.emitter.base)
    (hcursor : f'.emitter.cursor = f.emitter.cursor) : f'.At cells w c m :=
  ⟨h.1.trans hcursor.symm, h.2.congr (position_of_base hbase)⟩

namespace Realizes

variable {f g h : Frame} {cells : List Int} {X Y : Nat → World → Execution}

/-- A change of the world that takes no depth. -/
theorem of_simulates {change : World → World} (hsim : f.Simulates g cells change) :
    f.Realizes g cells fun _ w => .finished (change w) := by
  obtain ⟨F, ⟨hbase, seg, hcode, hbalanced, hrun⟩, hF⟩ := hsim
  refine ⟨hbase, seg, 0, hcode, .of_executes hbalanced fun w c m hw => ?_⟩
  obtain ⟨rfl, hw⟩ := hw
  exact ⟨_, _, hrun m, rfl, (hF m w hw).congr (position_of_base hbase)⟩

/-- Which cells are occupied does not matter. -/
theorem of_emitter {f' g' : Frame} (hX : f.Realizes g cells X) (hf : f'.emitter = f.emitter)
    (hg : g'.emitter = g.emitter) : f'.Realizes g' cells X := by
  obtain ⟨hbase, seg, bound, hcode, hruns⟩ := hX
  refine ⟨by rw [hf, hg, hbase], seg, bound, by rw [hf, hg, hcode], hruns.imp ?_ ?_⟩
  · exact fun w c m hw => hw.congr (by rw [hf]) (by rw [hf])
  · exact fun w c m hw => hw.congr (by rw [hg]) (by rw [hg])

/-- One after the other. -/
theorem andThen (hX : f.Realizes g cells X) (hY : g.Realizes h cells Y) :
    f.Realizes h cells fun n w => (X n w).andThen (Y n) := by
  obtain ⟨hbase₁, seg₁, bound₁, hcode₁, hruns₁⟩ := hX
  obtain ⟨hbase₂, seg₂, bound₂, hcode₂, hruns₂⟩ := hY
  refine ⟨hbase₂.trans hbase₁, seg₁ ++ seg₂, bound₁ + bound₂, ?_, hruns₁.append hruns₂⟩
  rw [hcode₂, hcode₁, List.append_assoc]

/-- One level of depth. -/
theorem later (hX : f.Realizes g cells X) (hzero : ∀ w, Y 0 w = .unfinished w.output)
    (hsucc : ∀ n w, w.vars.length = cells.length → Y (n + 1) w = X n w) : f.Realizes g cells Y := by
  obtain ⟨hbase, seg, bound, hcode, hruns⟩ := hX
  refine ⟨hbase, seg, bound + 1, hcode, hruns.later ?_ hzero ?_⟩
  · exact fun w c m hw => hw.2.output
  · exact fun n w c m hw => hsucc n w hw.2.length_vars

/-- A block with one more variable than there are around it. The variable is in a cell, whatever
that cell holds. -/
theorem declare {o : Int} (hY : g.Realizes h (cells ++ [o]) Y) (hemitter : g.emitter = f.emitter)
    (hX : ∀ n w value, w.vars.length = cells.length →
      X n w = (Y n (w.declare value)).close cells.length) : f.Realizes h cells X := by
  obtain ⟨hbase, seg, bound, hcode, hbalanced, hfollows⟩ := hY
  rw [hemitter] at hbase hcode
  refine ⟨hbase, seg, bound, hcode, hbalanced, fun before after n w s hs => ?_⟩
  obtain ⟨hnext, hcursor, hw⟩ := hs
  have hg : g.At (cells ++ [o]) (w.declare (s.memory.cells (f.position o))) s.cursor s.memory := by
    refine ⟨by rw [hemitter, hcursor], ?_⟩
    exact (hw.declare o).congr (position_of_base (by rw [hemitter]))
  rw [hX n w _ hw.length_vars]
  exact (hfollows before after n _ s ⟨hnext, hg⟩).close _ fun w' t ht =>
    ⟨ht.1, ht.2.1, ht.2.2.close⟩

end Realizes

/-! ## Loops -/

/-- An end of a loop is written at its cell: the cursor goes there, and the instruction follows. -/
structure Marks (f f' : Frame) (o : Int) (i : Instruction) (g : Frame) : Prop where
  moved : f.Performs g fun m => m
  cursor : g.emitter.cursor = f.position o
  base : f'.emitter.base = g.emitter.base
  sameCursor : f'.emitter.cursor = g.emitter.cursor
  code : f'.emitter.code.toList = g.emitter.code.toList ++ [i]

theorem beginLoop_marks {o : Int} {f f' : Frame} (h : beginLoop o f = .ok () f') :
    ∃ g, f.Marks f' o .loopBegin g := by
  obtain ⟨_, e, hmove, hbegin⟩ := bind_eq_ok.1 (emit_ok h)
  obtain ⟨hmoved, hcursor⟩ := Emitter.performs_moveTo hmove
  obtain ⟨emitter, cells⟩ := f'
  cases hbegin
  exact ⟨⟨e, f.cells⟩, hmoved, hcursor, rfl, rfl, Array.toList_push⟩

theorem endLoop_marks {o : Int} {f f' : Frame} (h : endLoop o f = .ok () f') :
    ∃ g, f.Marks f' o .loopEnd g := by
  obtain ⟨_, e, hmove, hend⟩ := bind_eq_ok.1 (emit_ok h)
  obtain ⟨hmoved, hcursor⟩ := Emitter.performs_moveTo hmove
  obtain ⟨hbase, hsame, hcode⟩ := Emitter.endLoop_ok hend
  exact ⟨⟨e, f.cells⟩, hmoved, hcursor, hbase, hsame, by rw [hcode, Array.toList_push]⟩

theorem Marks.simulates {f f' g : Frame} {o : Int} {i : Instruction} (h : f.Marks f' o i g)
    (cells : List Int) : f.Simulates g cells id :=
  ⟨_, h.moved, fun _ _ hw => hw⟩

/-- A copy of a variable outside of the cells of variables. -/
theorem Layout.copy {f g : Frame} {cells : List Int} (h : f.Layout cells) {i : Nat} {src x : Int}
    (hi : cells[i]? = some src) (hx : x ∉ cells) (hcopy : copy src x f = .ok () g) :
    ∃ F, f.Performs g F ∧ ∀ m w, f.Holds cells m w →
      f.Holds cells (F m) w ∧ (F m).cells (f.position x) = w.get i := by
  obtain ⟨-, temps, htemps, hperforms⟩ := copy_computes hcopy
  refine ⟨_, hperforms, fun m w hw => ⟨?_, ?_⟩⟩
  · refine Holds.clearAll ?_ fun t ht => h.notMem (htemps t ht).1 (htemps t ht).2.2
    refine hw.of_cells (fun o ho => ?_) rfl rfl
    have hne : o ≠ x := fun heq => hx (heq ▸ ho)
    simp [hne]
  · have hout : x ∉ temps := fun hmem => (htemps x hmem).2.1 (by simp)
    simp [hout, hw.get hi]

/-- The cursor is at a cell with a copy of a variable. -/
def AtCopy (f : Frame) (cells : List Int) (i : Nat) (x : Int) : Assertion := fun w c m =>
  c = f.position x ∧ f.Holds cells m w ∧ m.cells (f.position x) = w.get i

namespace Realizes

variable {f g h k : Frame} {cells : List Int} {X Y Z : Nat → World → Execution}

/-- A loop with what comes after it. -/
theorem loop {i : Nat} {o : Int} (hi : cells[i]? = some o) (hbegin : beginLoop o f = .ok () g)
    (hX : g.Realizes h cells X) (hend : endLoop o h = .ok () k) {l : Frame}
    (hY : k.Realizes l cells Y) (hzero : ∀ w, Z 0 w = .unfinished w.output)
    (hsucc : ∀ n w, w.vars.length = cells.length →
      Z (n + 1) w = if w.get i = 0 then Y n w else (X n w).andThen (Z n)) :
    f.Realizes l cells Z := by
  obtain ⟨f', hmark⟩ := beginLoop_marks hbegin
  obtain ⟨h', hmark'⟩ := endLoop_marks hend
  suffices hloop : f'.Realizes l cells Z from (of_simulates (hmark.simulates cells)).andThen hloop
  -- the cursor's way to the end of the loop belongs to the body
  have hbody := hX.andThen (of_simulates (hmark'.simulates cells))
  simp only [id, Execution.andThen_finished] at hbody
  have hbase_h' : h'.emitter.base = f'.emitter.base := hbody.base.trans hmark.base
  have hbase_k : k.emitter.base = f'.emitter.base := hmark'.base.trans hbase_h'
  have hcursor_h' : h'.emitter.cursor = f'.emitter.cursor := by
    rw [hmark'.cursor, hmark.cursor, position_of_base hX.base, position_of_base hmark.base,
      position_of_base hmark.moved.base]
  have hcursor_k : k.emitter.cursor = f'.emitter.cursor := hmark'.sameCursor.trans hcursor_h'
  obtain ⟨-, body, bound₁, hcode₁, hruns₁⟩ := hbody
  obtain ⟨hbase₂, rest, bound₂, hcode₂, hruns₂⟩ := hY
  refine ⟨hbase₂.trans hbase_k, .loopBegin :: (body ++ [.loopEnd]) ++ rest, bound₁ + bound₂ + 1, ?_,
    Runs.loop (p := f'.emitter.cursor) (i := i) ?_ (hruns₁.imp ?_ ?_)
      (hruns₂.imp ?_ fun _ _ _ hw => hw) hzero fun n w c m hw => hsucc n w hw.2.length_vars⟩
  · rw [hcode₂, hmark'.code, hcode₁, hmark.code]
    simp
  · rintro w c m ⟨rfl, hw⟩
    refine ⟨rfl, hw.output, ?_⟩
    rw [hmark.cursor, ← position_of_base hmark.moved.base]
    exact hw.get hi
  · exact fun w c m hw => hw.congr hmark.base hmark.sameCursor
  · exact fun w c m hw => hw.congr hbase_h'.symm hcursor_h'.symm
  · exact fun w c m hw => hw.congr hbase_k hcursor_k

/-- A conditional: a loop on a copy of the variable, which is cleared at the end of the body. -/
theorem conditional {l q : Frame} (hlayout : f.Layout cells) {i : Nat} {src x : Int}
    (hi : cells[i]? = some src) (hx : x ∉ cells) (hcopy : copy src x f = .ok () g)
    (hbegin : beginLoop x g = .ok () h) (hX : h.Realizes k cells X) (hclear : clear x k = .ok () l)
    (hend : endLoop x l = .ok () q) :
    f.Realizes q cells fun n w => if w.get i = 0 then .finished w else X n w := by
  obtain ⟨F, hcopied, hF⟩ := hlayout.copy hi hx hcopy
  obtain ⟨g', hmark⟩ := beginLoop_marks hbegin
  obtain ⟨l', hmark'⟩ := endLoop_marks hend
  have hcleared := clear_performs hclear
  have hbase_h : h.emitter.base = f.emitter.base :=
    hmark.base.trans (hcopied.trans hmark.moved).base
  have hbase_k : k.emitter.base = f.emitter.base := hX.base.trans hbase_h
  have hbase_q : q.emitter.base = f.emitter.base :=
    (hmark'.base.trans (hcleared.trans hmark'.moved).base).trans hbase_k
  have hcursor_g' : g'.emitter.cursor = f.position x := by rw [hmark.cursor, hcopied.position]
  have hcursor_l' : l'.emitter.cursor = f.position x := by
    rw [hmark'.cursor, hcleared.position, position_of_base hbase_k]
  -- the loop is entered, left and skipped with the cursor at the copy
  have hcursor_h : h.emitter.cursor = f.position x := hmark.sameCursor.trans hcursor_g'
  have hcursor_q : q.emitter.cursor = f.position x := hmark'.sameCursor.trans hcursor_l'
  obtain ⟨-, front, hcode₀, hbalanced₀, hrun₀⟩ := hcopied.trans hmark.moved
  obtain ⟨-, body, bound, hcode₁, hruns₁⟩ := hX
  obtain ⟨-, back, hcode₂, hbalanced₂, hrun₂⟩ := hcleared.trans hmark'.moved
  have henter : ∀ w c m, f.AtCopy cells i x w c m → h.At cells w c m := fun w c m hw =>
    ⟨hw.1.trans hcursor_h.symm, hw.2.1.congr (position_of_base hbase_h)⟩
  have hskip : ∀ w c m, f.AtCopy cells i x w c m → q.At cells w c m := fun w c m hw =>
    ⟨hw.1.trans hcursor_q.symm, hw.2.1.congr (position_of_base hbase_q)⟩
  have hfront : Runs front 0 (f.At cells) (f.AtCopy cells i x) fun _ w => .finished w := by
    refine .of_executes hbalanced₀ fun w c m hw => ?_
    obtain ⟨rfl, hw⟩ := hw
    exact ⟨_, _, hrun₀ m, hcursor_g', hF m w hw⟩
  have hback : Runs back 0 (k.At cells)
      (fun w c m => c = f.position x ∧ m.cells (f.position x) = 0 ∧ q.At cells w c m)
      fun _ w => .finished w := by
    refine .of_executes hbalanced₂ fun w c m hw => ?_
    obtain ⟨rfl, hw⟩ := hw
    refine ⟨_, _, hrun₂ m, hcursor_l', by simp [position_of_base hbase_k], ?_, ?_⟩
    · rw [hcursor_l', hcursor_q]
    · refine (hw.congr (position_of_base (hbase_q.trans hbase_k.symm))).of_cells
        (fun o ho => ?_) rfl rfl
      have hne : o ≠ x := fun heq => hx (heq ▸ ho)
      simp [position_of_base hbase_q, position_of_base hbase_k, hne]
  have hbody := (hruns₁.imp henter fun _ _ _ hw => hw).append hback
  have hruns := hfront.append (Runs.once (fun w c m hw => ⟨hw.1, hw.2.2⟩) hskip hbody)
  simp only [Execution.andThen_finished] at hruns
  refine ⟨hbase_q, _, _, ?_, hruns⟩
  rw [hmark'.code, hcode₂, hcode₁, hmark.code, hcode₀]
  simp

end Realizes

end Frame

end TapeToolchain
