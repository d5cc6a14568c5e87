import TapeToolchain.Proofs.Frame.InputOutputEffect
import TapeToolchain.Proofs.Frame.Room

/-!
Texts that are known beforehand. The code that writes a text goes to a scratch cell and clears it,
and then changes it from each character to the next by as many increments or decrements as their
codes differ by (`Spells`). What is known of the cell while the code is written is what the cell
holds when it is run, so that the text comes out as it is.
-/

namespace TapeToolchain

/-- Code that writes bytes from a cell that holds `current`. Before each write the cell is
incremented, or it is decremented, as many times as the byte differs from the one before. -/
inductive Spells : Nat → List Nat → List Instruction → Prop where
  | nil (current : Nat) : Spells current [] []
  | cons {current code : Nat} {rest : List Nat} {change : Instruction} {later : List Instruction} :
      change = .increment ∨ change = .decrement → Spells code rest later →
      Spells current (code :: rest)
        (List.replicate ((code : Int) - current).natAbs change ++ .write :: later)

/-- There is one write for each byte. -/
theorem Spells.count_write {current : Nat} {codes : List Nat} {code : List Instruction}
    (h : Spells current codes code) : code.count .write = codes.length := by
  induction h with
  | nil current => rfl
  | cons hchange _ ih =>
    rcases hchange with rfl | rfl
    · simp [List.count_replicate, ih]
    · simp [List.count_replicate, ih]

namespace Emitter

theorem toCode_code {current code : Nat} {e e' : Emitter} (h : toCode current code e = .ok () e') :
    ∃ change, (change = .increment ∨ change = .decrement) ∧
      e' = { e with code := e.code ++ Array.replicate ((code : Int) - current).natAbs change } := by
  rw [toCode] at h
  split at h
  · cases h
    exact ⟨.increment, Or.inl rfl,
      by rw [show code - current = ((code : Int) - current).natAbs by omega]⟩
  · cases h
    exact ⟨.decrement, Or.inr rfl,
      by rw [show current - code = ((code : Int) - current).natAbs by omega]⟩

theorem putCodes_spells (codes : List Nat) {current : Nat} {e e' : Emitter}
    (h : Frame.putCodes current codes e = .ok () e') :
    ∃ code, Spells current codes code ∧ e'.code.toList = e.code.toList ++ code ∧
      e'.cursor = e.cursor := by
  induction codes generalizing current e with
  | nil =>
    cases h
    exact ⟨[], .nil current, by simp, rfl⟩
  | cons code rest ih =>
    rw [putCodes_cons] at h
    obtain ⟨_, e₁, hchange, h⟩ := bind_eq_ok.1 h
    obtain ⟨_, e₂, hwrite, hrest⟩ := bind_eq_ok.1 h
    obtain ⟨change, hkind, rfl⟩ := toCode_code hchange
    cases hwrite
    obtain ⟨later, hlater, hcode, hcursor⟩ := ih hrest
    refine ⟨_, .cons hkind hlater, ?_, hcursor⟩
    rw [hcode]
    simp

/-- The code that goes to a cell and clears it. -/
def approach (e : Emitter) (o : Int) : List Instruction :=
  (motion (e.base + o - e.cursor)).toList ++ [.loopBegin, .decrement, .loopEnd]

theorem count_write_approach (e : Emitter) (o : Int) : (e.approach o).count .write = 0 := by
  rw [approach, motion, Array.toList_replicate, List.count_append, List.count_replicate]
  split <;> rfl

/-- Instructions that are followed one by one are written as they are. -/
theorem replay_ok {code : List Instruction} {e e' : Emitter} (h : replay code e = .ok () e') :
    e'.code.toList = e.code.toList ++ code ∧
      e'.cursor = e.cursor + (code.map Instruction.displacement).sum := by
  induction code generalizing e with
  | nil =>
    cases h
    simp
  | cons i rest ih =>
    rw [replay] at h
    obtain ⟨_, u, hstep, hrest⟩ := bind_eq_ok.1 h
    obtain ⟨-, -, hcursor, hcode, -⟩ := step_ok hstep
    obtain ⟨hcode', hcursor'⟩ := ih hrest
    refine ⟨by rw [hcode', hcode]; simp, ?_⟩
    rw [hcursor', hcursor, List.map_cons, List.sum_cons, Int.add_assoc]

end Emitter

namespace Frame

theorem clear_code {o : Int} {f f' : Frame} (h : clear o f = .ok () f') :
    f'.emitter.code.toList = f.emitter.code.toList ++ f.emitter.approach o ∧
      f'.emitter.cursor = f.position o := by
  obtain ⟨_, e, hmove, hloop⟩ := bind_eq_ok.1 (emit_ok h)
  obtain ⟨rfl, -⟩ := Emitter.moveTo_ok hmove
  obtain ⟨hcode, hcursor⟩ := Emitter.replay_ok hloop
  refine ⟨by rw [hcode]; simp [Emitter.approach], ?_⟩
  rw [hcursor]
  exact Int.add_zero _

/-! ## Characters that are no bytes -/

/-- The first character above U+00FF is the one that is named. -/
theorem byteCodes_error_iff {chars : List Char} {cause : CompileError} :
    byteCodes chars = .error cause ↔
      ∃ c, chars.find? (fun c => 0xff < c.toNat) = some c ∧ cause = .nonByteChar c := by
  induction chars with
  | nil => simp [byteCodes]
  | cons c rest ih =>
    by_cases hc : c.toNat ≤ 0xff
    · have hnot : ¬ 0xff < c.toNat := by omega
      rw [byteCodes, if_pos hc, List.find?_cons_of_neg (by simpa using hnot), ← ih]
      cases byteCodes rest with
      | ok codes =>
        constructor
        · intro h
          cases h
        · intro h
          cases h
      | error cause' => exact Iff.rfl
    · have hlarge : 0xff < c.toNat := by omega
      rw [byteCodes, if_neg hc, List.find?_cons_of_pos (by simpa using hlarge)]
      simp [eq_comm]

theorem bytes_of_byteCodes_ok {chars : List Char} {codes : List Nat}
    (h : byteCodes chars = .ok codes) : ∀ c ∈ chars, c.toNat ≤ 0xff := by
  by_contra hno
  obtain ⟨c, hc, hlarge⟩ : ∃ c ∈ chars, 0xff < c.toNat := by simpa using hno
  have hsome : (chars.find? (fun c => 0xff < c.toNat)).isSome :=
    List.find?_isSome.2 ⟨c, hc, by simpa using hlarge⟩
  obtain ⟨d, hd⟩ := Option.isSome_iff_exists.1 hsome
  have herror := byteCodes_error_iff.2 ⟨d, hd, rfl⟩
  rw [h] at herror
  cases herror

theorem putStringConstant_nonByteChar_iff {text : String} {c : Char} {f f' : Frame} :
    putStringConstant text f = .error (.nonByteChar c) f' ↔
      text.toList.find? (fun c => 0xff < c.toNat) = some c ∧ f' = f := by
  rw [putStringConstant]
  cases hcodes : byteCodes text.toList with
  | error cause =>
    obtain ⟨d, hd, rfl⟩ := byteCodes_error_iff.1 hcodes
    have hrun : (MonadExcept.ofExcept (.error (.nonByteChar d)) : Action (List Nat)) f =
        .error (.nonByteChar d) f := rfl
    rw [bind_of_error hrun, hd]
    constructor
    · intro h
      cases h
      exact ⟨rfl, rfl⟩
    · rintro ⟨hsame, rfl⟩
      rw [Option.some.inj hsame]
  | ok codes =>
    constructor
    · intro h
      obtain ⟨position, tapeSize, hcause⟩ := ((Visits.putCodes codes).fails rfl h).1
      cases hcause
    · rintro ⟨hsome, -⟩
      have herror := byteCodes_error_iff.2 ⟨c, hsome, rfl⟩
      rw [hcodes] at herror
      cases herror

theorem putStringConstant_succeeds_iff {text : String} {f : Frame} :
    (∃ f', putStringConstant text f = .ok () f') ↔
      (∀ c ∈ text.toList, c.toNat ≤ 0xff) ∧
      f.emitter.onTape (f.position f.cells.leastFree) = true := by
  constructor
  · rintro ⟨f', h⟩
    have hbytes : ∀ c ∈ text.toList, c.toNat ≤ 0xff := by
      obtain ⟨codes, u, hcodes, -⟩ := bind_eq_ok.1 h
      cases hc : byteCodes text.toList with
      | error cause => rw [hc] at hcodes; cases hcodes
      | ok others => exact bytes_of_byteCodes_ok hc
    obtain ⟨hcovers, -⟩ := (Visits.putStringConstant hbytes).ok rfl h
    exact ⟨hbytes, by simpa [position] using hcovers⟩
  · rintro ⟨hbytes, htape⟩
    exact (Visits.putStringConstant hbytes).succeeds rfl (by simpa [position] using htape)

/-! ## The code of a text -/

/-- The second frame has the code of the first and after it code that writes a text from a free
cell, which it clears first. Run with the cursor where the first frame has it, the code sends the
characters of the text as bytes, whatever is on the tape, and changes no other cell. The second
frame has the cursor where the run leaves it, and is otherwise as the first. -/
structure WritesFrom (f f' : Frame) (text : String) (s : Int) (code : List Instruction) : Prop where
  spare : 0 ≤ s ∧ s ∉ f.cells.offsets
  appended : f'.emitter.code.toList = f.emitter.code.toList ++ code
  shape : ∃ spelled, code = f.emitter.approach s ++ spelled ∧
    Spells 0 (text.toList.map Char.toNat) spelled
  writes : code.count .write = text.toList.length
  run : ∀ m, ∃ m', Executes code f.emitter.cursor m f'.emitter.cursor m' ∧ m'.input = m.input ∧
    m'.output = m.output ++ text.toList.map (fun c => UInt8.ofNat c.toNat) ∧
    ∀ p, p ≠ f.position s → m'.cells p = m.cells p
  cursor : f'.emitter.cursor = f.position s
  base : f'.emitter.base = f.emitter.base
  loops : f'.emitter.loops = f.emitter.loops
  occupied : f'.cells = f.cells

theorem clear_putCodes_code {s : Int} {codes : List Nat} {f f' : Frame}
    (h : (do clear s; emit (putCodes 0 codes)) f = .ok () f') :
    ∃ spelled, Spells 0 codes spelled ∧
      f'.emitter.code.toList = f.emitter.code.toList ++ (f.emitter.approach s ++ spelled) ∧
      f'.emitter.cursor = f.position s := by
  obtain ⟨_, u, hclear, hput⟩ := bind_eq_ok.1 h
  obtain ⟨hcode, hcursor⟩ := clear_code hclear
  obtain ⟨spelled, hspells, hcode', hcursor'⟩ := Emitter.putCodes_spells codes (emit_ok hput)
  exact ⟨spelled, hspells, by rw [hcode', hcode, List.append_assoc], hcursor'.trans hcursor⟩

theorem putStringConstant_writesFrom {text : String} {f f' : Frame}
    (h : putStringConstant text f = .ok () f') : ∃ s code, f.WritesFrom f' text s code := by
  obtain ⟨hbytes, -⟩ := putStringConstant_succeeds_iff.1 ⟨f', h⟩
  obtain ⟨-, halike, hcells⟩ := (Visits.putStringConstant hbytes).ok rfl h
  obtain ⟨s, f₁, taken, f₂, hlends, hbody, hend⟩ := putStringConstant_ok h
  obtain ⟨last, hlast⟩ := clear_putCodes_performs hbody
  obtain ⟨hbase, code, hcode, -, hrun⟩ := hlends.performs hend hlast
  obtain ⟨spelled, hspells, hcode', hcursor⟩ := clear_putCodes_code hbody
  rw [← hend, hlends.emitter] at hcode'
  rw [← hend, hlends.position] at hcursor
  -- both describe what stands after the code of the first frame
  obtain rfl : code = f.emitter.approach s ++ spelled :=
    List.append_cancel_left (hcode.symm.trans hcode')
  refine ⟨s, _, ⟨hlends.nonneg, hlends.free⟩, hcode, ⟨spelled, rfl, hspells⟩, ?_, fun m => ?_,
    hcursor, hbase, halike.loops, hcells⟩
  · rw [List.count_append, Emitter.count_write_approach, hspells.count_write]
    simp
  · refine ⟨_, hrun m, rfl, ?_, fun p hp => ?_⟩
    · simp [Memory.send, Memory.set, Function.comp_def]
    · rw [hlends.position]
      simp [hp]

/-- **Texts are written as they are.** A text with a character that is no byte is refused for the
first such character, and nothing is written. Every other text is written if there is room for a
scratch cell, and then the code that is written sends exactly the text. -/
theorem string_constants_are_written_verbatim (text : String) (f : Frame) :
    (∀ c f', putStringConstant text f = .error (.nonByteChar c) f' ↔
      text.toList.find? (fun c => 0xff < c.toNat) = some c ∧ f' = f) ∧
    ((∃ f', putStringConstant text f = .ok () f') ↔
      (∀ c ∈ text.toList, c.toNat ≤ 0xff) ∧
      f.emitter.onTape (f.position f.cells.leastFree) = true) ∧
    ∀ f', putStringConstant text f = .ok () f' → ∃ s code, f.WritesFrom f' text s code :=
  ⟨fun _ _ => putStringConstant_nonByteChar_iff, putStringConstant_succeeds_iff,
    fun _ h => putStringConstant_writesFrom h⟩

/-- From the last byte down to a letter and up again, next to an occupied cell; and a text that is
refused. -/
theorem string_constants_are_written_verbatim_down_and_up : ∃ f f' : Frame, f.cells.offsets = [0] ∧
    putStringConstant "ÿaz" f = .ok () f' ∧ (∃ s code, f.WritesFrom f' "ÿaz" s code) ∧
    putStringConstant "a→b" f = .error (.nonByteChar '→') f := by
  obtain ⟨-, -, hwrites⟩ := string_constants_are_written_verbatim "ÿaz" ⟨.new 3, ⟨[0], by decide⟩⟩
  obtain ⟨hrefused, -⟩ := string_constants_are_written_verbatim "a→b" ⟨.new 3, ⟨[0], by decide⟩⟩
  obtain ⟨f', hf'⟩ := exists_eq_ok_of_run' (x := putStringConstant "ÿaz")
    (s := ⟨.new 3, ⟨[0], by decide⟩⟩) (a := ()) (by decide +kernel)
  exact ⟨_, f', rfl, hf', hwrites f' hf', (hrefused '→' _).2 ⟨by decide +kernel, rfl⟩⟩

end Frame

end TapeToolchain
