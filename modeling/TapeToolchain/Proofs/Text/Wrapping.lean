import TapeToolchain.Proofs.Source.Listing
import Mathlib.Data.Rat.Floor

/-!
A listing in lines. The line with index `i` takes the code from `i` line lengths on, so it is full
if another line follows it, and the last one takes the rest, of which something is left. The lines
are the code cut in pieces, and taking the line feeds out of the shown text gives the code back
(`Listing.wrapping_loses_nothing`).
-/

namespace TapeToolchain

theorem length_codeText (code : Array Instruction) : (codeText code).length = code.size := by
  rw [← String.length_toList, codeText_toList, List.length_map, Array.length_toList]

theorem newline_notMem_codeText (code : Array Instruction) : '\n' ∉ (codeText code).toList := by
  rw [codeText_toList]
  intro hmem
  obtain ⟨i, -, hi⟩ := List.mem_map.1 hmem
  cases i <;> exact absurd hi (by decide)

namespace Listing

variable (l : Listing)

/-- Every line starts inside of the code. -/
theorem mul_lt_size {i : Nat} (h : i < l.lineCount) : i * l.lineLength < l.code.size := by
  have hlt := (Nat.lt_div_iff_mul_lt l.lineLength_pos).1 h
  rwa [Nat.add_sub_cancel] at hlt

theorem length_line (i : Nat) :
    (codeText (l.line i)).length = min l.lineLength (l.code.size - i * l.lineLength) := by
  rw [length_codeText, ← Array.length_toList, line_toList, List.length_take, List.length_drop,
    Array.length_toList]

/-- A line is full if another one follows it. -/
theorem length_line_of_lt {i : Nat} (h : i + 1 < l.lineCount) :
    (codeText (l.line i)).length = l.lineLength := by
  have hnext := l.mul_lt_size h
  rw [Nat.succ_mul] at hnext
  rw [length_line]
  omega

theorem length_line_pos {i : Nat} (h : i < l.lineCount) : 0 < (codeText (l.line i)).length := by
  have hstart := l.mul_lt_size h
  have hpos := l.lineLength_pos
  rw [length_line]
  omega

theorem length_lines : l.lines.length = l.lineCount := by
  simp [lines]

/-- The lines before the last one, and the last one. -/
theorem lines_eq_concat {k : Nat} (h : l.lineCount = k + 1) :
    l.lines = (List.range k).map (fun i => codeText (l.line i)) ++ [codeText (l.line k)] := by
  rw [lines, h, List.range_succ, List.map_append, List.map_singleton]

theorem length_of_mem_dropLast {line : String} (h : line ∈ l.lines.dropLast) :
    line.length = l.lineLength := by
  cases hcount : l.lineCount with
  | zero =>
    rw [lines, hcount] at h
    simp at h
  | succ k =>
    rw [l.lines_eq_concat hcount, List.dropLast_concat] at h
    obtain ⟨i, hi, rfl⟩ := List.mem_map.1 h
    have hlt := List.mem_range.1 hi
    exact l.length_line_of_lt (by omega)

theorem length_of_getLast? {line : String} (h : l.lines.getLast? = some line) :
    0 < line.length ∧ line.length ≤ l.lineLength := by
  cases hcount : l.lineCount with
  | zero =>
    rw [lines, hcount] at h
    simp at h
  | succ k =>
    rw [l.lines_eq_concat hcount, List.getLast?_concat] at h
    obtain rfl := Option.some.inj h
    refine ⟨l.length_line_pos (by omega), ?_⟩
    rw [length_line]
    exact Nat.min_le_left ..

/-- The number of lines is the code's length over the length of a line, rounded up. -/
theorem lineCount_eq_ceil : l.lineCount = ⌈(l.code.size : ℚ) / l.lineLength⌉₊ := by
  have hpos : (0 : ℚ) < l.lineLength := by exact_mod_cast l.lineLength_pos
  apply Nat.le_antisymm
  · cases hcount : l.lineCount with
    | zero => exact Nat.zero_le _
    | succ k =>
      have hstart := l.mul_lt_size (i := k) (by omega)
      apply Nat.lt_ceil.2
      rw [lt_div_iff₀ hpos]
      exact_mod_cast hstart
  · apply Nat.ceil_le.2
    rw [div_le_iff₀ hpos]
    exact_mod_cast l.size_le_lineCount_mul

theorem join_lines : String.join l.lines = l.text := by
  apply String.ext
  calc (String.join l.lines).toList
      = (List.range l.lineCount).flatMap fun i => (codeText (l.line i)).toList := by
        rw [String.toList_join, lines, List.flatMap_map]
    _ = ((List.range l.lineCount).flatMap fun i => (l.line i).toList).map Instruction.toChar := by
        simp only [codeText_toList, List.map_flatMap]
    _ = l.text.toList := by rw [flatMap_line, text, codeText_toList]

theorem newline_notMem_lines {line : String} (h : line ∈ l.lines) : '\n' ∉ line.toList := by
  obtain ⟨i, -, rfl⟩ := List.mem_map.1 h
  exact newline_notMem_codeText _

/-- Without its line feeds, the shown text is the code. -/
theorem filter_render : l.render.toList.filter (· ≠ '\n') = l.text.toList := by
  have hline : ∀ line ∈ l.lines, (line.toList ++ ['\n']).filter (· ≠ '\n') = line.toList := by
    intro line hmem
    rw [List.filter_append, List.filter_eq_self.2]
    · simp
    · intro c hc
      have hne : c ≠ '\n' := fun heq => l.newline_notMem_lines hmem (heq ▸ hc)
      simpa using hne
  calc l.render.toList.filter (· ≠ '\n')
      = l.lines.flatMap fun line => (line.toList ++ ['\n']).filter (· ≠ '\n') := by
        rw [render, String.toList_join, List.flatMap_map, List.filter_flatMap]
        simp
    _ = l.lines.flatMap String.toList := List.flatMap_congr hline
    _ = l.text.toList := by rw [← String.toList_join, join_lines]

/-- **Wrapping loses nothing.** At every width, the lines of a listing, put together, are its code.
All lines but the last have as many characters as the width says, or one if it is zero, and the last
one has at least one and not more than that. So there are as many lines as the length of the code
over the length of a line, rounded up. Shown are these lines, none of which has a line feed of its
own, each with one line feed after it; without the line feeds, this is the code again. -/
theorem wrapping_loses_nothing (l : Listing) :
    String.join l.lines = l.text ∧
    (∀ line ∈ l.lines.dropLast, line.length = max 1 l.lineWidth) ∧
    (∀ line ∈ l.lines.getLast?, line ≠ "" ∧ line.length ≤ max 1 l.lineWidth) ∧
    l.lines.length = ⌈(l.text.length : ℚ) / (max 1 l.lineWidth : ℕ)⌉₊ ∧
    l.render.toList = l.lines.flatMap (fun line => line.toList ++ ['\n']) ∧
    (∀ line ∈ l.lines, '\n' ∉ line.toList) ∧
    String.ofList (l.render.toList.filter (· ≠ '\n')) = l.text := by
  refine ⟨l.join_lines, fun line hline => l.length_of_mem_dropLast hline, fun line hline => ?_, ?_,
    ?_, fun line hline => l.newline_notMem_lines hline, ?_⟩
  · obtain ⟨hpos, hle⟩ := l.length_of_getLast? hline
    refine ⟨?_, hle⟩
    rintro rfl
    exact absurd hpos (by decide)
  · rw [text, length_codeText, length_lines]
    exact l.lineCount_eq_ceil
  · rw [render, String.toList_join, List.flatMap_map]
    simp
  · rw [filter_render, String.ofList_toList]

/-- Five instructions in lines of two, in lines of one at width zero, and in one line at the
greatest width of a machine word. -/
theorem wrapping_loses_nothing_widths :
    let code : Array Instruction := #[.increment, .loopBegin, .decrement, .loopEnd, .write]
    (Listing.mk code 2).lines = ["+[", "-]", "."] ∧ (Listing.mk code 2).render = "+[\n-]\n.\n" ∧
    (Listing.mk code 0).lines = ["+", "[", "-", "]", "."] ∧
    (Listing.mk code (2 ^ 64 - 1)).lines = ["+[-]."] ∧
    (∀ width, String.join (Listing.mk code width).lines = "+[-].") ∧
    ∀ width, String.ofList ((Listing.mk code width).render.toList.filter (· ≠ '\n')) = "+[-]." := by
  have htext : codeText #[.increment, .loopBegin, .decrement, .loopEnd, .write] = "+[-]." := by
    decide +kernel
  refine ⟨by decide +kernel, by decide +kernel, by decide +kernel, by decide +kernel,
    fun width => ?_, fun width => ?_⟩
  · obtain ⟨hjoin, -⟩ :=
      wrapping_loses_nothing ⟨#[.increment, .loopBegin, .decrement, .loopEnd, .write], width⟩
    exact hjoin.trans htext
  · obtain ⟨-, -, -, -, -, -, hback⟩ := wrapping_loses_nothing
      ⟨#[.increment, .loopBegin, .decrement, .loopEnd, .write], width⟩
    exact hback.trans htext

end Listing

end TapeToolchain
