import TapeToolchain.Listing
import TapeToolchain.Proofs.Preliminaries
import TapeToolchain.Proofs.Source.Reading

/-!
A listing as a source text. Its lines, put together, are its code: each line starts where the one
before it ends, and the last one reaches the end. So the text in one line and the text in lines of
any width write the same instructions.
-/

namespace TapeToolchain

theorem codeText_toList (code : Array Instruction) :
    (codeText code).toList = code.toList.map Instruction.toChar := by
  rw [codeText, String.toList_ofList]

/-- The text of a piece of code writes that code. -/
theorem filterMap_codeText (code : Array Instruction) :
    (codeText code).toList.filterMap Instruction.ofChar? = code.toList := by
  rw [codeText_toList, List.filterMap_map]
  have hread : Instruction.ofChar? ∘ Instruction.toChar = some := funext Instruction.ofChar?_toChar
  rw [hread, List.filterMap_some]

namespace Listing

theorem lineLength_pos (l : Listing) : 0 < l.lineLength :=
  Nat.lt_of_lt_of_le Nat.one_pos (Nat.le_max_left ..)

theorem size_le_lineCount_mul (l : Listing) : l.code.size ≤ l.lineCount * l.lineLength := by
  have hpos := l.lineLength_pos
  have hlt := Nat.lt_mul_div_succ (l.code.size + (l.lineLength - 1)) hpos
  rw [Nat.mul_add, Nat.mul_one, Nat.mul_comm] at hlt
  rw [lineCount]
  omega

theorem line_toList (l : Listing) (i : Nat) :
    (l.line i).toList = (l.code.toList.drop (i * l.lineLength)).take l.lineLength := by
  rw [line, Array.toList_extract, List.extract_eq_take_drop, Nat.add_sub_cancel_left]

/-- The lines of a listing are its code. -/
theorem flatMap_line (l : Listing) :
    (List.range l.lineCount).flatMap (fun i => (l.line i).toList) = l.code.toList := by
  simp only [line_toList]
  rw [List.flatMap_pieces]
  exact List.take_of_length_le l.size_le_lineCount_mul

theorem render_toList (l : Listing) :
    l.render.toList =
      (List.range l.lineCount).flatMap fun i => (codeText (l.line i)).toList ++ ['\n'] := by
  rw [render, lines, List.map_map, String.toList_join, List.flatMap_map]
  simp

/-! ## The instructions that are read back -/

theorem text_instructions (l : Listing) (name : String) :
    Source.instructions ⟨name, l.text⟩ = l.code.toList :=
  filterMap_codeText l.code

/-- A line feed is a comment, so the width of the lines does not matter. -/
theorem render_instructions (l : Listing) (name : String) :
    Source.instructions ⟨name, l.render⟩ = l.code.toList := by
  have hline : ∀ i, ((codeText (l.line i)).toList ++ ['\n']).filterMap Instruction.ofChar? =
      (l.line i).toList := by
    intro i
    rw [List.filterMap_append, filterMap_codeText]
    exact List.append_nil _
  rw [Source.instructions, render_toList, List.filterMap_flatMap]
  simp only [hline]
  exact l.flatMap_line

end Listing

end TapeToolchain
