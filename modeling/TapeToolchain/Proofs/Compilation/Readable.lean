import TapeToolchain.Proofs.Compilation.OnTape
import TapeToolchain.Proofs.Evaluation.Nesting
import TapeToolchain.Proofs.Source.Listing
import Mathlib.Data.List.Count

/-!
Compiled code as a source text. The emitter and the reader of programs keep track of loops each in
its own way, the one by offsets and the other by labels. What the one accepts, the other does: the
text of compiled code, in one line or in lines of any width, is read back as the code.
-/

namespace TapeToolchain

theorem Instruction.toChar_injective : Function.Injective Instruction.toChar := by
  intro i j h
  have hread := congrArg ofChar? h
  rwa [ofChar?_toChar, ofChar?_toChar, Option.some.injEq] at hread

/-- Whatever the macros of the table consist of, the loops of compiled code are balanced. -/
theorem balanced_of_compile {o : Options} {t : MacroTable} {entry : String} {l : Listing}
    (h : compile o t entry = .ok l) : Balanced l.code.toList := by
  obtain ⟨body, final, -, hrun, hfinish⟩ := compile_eq_ok.1 h
  obtain ⟨-, hclosed, rfl⟩ := finish_eq_ok hfinish
  obtain ⟨written, hcode, hnesting⟩ := Evaluator.nests_run hrun
  rw [hclosed] at hnesting
  show Balanced final.frame.emitter.code.toList
  rw [hcode]
  exact hnesting

namespace Listing

theorem text_toList (l : Listing) : l.text.toList = l.code.toList.map Instruction.toChar :=
  codeText_toList l.code

theorem count_text (l : Listing) (i : Instruction) :
    l.text.toList.count i.toChar = l.code.toList.count i := by
  rw [text_toList, List.count_map_of_injective _ _ Instruction.toChar_injective]

/-- No part at the start of the text of balanced code has more closing than opening brackets. -/
theorem count_le_of_prefix_text {l : Listing} (h : Balanced l.code.toList) {start : List Char}
    (hs : start <+: l.text.toList) : start.count ']' ≤ start.count '[' := by
  rw [text_toList] at hs
  obtain ⟨code, hcode, rfl⟩ := List.prefix_map_iff.1 hs
  have hcount : ∀ i : Instruction, (code.map Instruction.toChar).count i.toChar = code.count i :=
    fun i => List.count_map_of_injective _ _ Instruction.toChar_injective i
  have hle := h.count_le_of_prefix hcode
  rw [← hcount, ← hcount] at hle
  exact hle

/-- A text that writes balanced code is read back as that code. -/
theorem program_of_instructions {l : Listing} (h : Balanced l.code.toList) {s : Source}
    (hs : s.instructions = l.code.toList) :
    ∃ p, s.program = .ok p ∧ p.loops = l.text.toList.count '[' ∧
      String.ofList (p.instructions.map Instruction.toChar) = l.text := by
  obtain ⟨p, hp, hinstructions, hloops⟩ := s.program_of_balanced (hs ▸ h)
  refine ⟨p, hp, ?_, ?_⟩
  · rw [hloops, hs]
    exact (l.count_text .loopBegin).symm
  · rw [hinstructions, hs]
    rfl

end Listing

/-- **Compiled code is accepted as a program.** Take any table of macros, whatever terms their
bodies consist of, and any options. If the entry compiles, its text consists of the characters of
instructions, no part at its start has more closing than opening brackets, and the whole has as many
of the one as of the other. Under any name, the text in one line and the text in lines of the given
width are read without an error; the program has as many loops as the text has opening brackets, and
its commands, written out, are the text. -/
theorem compiled_text_is_read_back (o : Options) (t : MacroTable) (entry : String) (l : Listing)
    (h : compile o t entry = .ok l) :
    (∀ c ∈ l.text.toList, c ∈ ['<', '>', '+', '-', '[', ']', ',', '.']) ∧
      (∀ start, start <+: l.text.toList → start.count ']' ≤ start.count '[') ∧
      l.text.toList.count ']' = l.text.toList.count '[' ∧
      ∀ name, ∀ text ∈ [l.text, l.render], ∃ p, Source.program ⟨name, text⟩ = .ok p ∧
        p.loops = l.text.toList.count '[' ∧
        String.ofList (p.instructions.map Instruction.toChar) = l.text := by
  have hbalanced := balanced_of_compile h
  refine ⟨?_, fun start hs => Listing.count_le_of_prefix_text hbalanced hs, ?_, ?_⟩
  · intro c hc
    rw [Listing.text_toList] at hc
    obtain ⟨i, -, rfl⟩ := List.mem_map.1 hc
    cases i <;> decide
  · have hcount := count_of_nesting hbalanced
    rw [Nat.zero_add, Nat.zero_add] at hcount
    exact (l.count_text .loopEnd).trans (hcount.symm.trans (l.count_text .loopBegin).symm)
  · intro name text htext
    rcases List.mem_cons.1 htext with rfl | htext
    · exact Listing.program_of_instructions hbalanced (l.text_instructions name)
    · rw [List.mem_singleton.1 htext]
      exact Listing.program_of_instructions hbalanced (l.render_instructions name)

/-- A macro of bare primitives, with a loop that is begun and ended by hand, in lines of two
characters. -/
theorem compiled_text_is_read_back_bare :
    ∃ l, compile { lineWidth := 2 }
        ⟨[⟨"main", [],
          [.compound .envBegin [], .compound .envDeclare [.literal (.name (.visible "x"))],
            .compound .envSet [.literal (.name (.visible "x")), .compound .allocateLocal []],
          Statement.invoke .constantAdd [.int 3, "x"], Statement.invoke .beginLoop ["x"],
          Statement.invoke .constantSub [.int 1, "x"], Statement.invoke .endLoop ["x"],
          .compound .envEnd []]⟩]⟩ "main" = .ok l ∧
      l.text = "+++[-]" ∧ l.render = "++\n+[\n-]\n" ∧
      ∃ p, Source.program ⟨"main", "++\n+[\n-]\n"⟩ = .ok p ∧ p.loops = 1 ∧
        String.ofList (p.instructions.map Instruction.toChar) = "+++[-]" := by
  have h : compile { lineWidth := 2 }
      ⟨[⟨"main", [],
        [.compound .envBegin [], .compound .envDeclare [.literal (.name (.visible "x"))],
          .compound .envSet [.literal (.name (.visible "x")), .compound .allocateLocal []],
        Statement.invoke .constantAdd [.int 3, "x"], Statement.invoke .beginLoop ["x"],
        Statement.invoke .constantSub [.int 1, "x"], Statement.invoke .endLoop ["x"],
        .compound .envEnd []]⟩]⟩ "main" =
      .ok ⟨#[.increment, .increment, .increment, .loopBegin, .decrement, .loopEnd], 2⟩ := by
    decide +kernel
  obtain ⟨-, -, -, hread⟩ := compiled_text_is_read_back _ _ _ _ h
  exact ⟨_, h, by decide +kernel, by decide +kernel,
    hread "main" "++\n+[\n-]\n" (by decide +kernel)⟩

end TapeToolchain
