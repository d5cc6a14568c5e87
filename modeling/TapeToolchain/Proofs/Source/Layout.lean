import TapeToolchain.Proofs.Source.Matching
import TapeToolchain.Proofs.Source.Pieces
import Mathlib.Algebra.Group.Nat.Defs

/-!
Where the commands of a program stand in its text, and how their labels pair the brackets
(`Program.Describes`). Both are followed along the reading, one character at a time
(`Reading.of_text`): the commands that have been read lie behind each other in the text (`LaidOut`),
and the loops that are open are the open brackets of the text (`Matches`).
-/

namespace TapeToolchain

/-- The characters stand in the text, and the span is their place. -/
def Span.Locates (span : Span) (text chars : List Char) : Prop :=
  ∃ before after, text = before ++ chars ++ after ∧ span.start = Position.start.afterAll before ∧
    span.stop = Position.start.afterAll (before ++ chars)

def Command.chars (c : Command) : List Char :=
  c.instructions.map Instruction.toChar

/-- The label of a loop that the command starts. -/
def Command.beginLabel? : Command → Option Nat
  | beginLoop label => some label
  | _ => none

/-- The commands are not two runs of one kind that touch each other. -/
def PlacedCommand.Apart (first second : PlacedCommand) : Prop :=
  ∀ kind m n, first.command = .run kind m → second.command = .run kind n →
    first.span.stop.offset ≠ second.span.start.offset

/-- The commands of a program are what stands in a text, all of it and in its order, runs being as
long as possible. Loops are numbered by their starts, and the end of a loop has the number of its
partner. -/
structure Program.Describes (p : Program) (text : List Char) : Prop where
  instructions : p.instructions = text.filterMap Instruction.ofChar?
  placed : ∀ c ∈ p.commands, c.command.instructions ≠ [] ∧ c.span.Locates text c.command.chars
  ordered : p.commands.Pairwise fun c d => c.span.stop.offset ≤ d.span.start.offset
  maximal : p.commands.IsChain PlacedCommand.Apart
  labels : p.commands.filterMap (·.command.beginLabel?) = List.range p.loops
  matched : ∀ label span, ⟨.endLoop label, span⟩ ∈ p.commands →
    ∃ first, ⟨.beginLoop label, first⟩ ∈ p.commands ∧
    ∀ i, Partners text i span.start.offset ↔ i = first.start.offset

/-! ## Places -/

theorem Position.after_toChar (pos : Position) (i : Instruction) :
    pos.after i.toChar = pos.advance := by
  cases i <;> rfl

theorem Position.afterAll_append (pos : Position) (a b : List Char) :
    pos.afterAll (a ++ b) = (pos.afterAll a).afterAll b :=
  List.foldl_append

theorem Position.offset_start_afterAll (text : List Char) :
    (start.afterAll text).offset = text.length := by
  rw [Reading.offset_afterAll]
  exact Nat.zero_add _

namespace Span.Locates

variable {span : Span} {text chars : List Char}

theorem append_right (h : span.Locates text chars) (more : List Char) :
    span.Locates (text ++ more) chars := by
  obtain ⟨before, after, rfl, hstart, hstop⟩ := h
  exact ⟨before, after ++ more, by simp, hstart, hstop⟩

theorem offsets (h : span.Locates text chars) :
    span.stop.offset = span.start.offset + chars.length ∧ span.stop.offset ≤ text.length := by
  obtain ⟨before, after, rfl, hstart, hstop⟩ := h
  rw [hstart, hstop, Position.offset_start_afterAll, Position.offset_start_afterAll]
  exact ⟨List.length_append, (List.prefix_append _ after).length_le⟩

theorem single (text : List Char) (i : Instruction) :
    (Span.single (Position.start.afterAll text)).Locates (text ++ [i.toChar]) [i.toChar] := by
  refine ⟨text, [], (List.append_nil _).symm, rfl, ?_⟩
  rw [Position.afterAll_append]
  exact (Position.after_toChar _ i).symm

/-- Characters at the end of the text are located together with the next one. -/
theorem join (h : span.Locates text chars) (hend : span.stop.offset = text.length)
    (i : Instruction) :
    (span.join (.single (Position.start.afterAll text))).Locates (text ++ [i.toChar])
      (chars ++ [i.toChar]) := by
  obtain ⟨before, after, htext, hstart, hstop⟩ := h
  obtain rfl : after = [] := by
    rw [hstop, Position.offset_start_afterAll] at hend
    have hlength := congrArg List.length htext
    rw [List.length_append, ← hend] at hlength
    exact List.length_eq_zero_iff.1 (by omega)
  rw [List.append_nil] at htext
  refine ⟨before, [], by simp [htext], hstart, ?_⟩
  rw [← List.append_assoc, ← htext, Position.afterAll_append]
  exact (Position.after_toChar _ i).symm

end Span.Locates

/-! ## Reading character by character -/

namespace Reading

/-- What holds at the start, is not changed by comments and is kept by every instruction holds of
the reading of every text. -/
theorem of_text {P : List Char → Reading → Prop} (hstart : P [] .start)
    (hskip : ∀ text r c, P text r → Instruction.ofChar? c = none → P (text ++ [c]) r)
    (hstep : ∀ text r (i : Instruction), P text r →
      P (text ++ [i.toChar]) (r.step ⟨i, .single (Position.start.afterAll text)⟩))
    (text : List Char) : P text ((tokensFrom .start text).foldl step .start) := by
  -- the text that has been read is carried along, since places count from the start of the text
  have hrest : ∀ rest before r, P before r →
      P (before ++ rest) ((tokensFrom (Position.start.afterAll before) rest).foldl step r) := by
    intro rest
    induction rest with
    | nil =>
      intro before r h
      rw [List.append_nil]
      exact h
    | cons c rest ih =>
      intro before r h
      have hpos : (Position.start.afterAll before).after c =
          Position.start.afterAll (before ++ [c]) :=
        (Position.afterAll_append _ before [c]).symm
      rw [List.append_cons, tokensFrom, hpos, List.foldl_append]
      apply ih
      cases hc : Instruction.ofChar? c with
      | none => exact hskip before r c h hc
      | some i =>
        rw [Instruction.eq_toChar hc]
        exact hstep before r i h
  exact hrest text [] .start hstart

end Reading

/-! ## The places of commands -/

/-- Commands, the last one first, lie behind each other in the text, and none could have been
counted with the one before it. -/
structure LaidOut (text : List Char) (commands : List PlacedCommand) : Prop where
  placed : ∀ c ∈ commands, c.command.instructions ≠ [] ∧ c.span.Locates text c.command.chars
  ordered : commands.Pairwise fun d c => c.span.stop.offset ≤ d.span.start.offset
  maximal : commands.IsChain fun d c => c.Apart d

namespace LaidOut

variable {text : List Char} {commands : List PlacedCommand}

theorem append_right (h : LaidOut text commands) (more : List Char) :
    LaidOut (text ++ more) commands where
  placed c hc := ⟨(h.placed c hc).1, (h.placed c hc).2.append_right more⟩
  ordered := h.ordered
  maximal := h.maximal

theorem push (h : LaidOut text commands) {command : Command} {i : Instruction}
    (hi : command.instructions = [i])
    (hlast : ∀ c ∈ commands.head?, c.Apart ⟨command, .single (Position.start.afterAll text)⟩) :
    LaidOut (text ++ [i.toChar])
      (⟨command, .single (Position.start.afterAll text)⟩ :: commands) where
  placed c hc := by
    rcases List.mem_cons.1 hc with rfl | hc
    · refine ⟨by simp [hi], ?_⟩
      rw [Command.chars, hi]
      exact .single text i
    · exact (h.append_right _).placed c hc
  ordered := by
    refine List.pairwise_cons.2 ⟨fun c hc => ?_, h.ordered⟩
    show c.span.stop.offset ≤ (Position.start.afterAll text).offset
    rw [Position.offset_start_afterAll]
    exact (h.placed c hc).2.offsets.2
  maximal := List.isChain_cons.2 ⟨hlast, h.maximal⟩

/-- The last run takes in an instruction that touches it. -/
theorem grow {kind : Repeatable} {count : Nat} {span : Span} {earlier : List PlacedCommand}
    (h : LaidOut text (⟨.run kind count, span⟩ :: earlier))
    (htouch : span.stop.offset = text.length) :
    LaidOut (text ++ [kind.instruction.toChar])
      (⟨.run kind (count + 1), span.join (.single (Position.start.afterAll text))⟩ :: earlier) where
  placed c hc := by
    rcases List.mem_cons.1 hc with rfl | hc
    · have hchars : (Command.run kind (count + 1)).chars = (Command.run kind count).chars ++
          [kind.instruction.toChar] := by
        simp [Command.chars, Command.instructions, List.replicate_succ']
      refine ⟨by simp [Command.instructions], ?_⟩
      rw [hchars]
      exact (h.placed _ List.mem_cons_self).2.join htouch kind.instruction
    · exact (h.append_right _).placed c (List.mem_cons_of_mem _ hc)
  ordered := List.pairwise_cons.2 (List.pairwise_cons.1 h.ordered)
  maximal := by
    obtain ⟨hlast, hrest⟩ := List.isChain_cons.1 h.maximal
    refine List.isChain_cons.2 ⟨fun c hc kind' m n hc' hrun => ?_, hrest⟩
    cases hrun
    exact hlast c hc kind m count hc' rfl

theorem pushRepeatable {r : Reading} (h : LaidOut text r.commands) (kind : Repeatable) :
    LaidOut (text ++ [kind.instruction.toChar])
      (r.pushRepeatable kind (.single (Position.start.afterAll text))).commands := by
  have hoffset : (Span.single (Position.start.afterAll text)).start.offset = text.length :=
    Position.offset_start_afterAll text
  unfold Reading.pushRepeatable
  split
  · next last count before earlier hcommands =>
    split
    · next hsame =>
      -- a run that ends where the text ends is the one before the new instruction
      obtain ⟨rfl, htouch⟩ := hsame
      rw [hcommands] at h
      exact h.grow (htouch.trans hoffset)
    · next hdiffer =>
      refine h.push rfl fun c hc kind' m n hc' hrun htouch => hdiffer ?_
      rw [hcommands] at hc
      cases hc
      cases hc'
      cases hrun
      exact ⟨rfl, htouch⟩
  · next hnone =>
    refine h.push rfl fun c hc kind' m n hc' _ _ => ?_
    obtain ⟨command, span⟩ := c
    cases hc'
    exact hnone _ _ _ _ (List.cons_head?_tail hc).symm

/-- One more instruction is laid out. -/
theorem step {r : Reading} (h : LaidOut text r.commands) (i : Instruction) :
    LaidOut (text ++ [i.toChar]) (r.step ⟨i, .single (Position.start.afterAll text)⟩).commands := by
  cases i with
  | right => exact h.pushRepeatable .right
  | left => exact h.pushRepeatable .left
  | increment => exact h.pushRepeatable .increment
  | decrement => exact h.pushRepeatable .decrement
  | read | write | loopBegin => exact h.push rfl fun c _ kind m n _ hrun => by cases hrun
  | loopEnd =>
    cases hopened : r.opened with
    | nil =>
      -- a bracket that closes nothing is passed over like a comment
      simp only [Reading.step, hopened]
      exact h.append_right _
    | cons first opened =>
      simp only [Reading.step, hopened]
      exact h.push rfl fun c _ kind m n _ hrun => by cases hrun

end LaidOut

/-! ## The pairing of brackets -/

/-- The command starts or ends a loop. -/
def Command.isBracket : Command → Bool
  | beginLoop _ | endLoop _ => true
  | _ => false

/-- With the end of a loop, its start is among the commands, at the place of the partner. -/
def Paired (text : List Char) (commands : List PlacedCommand) : Prop :=
  ∀ label span, ⟨.endLoop label, span⟩ ∈ commands → ∃ first, ⟨.beginLoop label, first⟩ ∈ commands ∧
    Partners text first.start.offset span.start.offset

namespace Paired

variable {text : List Char} {commands : List PlacedCommand}

theorem append_right (h : Paired text commands) (more : List Char) :
    Paired (text ++ more) commands := by
  intro label span hend
  obtain ⟨first, hfirst, hpartners⟩ := h label span hend
  exact ⟨first, hfirst, hpartners.append_right more⟩

theorem push (h : Paired text commands) {c : PlacedCommand}
    (hc : ∀ label, c.command = .endLoop label → ∃ first, ⟨.beginLoop label, first⟩ ∈ commands ∧
      Partners text first.start.offset c.span.start.offset) : Paired text (c :: commands) := by
  intro label span hend
  have hfound : ∃ first, ⟨.beginLoop label, first⟩ ∈ commands ∧
      Partners text first.start.offset span.start.offset := by
    rcases List.mem_cons.1 hend with rfl | hend
    · exact hc label rfl
    · exact h label span hend
  obtain ⟨first, hfirst, hpartners⟩ := hfound
  exact ⟨first, List.mem_cons_of_mem _ hfirst, hpartners⟩

end Paired

namespace Reading

/-- The commands for brackets that have been read, the last one first. -/
def brackets (r : Reading) : List PlacedCommand :=
  r.commands.filter (·.command.isBracket)

theorem mem_brackets {r : Reading} {c : PlacedCommand} (hc : c.command.isBracket = true) :
    c ∈ r.brackets ↔ c ∈ r.commands.reverse := by
  simp [brackets, hc]

theorem beginLabels_brackets (r : Reading) :
    r.brackets.reverse.filterMap (·.command.beginLabel?) =
      r.commands.reverse.filterMap (·.command.beginLabel?) := by
  rw [brackets, ← List.filter_reverse, List.filterMap_filter]
  congr 1
  funext c
  cases c.command <;> rfl

theorem brackets_pushRepeatable (r : Reading) (kind : Repeatable) (span : Span) :
    (r.pushRepeatable kind span).brackets = r.brackets := by
  unfold pushRepeatable
  split
  · next hcommands =>
    split
    · simp [brackets, hcommands, Command.isBracket]
    · simp [brackets, push, Command.isBracket]
  · simp [brackets, push, Command.isBracket]

/-- The loops that have been read are numbered in their order, those that are closed are pairs of
partners, and those that are open, like the closing brackets without a loop, are what is unpaired in
the text. -/
structure Matches (text : List Char) (r : Reading) : Prop where
  labels : r.brackets.reverse.filterMap (·.command.beginLabel?) = List.range r.nextLabel
  opened : ∀ label span, (label, span) ∈ r.opened → ⟨.beginLoop label, span⟩ ∈ r.brackets
  matched : Paired text r.brackets
  unpaired : Unpaired text (r.opened.map (·.2.start.offset)) (r.unmatched.map (·.start.offset))

namespace Matches

variable {text : List Char} {r : Reading}

theorem of_same {r' : Reading} {c : Char} (h : Matches text r) (hopen : c ≠ '[') (hclose : c ≠ ']')
    (hbrackets : r'.brackets = r.brackets) (hopened : r'.opened = r.opened)
    (hunmatched : r'.unmatched = r.unmatched) (hlabel : r'.nextLabel = r.nextLabel) :
    Matches (text ++ [c]) r' where
  labels := by rw [hbrackets, hlabel, h.labels]
  opened := by rw [hbrackets, hopened]; exact h.opened
  matched := by rw [hbrackets]; exact h.matched.append_right [c]
  unpaired := by rw [hopened, hunmatched]; exact h.unpaired.append (.single hopen hclose)

theorem pushRepeatable (h : Matches text r) (kind : Repeatable) (span : Span) :
    Matches (text ++ [kind.instruction.toChar]) (r.pushRepeatable kind span) := by
  obtain ⟨hopened, hunmatched, hlabel⟩ := r.pushRepeatable_brackets kind span
  refine h.of_same ?_ ?_ (r.brackets_pushRepeatable kind span) hopened hunmatched hlabel
  · cases kind <;> decide
  · cases kind <;> decide

theorem beginLoop (h : Matches text r) :
    Matches (text ++ ['[']) (r.step ⟨.loopBegin, .single (Position.start.afterAll text)⟩) := by
  have hbrackets : (r.step ⟨.loopBegin, .single (Position.start.afterAll text)⟩).brackets =
      ⟨.beginLoop r.nextLabel, .single (Position.start.afterAll text)⟩ :: r.brackets := rfl
  refine ⟨?_, ?_, ?_, ?_⟩
  · rw [hbrackets, List.reverse_cons, List.filterMap_append, h.labels]
    exact List.range_succ.symm
  · intro label span ho
    rw [hbrackets]
    rcases List.mem_cons.1 ho with heq | ho
    · cases heq
      exact List.mem_cons_self
    · exact List.mem_cons_of_mem _ (h.opened label span ho)
  · rw [hbrackets]
    apply (h.matched.append_right ['[']).push
    intro label hend
    cases hend
  · have hopening := Unpaired.opening h.unpaired .nil
    rw [← Position.offset_start_afterAll text] at hopening
    exact hopening

theorem endLoop (h : Matches text r) :
    Matches (text ++ [']']) (r.step ⟨.loopEnd, .single (Position.start.afterAll text)⟩) := by
  have hunpaired := h.unpaired
  have hmatched := h.matched.append_right [']']
  cases hopened : r.opened with
  | nil =>
    rw [hopened] at hunpaired
    have hclosing := Unpaired.closing hunpaired .nil
    rw [← Position.offset_start_afterAll text] at hclosing
    simp only [step, hopened]
    refine ⟨h.labels, ?_, hmatched, hclosing⟩
    intro label span ho
    cases ho
  | cons last opened =>
    obtain ⟨label, first⟩ := last
    -- the last loop that the reading holds open is the last open bracket of the text
    rw [hopened] at hunpaired
    obtain ⟨hrest, hpartners⟩ := hunpaired.close
    have hfirst : ⟨.beginLoop label, first⟩ ∈ r.brackets :=
      h.opened label first (hopened ▸ List.mem_cons_self)
    simp only [step, hopened]
    refine ⟨?_, ?_, ?_, hrest⟩
    · show (⟨.endLoop label, _⟩ :: r.brackets).reverse.filterMap (·.command.beginLabel?) = _
      rw [List.reverse_cons, List.filterMap_append, h.labels]
      exact List.append_nil _
    · intro label' span ho
      exact List.mem_cons_of_mem _ (h.opened label' span (hopened ▸ List.mem_cons_of_mem _ ho))
    · apply hmatched.push
      intro label' hend
      cases hend
      refine ⟨first, hfirst, ?_⟩
      show Partners _ _ (Position.start.afterAll text).offset
      rw [Position.offset_start_afterAll]
      exact hpartners

/-- One more instruction is matched. -/
theorem step (h : Matches text r) (i : Instruction) :
    Matches (text ++ [i.toChar]) (r.step ⟨i, .single (Position.start.afterAll text)⟩) := by
  cases i with
  | right => exact h.pushRepeatable .right _
  | left => exact h.pushRepeatable .left _
  | increment => exact h.pushRepeatable .increment _
  | decrement => exact h.pushRepeatable .decrement _
  | read | write => exact h.of_same (by decide) (by decide) rfl rfl rfl rfl
  | loopBegin => exact h.beginLoop
  | loopEnd => exact h.endLoop

end Matches

theorem laidOut (text : List Char) :
    LaidOut text ((tokensFrom .start text).foldl step .start).commands := by
  refine of_text (P := fun text r => LaidOut text r.commands) ⟨nofun, .nil, .nil⟩ ?_ ?_ text
  · intro text r c h _
    exact h.append_right [c]
  · intro text r i h
    exact h.step i

theorem matches_text (text : List Char) :
    Matches text ((tokensFrom .start text).foldl step .start) := by
  refine of_text ⟨rfl, nofun, nofun, .none .nil⟩ ?_ ?_ text
  · intro text r c h hc
    refine h.of_same ?_ ?_ rfl rfl rfl rfl
    · intro hopen
      rw [hopen] at hc
      cases hc
    · intro hclose
      rw [hclose] at hc
      cases hc
  · intro text r i h
    exact h.step i

end Reading

theorem Source.balanced_of_program {s : Source} {p : Program} (h : s.program = .ok p) :
    BracketsBalanced s.text.toList := by
  have hunpaired := (Reading.matches_text s.text.toList).unpaired
  obtain ⟨hunmatched, hopened, -⟩ := Reading.finish_eq_ok.1 h
  rw [← s.tokens_eq, hunmatched, hopened] at hunpaired
  exact hunpaired.bracketsBalanced

theorem Source.program_eq_ok_iff {s : Source} :
    (∃ p, s.program = .ok p) ↔ BracketsBalanced s.text.toList := by
  constructor
  · rintro ⟨p, hp⟩
    exact balanced_of_program hp
  · intro h
    obtain ⟨p, hp, -⟩ := s.program_of_balanced (bracketsBalanced_iff.1 h)
    exact ⟨p, hp⟩

theorem Source.describes_of_program {s : Source} {p : Program} (h : s.program = .ok p) :
    p.Describes s.text.toList := by
  have hlaid := Reading.laidOut s.text.toList
  have hmatches := Reading.matches_text s.text.toList
  rw [← s.tokens_eq] at hlaid hmatches
  obtain ⟨p', hp', hinstructions, -⟩ :=
    s.program_of_balanced (bracketsBalanced_iff.1 (balanced_of_program h))
  obtain rfl : p = p' := by simpa [h] using hp'
  obtain ⟨-, -, rfl⟩ := Reading.finish_eq_ok.1 h
  refine ⟨hinstructions, fun c hc => hlaid.placed c (List.mem_reverse.1 hc),
    List.pairwise_reverse.2 hlaid.ordered, List.isChain_reverse.2 hlaid.maximal, ?_,
    fun label span hend => ?_⟩
  · exact (Reading.beginLabels_brackets _).symm.trans hmatches.labels
  · obtain ⟨first, hfirst, hpartners⟩ :=
      hmatches.matched label span ((Reading.mem_brackets rfl).2 hend)
    refine ⟨first, (Reading.mem_brackets rfl).1 hfirst,
      fun i => ⟨fun hi => hpartners.eq hi, fun hi => ?_⟩⟩
    rw [hi]
    exact hpartners

/-- **The reader accepts just the balanced texts and loses nothing of them.** There is a program
just if the brackets of the text are balanced, all other characters being ignored. Then the program
describes the text: its commands, written out, are the instructions of the text in order; each has
the span where just its characters stand, behind the one before, and runs are as long as possible;
the loops have the numbers from zero on in the order of their starts, and each end of a loop has the
number of the bracket that is its partner. -/
theorem Source.program_describes_balanced_text (s : Source) :
    ((∃ p, s.program = .ok p) ↔ BracketsBalanced s.text.toList) ∧
      ∀ p, s.program = .ok p → p.Describes s.text.toList :=
  ⟨program_eq_ok_iff, fun _ hp => describes_of_program hp⟩

/-- A comment ends a run, the inner loop has the later number, and brackets in the wrong order are
not balanced. -/
theorem Source.program_describes_balanced_text_nested :
    (∃ p, Source.program ⟨"nested", "++ +[>[-]<]"⟩ = .ok p ∧ p.Describes "++ +[>[-]<]".toList ∧
      p.commands.map (·.command) = [.run .increment 2, .run .increment 1, .beginLoop 0,
        .run .right 1, .beginLoop 1, .run .decrement 1, .endLoop 1, .run .left 1, .endLoop 0]) ∧
    ¬ ∃ p, Source.program ⟨"reversed", "]["⟩ = .ok p := by
  obtain ⟨hiff, hdescribes⟩ := Source.program_describes_balanced_text ⟨"nested", "++ +[>[-]<]"⟩
  obtain ⟨p, hp⟩ := hiff.2 (by decide +kernel)
  have hcommands :
      ((Source.program ⟨"nested", "++ +[>[-]<]"⟩).toOption.map fun p => p.commands.map
        (·.command)) =
      some [.run .increment 2, .run .increment 1, .beginLoop 0, .run .right 1, .beginLoop 1,
        .run .decrement 1, .endLoop 1, .run .left 1, .endLoop 0] := by
    decide +kernel
  rw [hp] at hcommands
  refine ⟨⟨p, hp, hdescribes p hp, Option.some.inj hcommands⟩, fun h => ?_⟩
  have hbalanced := (Source.program_describes_balanced_text ⟨"reversed", "]["⟩).1.1 h
  exact absurd hbalanced (by decide +kernel)

/-! ## Numbers -/

namespace Program.Describes

variable {p : Program} {text : List Char}

theorem count_le (h : p.Describes text) {kind : Repeatable} {count : Nat} {span : Span}
    (hc : ⟨.run kind count, span⟩ ∈ p.commands) : count ≤ text.length := by
  obtain ⟨before, after, htext, -, -⟩ := (h.placed _ hc).2
  have hchars : (Command.run kind count).chars.length = count := by
    rw [Command.chars, List.length_map, Command.instructions, List.length_replicate]
  rw [htext, List.length_append, List.length_append, hchars]
  omega

theorem loops_le (h : p.Describes text) : p.loops ≤ text.length := by
  have hbegins : ∀ commands : List PlacedCommand,
      (commands.filterMap (·.command.beginLabel?)).length ≤ (unfolded commands).length := by
    intro commands
    induction commands with
    | nil => exact Nat.le_refl _
    | cons c commands ih =>
      rw [unfolded, List.flatMap_cons, List.length_append, List.filterMap_cons]
      cases hlabel : c.command.beginLabel? with
      | none => exact Nat.le_add_left_of_le ih
      | some label =>
        have hbegin : c.command = .beginLoop label := by
          cases hcommand : c.command <;> simp_all [Command.beginLabel?]
        rw [hbegin, List.length_cons, Nat.add_comm]
        exact Nat.add_le_add_left ih 1
  calc p.loops = (p.commands.filterMap (·.command.beginLabel?)).length := by
        rw [h.labels, List.length_range]
    _ ≤ p.instructions.length := hbegins p.commands
    _ = (text.filterMap Instruction.ofChar?).length := by rw [h.instructions]
    _ ≤ text.length := List.length_filterMap_le ..

theorem label_lt (h : p.Describes text) {label : Nat} {span : Span}
    (hc : ⟨.beginLoop label, span⟩ ∈ p.commands) : label < p.loops := by
  have hmem : label ∈ p.commands.filterMap (·.command.beginLabel?) :=
    List.mem_filterMap.2 ⟨_, hc, rfl⟩
  rw [h.labels] at hmem
  exact List.mem_range.1 hmem

end Program.Describes

/-- The counts and the labels of a program fit into 32 bits, if its text has fewer than `2 ^ 32`
characters. -/
theorem Source.numbers_lt {s : Source} {p : Program} (h : s.program = .ok p)
    (htext : s.text.toList.length < 2 ^ 32) :
    p.loops < 2 ^ 32 ∧
      (∀ kind count span, ⟨.run kind count, span⟩ ∈ p.commands → count < 2 ^ 32) ∧
      ∀ label span, ⟨.beginLoop label, span⟩ ∈ p.commands ∨ ⟨.endLoop label, span⟩ ∈ p.commands →
        label < 2 ^ 32 := by
  have hdescribes := describes_of_program h
  have hloops := hdescribes.loops_le
  refine ⟨by omega, fun kind count span hc => ?_, fun label span hc => ?_⟩
  · have hcount := hdescribes.count_le hc
    omega
  · have hlabel : label < p.loops := by
      rcases hc with hc | hc
      · exact hdescribes.label_lt hc
      · obtain ⟨first, hfirst, -⟩ := hdescribes.matched label span hc
        exact hdescribes.label_lt hfirst
    omega

end TapeToolchain
