import TapeToolchain.Proofs.Assembly.Immediates
import TapeToolchain.Proofs.Preliminaries
import TapeToolchain.Proofs.Source.Singles

/-!
The labels of assembly text. The labels that its lines define are those of the program's start and
one for each bracket of the source (`LabelsPaired.labels`), and since loops have different numbers,
no label is defined twice. A jump of a loop and the label after it always stand together in one
piece, so pieces that are put together keep them together (`LoopJump.Settled.append`).
-/

namespace TapeToolchain

/-! ## Labels and jumps of lines -/

/-- The label that a line defines: its first word up to a colon. -/
def label? (line : List Char) : Option (List Char) :=
  if ':' ∈ firstWord line then some ((firstWord line).takeWhile (· ≠ ':')) else none

/-- A jump of a loop: its operation, how the label starts that it goes to, and how the label starts
that is defined after it. -/
structure LoopJump where
  operation : String
  goal : String
  own : String

namespace LoopJump

/-- The jump over a loop, to its end. -/
def forward : LoopJump :=
  ⟨"je", "end_", "begin_"⟩

/-- The jump back to the start of a loop. -/
def back : LoopJump :=
  ⟨"jne", "begin_", "end_"⟩

/-- The line jumps to the label with the number. -/
def GoesTo (jump : LoopJump) (number line : List Char) : Prop :=
  firstWord line = jump.operation.toList ∧ operand line = jump.goal.toList ++ number

instance (jump : LoopJump) (number line : List Char) : Decidable (jump.GoesTo number line) :=
  inferInstanceAs (Decidable (_ ∧ _))

/-- The line defines the label with the number that stands after the jump. -/
def Defines (jump : LoopJump) (number line : List Char) : Prop :=
  label? line = some (jump.own.toList ++ number)

/-- The number of the label that the line jumps to. -/
def goesTo? (jump : LoopJump) (line : List Char) : Option (List Char) :=
  if firstWord line = jump.operation.toList then (operand line).dropPrefix? jump.goal.toList
  else none

/-- The number of the label that the line defines. -/
def defines? (jump : LoopJump) (line : List Char) : Option (List Char) :=
  (label? line).bind (·.dropPrefix? jump.own.toList)

theorem goesTo?_eq_some {jump : LoopJump} {line number : List Char} :
    jump.goesTo? line = some number ↔ jump.GoesTo number line := by
  rw [goesTo?, GoesTo]
  split
  · next hword => simp [hword, List.dropPrefix?_eq_some]
  · next hword => simp [hword]

theorem defines?_eq_some {jump : LoopJump} {line number : List Char} :
    jump.defines? line = some number ↔ jump.Defines number line := by
  simp [defines?, Defines, Option.bind_eq_some_iff, List.dropPrefix?_eq_some]

/-- Every line that jumps is followed by the one that defines the label with the same number, and no
other line defines such a label. -/
def Settled (jump : LoopJump) (lines : List (List Char)) : Prop :=
  none :: lines.map jump.goesTo? = lines.map jump.defines? ++ [none]

instance (jump : LoopJump) (lines : List (List Char)) : Decidable (jump.Settled lines) :=
  inferInstanceAs (Decidable (_ = _))

namespace Settled

variable {jump : LoopJump} {lines more : List (List Char)}

theorem append (h : jump.Settled lines) (hmore : jump.Settled more) :
    jump.Settled (lines ++ more) := by
  rw [Settled, List.map_append, List.map_append, ← List.cons_append, h, List.append_assoc,
    List.singleton_append, hmore, List.append_assoc]

theorem pair {a b : List Char} (ha : jump.defines? a = none) (hb : jump.goesTo? b = none)
    (hnumber : jump.goesTo? a = jump.defines? b) : jump.Settled [a, b] := by
  simp [Settled, ha, hb, hnumber]

theorem line {a : List Char} (hlabel : label? a = none)
    (hjump : firstWord a ≠ jump.operation.toList) : jump.Settled [a] := by
  simp [Settled, goesTo?, defines?, hlabel, hjump]

/-- A line jumps just if the next one defines the label. -/
theorem goesTo_iff (h : jump.Settled lines) (i : Nat) (number : List Char) :
    (∃ line ∈ lines[i]?, jump.GoesTo number line) ↔
      ∃ line ∈ lines[i + 1]?, jump.Defines number line := by
  have hjump : (lines.map jump.goesTo?)[i]? = (lines.map jump.defines? ++ [none])[i + 1]? :=
    congrArg (·[i + 1]?) h
  have hnext : (lines.map jump.defines? ++ [none])[i + 1]? = some (some number) ↔
      (lines.map jump.defines?)[i + 1]? = some (some number) := by
    by_cases hi : i + 1 < (lines.map jump.defines?).length
    · rw [List.getElem?_append_left hi]
    · rw [List.getElem?_append_right (Nat.le_of_not_lt hi),
        List.getElem?_eq_none (Nat.le_of_not_lt hi), List.getElem?_singleton]
      split <;> simp
  have hiff : (lines.map jump.goesTo?)[i]? = some (some number) ↔
      (lines.map jump.defines?)[i + 1]? = some (some number) := by rw [hjump, hnext]
  simpa [List.getElem?_map, goesTo?_eq_some, defines?_eq_some] using hiff

end Settled

end LoopJump

/-! ## Texts with their labels -/

/-- The text adds lines that define the labels and in which the jumps of loops are followed by their
labels. -/
structure LabelledText (text : String) (labels : List (List Char)) : Prop where
  startsLine : StartsLine text
  labels : (addedLines text).filterMap label? = labels
  forward : LoopJump.forward.Settled (addedLines text)
  back : LoopJump.back.Settled (addedLines text)

theorem labelledText_iff {text : String} {labels : List (List Char)} :
    LabelledText text labels ↔ StartsLine text ∧ (addedLines text).filterMap label? = labels ∧
      LoopJump.forward.Settled (addedLines text) ∧ LoopJump.back.Settled (addedLines text) :=
  ⟨fun h => ⟨h.startsLine, h.labels, h.forward, h.back⟩, fun h => ⟨h.1, h.2.1, h.2.2.1, h.2.2.2⟩⟩

instance (text : String) (labels : List (List Char)) : Decidable (LabelledText text labels) :=
  decidable_of_iff _ labelledText_iff.symm

namespace LabelledText

/-- The characters of a text decide. -/
theorem of_toList {text : String} {chars : List Char} {labels : List (List Char)}
    (h : text.toList = chars) (hstart : chars.head? = some '\n')
    (hlabels : (chars.splitOn '\n').tail.filterMap label? = labels)
    (hforward : LoopJump.forward.Settled (chars.splitOn '\n').tail)
    (hback : LoopJump.back.Settled (chars.splitOn '\n').tail) : LabelledText text labels := by
  subst h
  exact ⟨fun c hc => Option.some.inj (hc.symm.trans hstart), hlabels, hforward, hback⟩

theorem append {a b : String} {labels more : List (List Char)} (ha : LabelledText a labels)
    (hb : LabelledText b more) : LabelledText (a ++ b) (labels ++ more) := by
  have hlines := addedLines_append a hb.startsLine
  refine ⟨ha.startsLine.append hb.startsLine, ?_, ?_, ?_⟩
  · rw [hlines, List.filterMap_append, ha.labels, hb.labels]
  · rw [hlines]
    exact ha.forward.append hb.forward
  · rw [hlines]
    exact ha.back.append hb.back

theorem join {α : Type} {items : List α} {text : α → String} {labels : α → List (List Char)}
    (h : ∀ x ∈ items, LabelledText (text x) (labels x)) :
    LabelledText (String.join (items.map text)) (items.flatMap labels) := by
  induction items with
  | nil => exact show LabelledText "" [] by decide
  | cons x items ih =>
    rw [List.map_cons, String.join_cons, List.flatMap_cons]
    exact (h x List.mem_cons_self).append (ih fun y hy => h y (List.mem_cons_of_mem x hy))

/-- Pieces without labels, put together. -/
theorem join_nil {α : Type} {items : List α} {text : α → String}
    (h : ∀ x ∈ items, LabelledText (text x) []) :
    LabelledText (String.join (items.map text)) [] := by
  have hjoin : LabelledText _ (items.flatMap fun _ => []) := join h
  rwa [List.flatMap_eq_nil_iff.2 fun _ _ => rfl] at hjoin

/-- A line that neither defines a label nor jumps. -/
theorem newLine {line : List Char} (hline : '\n' ∉ line) (hlabel : ':' ∉ firstWord line)
    (hforward : firstWord line ≠ "je".toList) (hback : firstWord line ≠ "jne".toList) :
    LabelledText (newLine line) [] := by
  have hnone : label? line = none := if_neg hlabel
  have hlines := addedLines_newLine hline
  refine ⟨.newLine line, ?_, ?_, ?_⟩
  · rw [hlines, List.filterMap_cons_none hnone, List.filterMap_nil]
  · rw [hlines]
    exact .line hnone hforward
  · rw [hlines]
    exact .line hnone hback

end LabelledText

/-! ## The pieces of commands -/

/-- The label at the start or at the end of the loop with a number. -/
def loopLabel (stem : String) (number : Nat) : List Char :=
  stem.toList ++ (labelText number).toList

/-- The label that the piece of a command defines. -/
def Command.label? : Command → Option (List Char)
  | beginLoop number => some (loopLabel "begin_" number)
  | endLoop number => some (loopLabel "end_" number)
  | _ => none

namespace Target

/-- The lines that test the cell under the cursor. -/
def cellTest : Target → String
  | x64 => "\n    movb\t0(%rsp, %rbx, 1),%al\n    testb\t%al,%al"
  | ia32 => "\n    movb\t0(%esp, %eax, 1),%bl\n    testb\t%bl,%bl"

end Target

namespace LoopJump

/-- The line of a jump up to the number of its label. -/
def line (jump : LoopJump) : List Char :=
  ("    " ++ jump.operation ++ "\t\t" ++ jump.goal).toList

/-- A test, the jump and the label after it. -/
def fragment (jump : LoopJump) (target : Target) : LoopFragment :=
  ⟨target.cellTest ++ newLine jump.line, newLine jump.own.toList, ":"⟩

theorem render_fragment (jump : LoopJump) (target : Target) (number : Nat) :
    (jump.fragment target).render number = target.cellTest ++
      (newLine (jump.line ++ (labelText number).toList) ++
        newLine (loopLabel jump.own number ++ [':'])) := by
  rw [← String.toList_inj]
  simp [fragment, LoopFragment.render, newLine, loopLabel]

end LoopJump

theorem Target.loopBegin_eq (target : Target) :
    target.fragments.loopBegin = LoopJump.forward.fragment target := by
  cases target <;> rfl

theorem Target.loopEnd_eq (target : Target) :
    target.fragments.loopEnd = LoopJump.back.fragment target := by
  cases target <;> rfl

theorem all_loopLabel {p : Char → Bool} {stem : String} (hstem : stem.toList.all p = true)
    (hdigit : Hex.alphabet.all p = true) (number : Nat) :
    ∀ c ∈ loopLabel stem number, p c = true := by
  intro c hc
  rcases List.mem_append.1 hc with hc | hc
  · exact List.all_eq_true.1 hstem c hc
  · exact List.all_eq_true.1 hdigit c (Hex.padded_subset_alphabet 4 number c hc)

theorem firstWord_eq_self {line : List Char} (h : ∀ c ∈ line, isBlank c = false) :
    firstWord line = line := by
  have hdrop : line.dropWhile isBlank = line := by
    cases line with
    | nil => rfl
    | cons c line => exact List.dropWhile_cons_of_neg (by simp [h c List.mem_cons_self])
  have htake : (line ++ []).takeWhile (!isBlank ·) = line ++ [].takeWhile (!isBlank ·) :=
    List.takeWhile_append_of_pos fun c hc => by simp [h c hc]
  rw [List.append_nil, List.takeWhile_nil, List.append_nil] at htake
  rw [firstWord, hdrop, htake]

/-- A word with a colon after it defines the word. -/
theorem label?_colon {name : List Char} (hblank : ∀ c ∈ name, isBlank c = false)
    (hcolon : ':' ∉ name) :
    firstWord (name ++ [':']) = name ++ [':'] ∧ label? (name ++ [':']) = some name := by
  have hword : firstWord (name ++ [':']) = name ++ [':'] := by
    refine firstWord_eq_self fun c hc => ?_
    rcases List.mem_append.1 hc with hc | hc
    · exact hblank c hc
    · rw [List.mem_singleton.1 hc]
      decide
  have hname : ∀ c ∈ name, decide (c ≠ ':') = true := fun c hc => by
    simp only [decide_eq_true_eq]
    rintro rfl
    exact hcolon hc
  refine ⟨hword, ?_⟩
  rw [label?, hword, if_pos (by simp), List.takeWhile_append_of_pos hname]
  simp

namespace LoopJump

variable {jump jump' : LoopJump}

/-- The line that jumps. -/
theorem jumpLine (hjump : jump = forward ∨ jump = back) (number : Nat) :
    '\n' ∉ jump.line ++ (labelText number).toList ∧
    label? (jump.line ++ (labelText number).toList) = none ∧
      jump.GoesTo (labelText number).toList (jump.line ++ (labelText number).toList) := by
  have hshape : '\n' ∉ jump.line ∧ ':' ∉ firstWord jump.line ∧ operand jump.line ≠ [] ∧
      jump.GoesTo [] jump.line := by
    rcases hjump with rfl | rfl <;> decide +kernel
  obtain ⟨hline, hcolon, hne, hword, hoperand⟩ := hshape
  refine ⟨?_, ?_, ?_, ?_⟩
  · rw [List.mem_append, not_or]
    exact ⟨hline, fun hc => absurd (Hex.padded_subset_alphabet 4 number _ hc) (by decide)⟩
  · rw [label?, firstWord_append hne, if_neg hcolon]
  · rw [firstWord_append hne, hword]
  · rw [operand_append hne, hoperand, List.append_nil]

/-- The line that defines the label after a jump. -/
theorem labelLine (hjump : jump = forward ∨ jump = back) (number : Nat) :
    '\n' ∉ loopLabel jump.own number ++ [':'] ∧
    ':' ∈ firstWord (loopLabel jump.own number ++ [':']) ∧
      label? (loopLabel jump.own number ++ [':']) = some (loopLabel jump.own number) := by
  have hall : ∀ c ∈ loopLabel jump.own number, (!isBlank c && c ≠ ':' && c ≠ '\n') = true := by
    apply all_loopLabel (p := fun c => !isBlank c && c ≠ ':' && c ≠ '\n')
    · rcases hjump with rfl | rfl <;> decide
    · decide
  have hchars : ∀ c ∈ loopLabel jump.own number, isBlank c = false ∧ c ≠ ':' ∧ c ≠ '\n' := by
    intro c hc
    simpa [and_assoc] using hall c hc
  obtain ⟨hword, hlabel⟩ := label?_colon (fun c hc => (hchars c hc).1) fun hc =>
    (hchars _ hc).2.1 rfl
  refine ⟨?_, by simp [hword], hlabel⟩
  rw [List.mem_append, not_or]
  exact ⟨fun hc => (hchars _ hc).2.2 rfl, by decide⟩

/-- The jump of a loop and the label after it are settled, also for the other jump, which does not
occur. -/
theorem settled_lines (hjump : jump = forward ∨ jump = back)
    (hjump' : jump' = forward ∨ jump' = back) (number : Nat) :
    jump'.Settled [jump.line ++ (labelText number).toList, loopLabel jump.own number ++ [':']] := by
  obtain ⟨-, hnone, hgoes⟩ := jumpLine hjump number
  obtain ⟨-, hcolon, hlabel⟩ := labelLine hjump number
  have hword : firstWord (loopLabel jump.own number ++ [':']) ≠ jump'.operation.toList := by
    intro heq
    rw [heq] at hcolon
    rcases hjump' with rfl | rfl <;> exact absurd hcolon (by decide)
  refine .pair (by simp [defines?, hnone]) (if_neg hword) ?_
  by_cases hsame : jump' = jump
  · rw [hsame, goesTo?_eq_some.2 hgoes, defines?_eq_some.2 hlabel]
  · have hother : jump'.operation.toList ≠ jump.operation.toList ∧
        (jump.own.toList ++ (labelText number).toList).dropPrefix? jump'.own.toList = none := by
      rcases hjump with rfl | rfl <;> rcases hjump' with rfl | rfl
      · exact absurd rfl hsame
      · exact ⟨by decide, rfl⟩
      · exact ⟨by decide, rfl⟩
      · exact absurd rfl hsame
    rw [goesTo?, hgoes.1, if_neg hother.1.symm, defines?, hlabel]
    exact hother.2.symm

theorem labelled_render (hjump : jump = forward ∨ jump = back) (target : Target) (number : Nat) :
    LabelledText ((jump.fragment target).render number) [loopLabel jump.own number] := by
  have htest : LabelledText target.cellTest [] := by cases target <;> decide +kernel
  obtain ⟨hline, hnone, -⟩ := jumpLine hjump number
  obtain ⟨hline', -, hlabel⟩ := labelLine hjump number
  have hlines : addedLines (newLine (jump.line ++ (labelText number).toList) ++
      newLine (loopLabel jump.own number ++ [':'])) =
      [jump.line ++ (labelText number).toList, loopLabel jump.own number ++ [':']] := by
    rw [addedLines_append _ (.newLine _), addedLines_newLine hline, addedLines_newLine hline',
      List.singleton_append]
  rw [render_fragment]
  refine htest.append ⟨.append (.newLine _) (.newLine _), ?_, ?_, ?_⟩
  · rw [hlines, List.filterMap_cons_none hnone, List.filterMap_cons_some hlabel, List.filterMap_nil]
  · rw [hlines]
    exact settled_lines hjump (.inl rfl) number
  · rw [hlines]
    exact settled_lines hjump (.inr rfl) number

end LoopJump

def startLabels : List (List Char) :=
  ["_start".toList, "start".toList, "zero_buff_start".toList, "zero_buff_end".toList]

/-- Only the start of a program has labels besides loops. -/
structure Fragments.Labelled (f : Fragments) : Prop where
  programStart : LabelledText f.programStart startLabels
  programEnd : LabelledText f.programEnd []
  readChar : LabelledText f.readChar []
  writeChar : LabelledText f.writeChar []

namespace Target

theorem labelled_fragments (target : Target) : target.fragments.Labelled := by
  unfold fragments x64Fragments ia32Fragments
  cases target <;> constructor <;>
    (apply LabelledText.of_toList
     · with_reducible repeat apply toList_append_ofList
       exact String.toList_ofList
     all_goals decide +kernel)

theorem labelled_single (target : Target) (kind : Repeatable) :
    LabelledText (target.fragments.single kind) [] := by
  cases target <;> cases kind <;> exact .newLine (by decide) (by decide) (by decide) (by decide)

theorem labelled_immediate (target : Target) (kind : Repeatable) (value : Nat) :
    LabelledText ((target.fragments.immediate kind).render value) [] := by
  obtain ⟨start, place, hbefore, hafter, hstart, hplace, hoperand, -⟩ := target.immediate_shape kind
  have hline : operand start ≠ [] := by simp [hoperand]
  have hword : ':' ∉ firstWord start ∧ firstWord start ≠ "je".toList ∧
      firstWord start ≠ "jne".toList := by
    have hstart : start = (target.fragments.immediate kind).before.toList.tail := by
      rw [hbefore]; simp [newLine]
    rw [hstart]
    cases target <;> cases kind <;> decide +kernel
  have hdigits : '\n' ∉ (Hex.padded 2 value).toList := fun hc =>
    absurd (Hex.padded_subset_alphabet 2 value _ hc) (by decide)
  rw [ImmediateFragment.render, hbefore, newLine_append, newLine_append, hafter, List.append_assoc]
  have hfirst := firstWord_append hline ((Hex.padded 2 value).toList ++ ',' :: ' ' :: place)
  apply LabelledText.newLine
  · simp [hstart, hplace, hdigits]
  · rw [hfirst]
    exact hword.1
  · rw [hfirst]
    exact hword.2.1
  · rw [hfirst]
    exact hword.2.2

/-- The piece of a command, in either style, defines the label of the command. -/
theorem labelled_command (target : Target) (style : RunStyle) (c : Command) :
    LabelledText (target.fragments.command style c) c.label?.toList := by
  cases c with
  | run kind count =>
    cases style with
    | plain =>
      have hruns : List.replicate count (target.fragments.single kind) =
          (List.replicate count 1).map fun _ => target.fragments.single kind := by simp
      show LabelledText (String.join (List.replicate count (target.fragments.single kind))) []
      rw [hruns]
      exact .join_nil fun _ _ => target.labelled_single kind
    | immediates => exact .join_nil fun value _ => target.labelled_immediate kind value
  | read => exact target.labelled_fragments.readChar
  | write => exact target.labelled_fragments.writeChar
  | beginLoop number =>
    show LabelledText (target.fragments.loopBegin.render number) _
    rw [target.loopBegin_eq]
    exact LoopJump.labelled_render (.inl rfl) target number
  | endLoop number =>
    show LabelledText (target.fragments.loopEnd.render number) _
    rw [target.loopEnd_eq]
    exact LoopJump.labelled_render (.inr rfl) target number

end Target

/-! ## The labels of brackets -/

/-- The label of a bracket at a place of a text. Both brackets of a loop have its number. -/
def bracketLabel? (text : List Char) (c : Char) (i : Nat) : Option (List Char) :=
  if c = '[' then some (loopLabel "begin_" (loopNumber text i))
  else if c = ']' then (openingOf? text i).map fun first => loopLabel "end_" (loopNumber text first)
  else none

def bracketLabels (text : List Char) : List (List Char) :=
  text.zipIdx.filterMap fun x => bracketLabel? text x.1 x.2

theorem Command.label?_ofCharacter? (text : List Char) (c : Char) (i : Nat) :
    (ofCharacter? text c i).bind label? = bracketLabel? text c i := by
  cases hc : Instruction.ofChar? c with
  | none =>
    have hopen : c ≠ '[' := by rintro rfl; cases hc
    have hclose : c ≠ ']' := by rintro rfl; cases hc
    simp [ofCharacter?, bracketLabel?, hc, hopen, hclose]
  | some instruction =>
    obtain rfl := Instruction.eq_toChar hc
    cases instruction with
    | right | left | increment | decrement | read | write | loopBegin => rfl
    | loopEnd =>
      show ((openingOf? text i).map _).bind label? = (openingOf? text i).map _
      cases openingOf? text i <;> rfl

theorem bracketLabels_eq (text : List Char) :
    bracketLabels text = (characterCommands text).filterMap Command.label? := by
  rw [characterCommands, List.filterMap_filterMap, bracketLabels]
  simp only [Command.label?_ofCharacter?]

theorem filterMap_label?_singles (commands : List Command) :
    (commands.flatMap Command.singles).filterMap Command.label? =
      commands.filterMap Command.label? := by
  rw [List.filterMap_flatMap, List.filterMap_eq_flatMap_toList]
  congr 1
  funext c
  cases c with
  | run kind count =>
    exact List.filterMap_eq_nil_iff.2 fun c hc => by rw [List.eq_of_mem_replicate hc]; rfl
  | read | write | beginLoop _ | endLoop _ => rfl

theorem filterMap_label?_perm (commands : List Command) : (commands.filterMap Command.label?).Perm
    ((commands.filterMap Command.beginLabel?).map (loopLabel "begin_") ++
      (commands.filterMap Command.endLabel?).map (loopLabel "end_")) := by
  induction commands with
  | nil => exact .nil
  | cons c commands ih =>
    cases c with
    | run _ _ | read | write => exact ih
    | beginLoop number => exact ih.cons (loopLabel "begin_" number)
    | endLoop number => exact (ih.cons (loopLabel "end_" number)).trans List.perm_middle.symm

theorem loopLabel_injective (stem : String) : Function.Injective (loopLabel stem) := by
  intro a b h
  exact Hex.padded_injective 4 (String.toList_inj.1 (List.append_cancel_left h))

/-- The labels of loops with the first numbers. -/
def loopLabels (loops : Nat) : List (List Char) :=
  (List.range loops).map (loopLabel "begin_") ++ (List.range loops).map (loopLabel "end_")

theorem nodup_loopLabels (loops : Nat) : (startLabels ++ loopLabels loops).Nodup := by
  have hstart : ∀ name ∈ startLabels, name.head? ≠ some 'b' ∧ name.head? ≠ some 'e' := by decide
  have hnumbers (stem : String) : ((List.range loops).map (loopLabel stem)).Nodup :=
    List.nodup_range.map (loopLabel_injective stem)
  refine List.nodup_append.2 ⟨by decide, List.nodup_append.2 ⟨hnumbers _, hnumbers _, ?_⟩, ?_⟩
  · intro a ha b hb
    obtain ⟨k, -, rfl⟩ := List.mem_map.1 ha
    obtain ⟨k', -, rfl⟩ := List.mem_map.1 hb
    simp [loopLabel]
  · intro a ha b hb hab
    obtain ⟨hbegin, hend⟩ := hstart a ha
    rcases List.mem_append.1 hb with hb | hb
    · obtain ⟨k, -, rfl⟩ := List.mem_map.1 hb
      exact hbegin (hab ▸ rfl)
    · obtain ⟨k, -, rfl⟩ := List.mem_map.1 hb
      exact hend (hab ▸ rfl)

/-- The label at either end of a loop is there just if the loop is. -/
theorem mem_loopLabels {stem : String} (hstem : stem = "begin_" ∨ stem = "end_")
    {number : List Char} {loops : Nat} :
    stem.toList ++ number ∈ startLabels ++ loopLabels loops ↔
      ∃ k < loops, (labelText k).toList = number := by
  rcases hstem with rfl | rfl <;> simp [startLabels, loopLabels, loopLabel]

theorem Source.bracketLabels_perm {s : Source} {p : Program} (h : s.program = .ok p) :
    (bracketLabels s.text.toList).Perm (loopLabels (s.text.toList.count '[')) := by
  obtain ⟨hbegins, hends⟩ := s.characterCommands_numbered h
  have hperm := filterMap_label?_perm (characterCommands s.text.toList)
  rw [← bracketLabels_eq, hbegins] at hperm
  exact hperm.trans ((hends.map _).append_left _)

/-! ## The assembly of a program -/

/-- The labels of assembly text and of the source that it is for. -/
structure LabelsPaired (text : String) (source : List Char) : Prop where
  /-- The first line is empty, so there is a line before each that defines a label. -/
  first : (asmLines text).head? = some []
  /-- The labels are those of the program's start and of the brackets, in order. -/
  labels : (asmLines text).filterMap label? = startLabels ++ bracketLabels source
  /-- No label is defined twice. -/
  distinct : ((asmLines text).filterMap label?).Nodup
  /-- One line defines the label at the start of a loop and one line that at its end. -/
  once : ∀ k < source.count '[', ∀ stem ∈ ["begin_", "end_"],
    (asmLines text).countP (fun line => label? line = some (loopLabel stem k)) = 1
  /-- The label that a loop jumps to is defined. -/
  goals : ∀ jump ∈ [LoopJump.forward, LoopJump.back], ∀ line ∈ asmLines text, ∀ number,
    jump.GoesTo number line → jump.goal.toList ++ number ∈ (asmLines text).filterMap label?
  /-- The jump to one label of a loop stands directly before the other label. -/
  adjacent : ∀ jump ∈ [LoopJump.forward, LoopJump.back], ∀ i number,
    (∃ line ∈ (asmLines text)[i]?, jump.GoesTo number line) ↔
      ∃ line ∈ (asmLines text)[i + 1]?, jump.Defines number line

theorem Program.labelled_assembly (p : Program) (target : Target) (style : RunStyle) :
    LabelledText (p.assembly target style)
      (startLabels ++ (p.commands.map (·.command)).filterMap Command.label?) := by
  have hlabelled := target.labelled_fragments
  have hcommands := LabelledText.join fun c (_ : c ∈ p.commands) =>
    target.labelled_command style c.command
  rw [← List.append_nil (startLabels ++ _), List.filterMap_map, List.filterMap_eq_flatMap_toList]
  exact (hlabelled.programStart.append hcommands).append hlabelled.programEnd

/-- What is said of pieces, for a whole text whose labels are those of loops. -/
theorem LabelledText.labelsPaired {text : String} {source : List Char}
    (h : LabelledText text (startLabels ++ bracketLabels source))
    (hperm : (bracketLabels source).Perm (loopLabels (source.count '['))) :
    LabelsPaired text source := by
  have hlines := asmLines_eq_cons h.startsLine
  have hlabels : (asmLines text).filterMap label? = startLabels ++ bracketLabels source := by
    rw [hlines, List.filterMap_cons_none (by decide), h.labels]
  have hall := hperm.append_left startLabels
  have hnodup : ((asmLines text).filterMap label?).Nodup := by
    rw [hlabels]
    exact hall.nodup_iff.2 (nodup_loopLabels _)
  have hmem {stem : String} (hstem : stem = "begin_" ∨ stem = "end_") {number : List Char} :
      stem.toList ++ number ∈ (asmLines text).filterMap label? ↔
        ∃ k < source.count '[', (labelText k).toList = number := by
    rw [hlabels, hall.mem_iff, mem_loopLabels hstem]
  have hsettled : ∀ jump ∈ [LoopJump.forward, LoopJump.back], jump.Settled (asmLines text) := by
    intro jump hjump
    rw [hlines, ← List.singleton_append]
    rcases List.mem_pair.1 hjump with rfl | rfl
    · exact .append (by decide) h.forward
    · exact .append (by decide) h.back
  refine ⟨by rw [hlines]; rfl, hlabels, hnodup, ?_, ?_,
    fun jump hjump => (hsettled jump hjump).goesTo_iff⟩
  · intro k hk stem hstem
    have hcount := List.count_eq_one_of_mem hnodup ((hmem (by simpa using hstem)).2 ⟨k, hk, rfl⟩)
    rw [List.count_filterMap] at hcount
    rw [← hcount]
    exact List.countP_congr fun line _ => by rw [decide_eq_true_iff, beq_iff_eq, loopLabel]
  · intro jump hjump line hline number hgoes
    -- the label after the jump has the same number, so both labels of this loop are there
    obtain ⟨i, hi⟩ := List.mem_iff_getElem?.1 hline
    obtain ⟨next, hnext, hdefines⟩ :=
      ((hsettled jump hjump).goesTo_iff i number).1 ⟨line, hi, hgoes⟩
    have hown := List.mem_filterMap.2 ⟨next, List.mem_of_getElem? hnext, hdefines⟩
    rcases List.mem_pair.1 hjump with rfl | rfl
    · exact (hmem (.inr rfl)).2 ((hmem (.inl rfl)).1 hown)
    · exact (hmem (.inl rfl)).2 ((hmem (.inr rfl)).1 hown)

/-- **The labels of loops are unique and paired.** For both targets and both styles of runs, the
assembly of a text defines, after the labels of the program's start, one label for each bracket of
the text, both brackets of a loop having the number of the loop. No label is defined twice. Every
jump of a loop goes to a label that is defined; the jump to the end of a loop stands directly before
the label of its start, and the jump to the start directly before the label of the end. -/
theorem Source.loop_labels_unique_and_paired (target : Target) (style : RunStyle) (s : Source)
    (p : Program) (h : s.program = .ok p) :
    LabelsPaired (p.assembly target style) s.text.toList := by
  have htext := p.labelled_assembly target style
  rw [← filterMap_label?_singles, s.singles_eq_characterCommands h, ← bracketLabels_eq] at htext
  exact htext.labelsPaired (s.bracketLabels_perm h)

/-- Nested loops and loops side by side. -/
theorem Source.loop_labels_unique_and_paired_nested : ∃ p,
    Source.program ⟨"nested", "[[-]>[.]]"⟩ = .ok p ∧
    LabelsPaired (p.assembly .ia32 .immediates) "[[-]>[.]]".toList := by
  obtain ⟨p, hp⟩ : ∃ p, Source.program ⟨"nested", "[[-]>[.]]"⟩ = .ok p :=
    Source.program_eq_ok_iff.2 (by decide +kernel)
  exact ⟨p, hp, Source.loop_labels_unique_and_paired .ia32 .immediates ⟨"nested", "[[-]>[.]]"⟩ p hp⟩

end TapeToolchain
