import TapeToolchain.Assembly.Emission
import TapeToolchain.Proofs.Source.Singles
import TapeToolchain.Proofs.Text.Hex

/-!
Plain assembly, one character at a time. Runs are written out in plain assembly, so it is put
together from the pieces of single commands (`Fragments.plain_singles`), and the piece of a single
command is the translation of its character (`Fragments.translation_eq_plain`).
-/

namespace TapeToolchain

/-! ## The translation of a text -/

/-- The text of a loop's piece with a number in both places: lower-case hexadecimal with four digits
or more. -/
def LoopFragment.numbered (f : LoopFragment) (number : Nat) : String :=
  let label := String.ofList ((Nat.toDigits 16 number).leftpad 4 '0')
  f.first ++ label ++ f.second ++ label ++ f.third

/-- The piece of a character at a place of a text. -/
def Fragments.character (f : Fragments) (text : List Char) (c : Char) (i : Nat) : String :=
  match Instruction.ofChar? c with
  | none => ""
  | some .right => f.right
  | some .left => f.left
  | some .increment => f.increment
  | some .decrement => f.decrement
  | some .read => f.readChar
  | some .write => f.writeChar
  | some .loopBegin => f.loopBegin.numbered (loopNumber text i)
  | some .loopEnd =>
    match openingOf? text i with
    | none => ""
    | some first => f.loopEnd.numbered (loopNumber text first)

/-- The pieces of the characters of a text, one after the other. -/
def Fragments.translation (f : Fragments) (text : List Char) : String :=
  String.join (text.zipIdx.map fun x => f.character text x.1 x.2)

theorem LoopFragment.numbered_eq_render (f : LoopFragment) (number : Nat) :
    f.numbered number = f.render number := by
  rw [numbered, render, labelText, Hex.padded, Hex.digits_eq_toDigits]
  rfl

/-! ## Single commands -/

def Fragments.plain (f : Fragments) (commands : List Command) : String :=
  String.join (commands.map (f.command .plain))

theorem Fragments.plain_append (f : Fragments) (a b : List Command) :
    f.plain (a ++ b) = f.plain a ++ f.plain b := by
  rw [plain, List.map_append, String.join_append, plain, plain]

theorem Fragments.plain_singleton (f : Fragments) (c : Command) :
    f.plain [c] = f.command .plain c := by
  simp [plain, String.join]

theorem Fragments.plain_singles (f : Fragments) (commands : List Command) :
    f.plain (commands.flatMap Command.singles) = f.plain commands := by
  induction commands with
  | nil => rfl
  | cons c commands ih =>
    have hfirst : f.plain c.singles = f.command .plain c := by
      cases c with
      | run kind count => simp [Command.singles, plain, command, run, String.join]
      | read | write | beginLoop _ | endLoop _ => exact f.plain_singleton _
    rw [List.flatMap_cons, plain_append, hfirst, ih, ← plain_singleton, ← plain_append,
      List.singleton_append]

/-- The piece of a character is that of its command. -/
theorem Fragments.character_eq_plain (f : Fragments) (text : List Char) (c : Char) (i : Nat) :
    f.character text c i = f.plain (Command.ofCharacter? text c i).toList := by
  unfold character Command.ofCharacter?
  cases Instruction.ofChar? c with
  | none => rfl
  | some instruction =>
    cases instruction with
    | right | left | increment | decrement => simp [plain, command, run, single, String.join]
    | read => exact (f.plain_singleton .read).symm
    | write => exact (f.plain_singleton .write).symm
    | loopBegin =>
      exact (f.loopBegin.numbered_eq_render _).trans
        (f.plain_singleton (.beginLoop (loopNumber text i))).symm
    | loopEnd =>
      cases openingOf? text i with
      | none => rfl
      | some first =>
        exact (f.loopEnd.numbered_eq_render _).trans
          (f.plain_singleton (.endLoop (loopNumber text first))).symm

theorem Fragments.translation_eq_plain (f : Fragments) (text : List Char) :
    f.translation text = f.plain (characterCommands text) := by
  rw [translation, characterCommands]
  induction text.zipIdx with
  | nil => rfl
  | cons x xs ih =>
    have hfilter : (x :: xs).filterMap (fun x => Command.ofCharacter? text x.1 x.2) =
        (Command.ofCharacter? text x.1 x.2).toList ++ xs.filterMap fun x =>
          Command.ofCharacter? text x.1 x.2 := by
      cases h : Command.ofCharacter? text x.1 x.2 <;> simp [h]
    rw [List.map_cons, String.join_cons, ih, character_eq_plain, hfilter, plain_append]

/-! ## Plain assembly -/

theorem Program.assembly_plain (p : Program) (target : Target) :
    p.assembly target .plain = target.fragments.programStart ++
      target.fragments.plain ((p.commands.map (·.command)).flatMap Command.singles) ++
        target.fragments.programEnd := by
  rw [Fragments.plain_singles, Fragments.plain, List.map_map]
  rfl

/-- **Plain assembly is written one character at a time.** For every target, the plain assembly of a
program is the start of the program, then for each character of its text the piece of the
instruction that it writes, and the end of the program. A loop is numbered by the loops that start
before it, and both its brackets have this number. So texts that write the same instructions have
the same plain assembly, whatever stands between the instructions. -/
theorem Source.plain_assembly_translates_characters (target : Target) (s : Source) (p : Program)
    (h : s.program = .ok p) :
    p.assembly target .plain =
      target.fragments.programStart ++ target.fragments.translation s.text.toList ++
        target.fragments.programEnd ∧
    ∀ s' : Source, s'.instructions = s.instructions →
      ∃ p', s'.program = .ok p' ∧ p'.assembly target .plain = p.assembly target .plain := by
  refine ⟨?_, fun s' hsame => ?_⟩
  · rw [p.assembly_plain, s.singles_eq_characterCommands h, Fragments.translation_eq_plain]
  · have htexts : s'.text.toList.filterMap Instruction.ofChar? =
        s.text.toList.filterMap Instruction.ofChar? := hsame
    have hbalanced : BracketsBalanced s'.text.toList := by
      rw [bracketsBalanced_iff, htexts, ← bracketsBalanced_iff]
      exact Source.program_eq_ok_iff.1 ⟨p, h⟩
    obtain ⟨p', hp'⟩ := Source.program_eq_ok_iff.2 hbalanced
    have hsingles := s'.takeAll_singles hp'
    rw [Content.takeAll_filterMap, htexts, ← Content.takeAll_filterMap,
      s.takeAll_singles h] at hsingles
    have hcommands := congrArg Content.commands (Option.some.inj hsingles)
    refine ⟨p', hp', ?_⟩
    rw [p.assembly_plain, p'.assembly_plain]
    exact congrArg (fun commands => _ ++ target.fragments.plain commands ++ _) hcommands.symm

/-- Two nested loops, and the same with comments and line feeds that divide a run. -/
theorem Source.plain_assembly_translates_characters_nested : ∃ p p',
    Source.program ⟨"nested", "++[>[-]<-]"⟩ = .ok p ∧
    Source.program ⟨"spaced", "+ two\n+[>[-]\n<-]"⟩ = .ok p' ∧
    p.assembly .x64 .plain = x64Fragments.programStart ++
      (x64Fragments.increment ++ x64Fragments.increment ++ x64Fragments.loopBegin.numbered 0 ++
        x64Fragments.right ++
        x64Fragments.loopBegin.numbered 1 ++ x64Fragments.decrement ++
          x64Fragments.loopEnd.numbered 1 ++
        x64Fragments.left ++ x64Fragments.decrement ++ x64Fragments.loopEnd.numbered 0) ++
      x64Fragments.programEnd ∧
    p'.assembly .x64 .plain = p.assembly .x64 .plain := by
  obtain ⟨p, hp⟩ : ∃ p, Source.program ⟨"nested", "++[>[-]<-]"⟩ = .ok p :=
    Source.program_eq_ok_iff.2 (by decide +kernel)
  obtain ⟨hassembly, hsame⟩ :=
    Source.plain_assembly_translates_characters .x64 ⟨"nested", "++[>[-]<-]"⟩ p hp
  obtain ⟨p', hp', hequal⟩ := hsame ⟨"spaced", "+ two\n+[>[-]\n<-]"⟩ (by decide +kernel)
  refine ⟨p, p', hp, hp', hassembly.trans ?_, hequal⟩
  have hpieces :
      ("++[>[-]<-]".toList.zipIdx.map fun x => x64Fragments.character "++[>[-]<-]".toList x.1 x.2) =
      [x64Fragments.increment, x64Fragments.increment, x64Fragments.loopBegin.numbered 0,
        x64Fragments.right, x64Fragments.loopBegin.numbered 1, x64Fragments.decrement,
        x64Fragments.loopEnd.numbered 1,
        x64Fragments.left, x64Fragments.decrement, x64Fragments.loopEnd.numbered 0] := by
    decide +kernel
  show x64Fragments.programStart ++ x64Fragments.translation "++[>[-]<-]".toList ++
    x64Fragments.programEnd = _
  rewrite [Fragments.translation, hpieces]
  simp [String.join]

end TapeToolchain
