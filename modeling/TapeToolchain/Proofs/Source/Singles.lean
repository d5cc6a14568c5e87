import TapeToolchain.Proofs.Source.Reports

/-!
A program read one character at a time. The runs of a program can be taken apart into single
commands (`Command.singles`), and these are read from the text character by character, whatever
comments stand between them (`Source.takeAll_singles`). The command of a character is known from its
place in the text: a loop is numbered by the loops that start before it, and a closing bracket has
the number of the loop that its partner starts (`Source.singles_eq_characterCommands`).
-/

namespace TapeToolchain

/-! ## The commands of characters -/

/-- The number of a loop that starts at a place: how many loops start before it. -/
def loopNumber (text : List Char) (i : Nat) : Nat :=
  (text.take i).count '['

/-- The place of the bracket that the one at the given place closes. -/
def openingOf? (text : List Char) (j : Nat) : Option Nat :=
  (List.range j).find? fun i => Partners text i j

def Command.ofCharacter? (text : List Char) (c : Char) (i : Nat) : Option Command :=
  match Instruction.ofChar? c with
  | none => none
  | some .right => some (.run .right 1)
  | some .left => some (.run .left 1)
  | some .increment => some (.run .increment 1)
  | some .decrement => some (.run .decrement 1)
  | some .read => some .read
  | some .write => some .write
  | some .loopBegin => some (.beginLoop (loopNumber text i))
  | some .loopEnd => (openingOf? text i).map fun first => .endLoop (loopNumber text first)

/-- The commands of the characters of a text in order. -/
def characterCommands (text : List Char) : List Command :=
  text.zipIdx.filterMap fun x => Command.ofCharacter? text x.1 x.2

theorem openingOf?_eq_some {text : List Char} {i j : Nat} (h : Partners text i j) :
    openingOf? text j = some i := by
  obtain ⟨k, hk⟩ : ∃ k, openingOf? text j = some k := by
    rw [← Option.isSome_iff_exists, openingOf?, List.find?_isSome]
    exact ⟨i, List.mem_range.2 (partners_iff.1 h).1, by simpa using h⟩
  have hpartners : Partners text k j := by simpa using List.find?_some hk
  rw [hk, h.eq hpartners]

/-- The command of a character does not depend on what comes after it. -/
theorem Command.ofCharacter?_append {text : List Char} (more : List Char) (c : Char) {i : Nat}
    (hi : i < text.length) : ofCharacter? (text ++ more) c i = ofCharacter? text c i := by
  have hnumber : ∀ k ≤ i, loopNumber (text ++ more) k = loopNumber text k := by
    intro k hk
    rw [loopNumber, loopNumber, List.take_append_of_le_length (by omega)]
  have hopening : openingOf? (text ++ more) i = openingOf? text i := by
    rw [openingOf?, openingOf?]
    congr 1
    funext k
    simp only [Partners.append_iff hi more]
  unfold ofCharacter?
  rw [hopening, hnumber i (Nat.le_refl i)]
  split <;> try rfl
  refine Option.map_congr fun first hfirst => ?_
  have hlt := List.mem_range.1 (List.mem_of_find?_eq_some hfirst)
  rw [hnumber first (Nat.le_of_lt hlt)]

theorem characterCommands_append (text : List Char) (c : Char) :
    characterCommands (text ++ [c]) =
      characterCommands text ++ (Command.ofCharacter? (text ++ [c]) c text.length).toList := by
  have hsame : text.zipIdx.filterMap (fun x => Command.ofCharacter? (text ++ [c]) x.1 x.2) =
      characterCommands text := by
    refine List.filterMap_congr fun x hx => ?_
    have hx' := List.snd_lt_of_mem_zipIdx hx
    exact Command.ofCharacter?_append [c] x.1 (by omega)
  rw [characterCommands, List.zipIdx_append, List.filterMap_append, hsame, Nat.zero_add]
  cases hlast : Command.ofCharacter? (text ++ [c]) c text.length <;> simp [hlast]

/-! ## Single commands -/

/-- A command taken apart into commands for one instruction each. -/
def Command.singles : Command → List Command
  | run kind count => List.replicate count (.run kind 1)
  | c => [c]

namespace Content

def singles (s : Content) : Content :=
  { s with commands := s.commands.flatMap Command.singles }

/-- A run that is read one by one. -/
theorem takeAll_repeatable {c : Char} {kind : Repeatable} (hc : Repeatable.ofChar? c = some kind)
    (s : Content) (k : Nat) : s.takeAll (List.replicate k (c, 1)) =
      some { s with commands := s.commands ++ List.replicate k (.run kind 1) } := by
  induction k generalizing s with
  | zero => simp [takeAll]
  | succ k ih =>
    rw [List.replicate_succ, takeAll_cons, take_repeatable hc, Option.bind_some, ih, push,
      List.append_assoc]
    rfl

/-- A character that is a piece by itself is the same single command. -/
theorem singles_take {c : Char} (hc : Repeatable.ofChar? c = none) (s : Content) :
    (s.take (c, 1)).map singles = s.singles.take (c, 1) := by
  cases hi : Instruction.ofChar? c with
  | none => simp [take, hi]
  | some i =>
    cases i with
    | right | left | increment | decrement => simp [Repeatable.ofChar?, hi] at hc
    | read | write | loopBegin => simp [take, hi, push, singles, Command.singles]
    | loopEnd =>
      cases hopened : s.opened with
      | nil => simp [take, hi, singles, hopened]
      | cons label opened => simp [take, hi, push, singles, Command.singles, hopened]

theorem singles_takeAll_replicate {c : Char} (hc : Repeatable.ofChar? c = none) (s : Content)
    (k : Nat) :
    (s.takeAll (List.replicate k (c, 1))).map singles =
      s.singles.takeAll (List.replicate k (c, 1)) := by
  induction k generalizing s with
  | zero => rfl
  | succ k ih =>
    rw [List.replicate_succ, takeAll_cons, takeAll_cons, ← singles_take hc]
    cases s.take (c, 1) with
    | none => rfl
    | some s' => exact ih s'

/-- Reading the runs at once or one by one gives the same single commands. -/
theorem singles_takeAll_pieces (s : Content) (rs : List (Char × Nat)) :
    (s.takeAll (pieces rs)).map singles = s.singles.takeAll ((runsText rs).map (·, 1)) := by
  induction rs generalizing s with
  | nil => rfl
  | cons r rs ih =>
    obtain ⟨c, k⟩ := r
    have hfirst : (s.takeAll (pieces [(c, k)])).map singles =
        s.singles.takeAll (List.replicate k (c, 1)) := by
      cases hc : Repeatable.ofChar? c with
      | none =>
        rw [pieces_single hc]
        exact singles_takeAll_replicate hc s k
      | some kind =>
        rw [pieces_repeatable hc, takeAll_repeatable hc, takeAll_cons, take_repeatable hc]
        simp [takeAll, push, singles, Command.singles]
    rw [pieces_cons, takeAll_append, runsText_cons, List.map_append, List.map_replicate,
      takeAll_append, ← hfirst]
    cases s.takeAll (pieces [(c, k)]) with
    | none => rfl
    | some s' => exact ih s'

/-- Comments are passed over. -/
theorem takeAll_filterMap (s : Content) (text : List Char) :
    s.takeAll (text.map (·, 1)) =
      s.takeAll ((text.filterMap Instruction.ofChar?).map fun i => (i.toChar, 1)) := by
  induction text generalizing s with
  | nil => rfl
  | cons c text ih =>
    cases hc : Instruction.ofChar? c with
    | none =>
      rw [List.map_cons, takeAll_cons, take_comment hc, List.filterMap_cons_none hc]
      exact ih s
    | some i =>
      rw [List.filterMap_cons_some hc, List.map_cons, List.map_cons, takeAll_cons, takeAll_cons,
        Instruction.eq_toChar hc]
      exact congrArg _ (funext ih)

end Content

theorem Source.takeAll_singles {s : Source} {p : Program} (h : s.program = .ok p) :
    Content.start.takeAll (s.text.toList.map (·, 1)) =
      some ⟨(p.commands.map (·.command)).flatMap Command.singles, [], p.loops⟩ := by
  have hpieces :=
    s.takeAll_pieces h (separateRuns_runs s.text.toList) (runsText_runs s.text.toList).symm
  have hsingles := Content.start.singles_takeAll_pieces (runs s.text.toList)
  rw [hpieces, runsText_runs] at hsingles
  exact hsingles.symm

/-! ## Characters are followed along the text -/

namespace Content

/-- What has been read are the commands of the characters of a text, and the open loops have the
numbers of the open brackets. -/
structure Follows (text : List Char) (s : Content) : Prop where
  commands : s.commands = characterCommands text
  nextLabel : s.nextLabel = text.count '['
  opened : ∃ opened, Unpaired text opened [] ∧ s.opened = opened.map (loopNumber text)

namespace Follows

variable {text : List Char} {s : Content}

theorem start : Follows [] .start :=
  ⟨rfl, rfl, [], .none .nil, rfl⟩

/-- Earlier loops keep their numbers. -/
theorem loopNumber_append {opened stray : List Nat} (h : Unpaired text opened stray) (c : Char) :
    opened.map (loopNumber (text ++ [c])) = opened.map (loopNumber text) := by
  refine List.map_congr_left fun i hi => ?_
  have hlt := h.lt_length i (List.mem_append_left _ hi)
  rw [loopNumber, loopNumber, List.take_append_of_le_length (Nat.le_of_lt hlt)]

theorem commands_push (h : Follows text s) {c : Char} {command : Command}
    (hcommand : Command.ofCharacter? (text ++ [c]) c text.length = some command) :
    (s.push command).commands = characterCommands (text ++ [c]) := by
  rw [push, h.commands, characterCommands_append, hcommand, Option.toList_some]

/-- A character that is no bracket adds its command, if it has one. -/
theorem plain (h : Follows text s) {c : Char} (hopen : c ≠ '[') (hclose : c ≠ ']') {s' : Content}
    (hcommands : s'.commands = characterCommands (text ++ [c])) (hopened : s'.opened = s.opened)
    (hlabel : s'.nextLabel = s.nextLabel) : Follows (text ++ [c]) s' := by
  obtain ⟨opened, hunpaired, heq⟩ := h.opened
  refine ⟨hcommands, ?_, opened, hunpaired.append (.single hopen hclose), ?_⟩
  · rw [hlabel, h.nextLabel, List.count_append, List.count_singleton]
    simp [hopen]
  · rw [hopened, heq, loopNumber_append hunpaired]

theorem beginLoop (h : Follows text s) : Follows (text ++ ['['])
    { s.push (.beginLoop s.nextLabel) with opened := s.nextLabel :: s.opened, nextLabel :=
      s.nextLabel + 1 } := by
  obtain ⟨opened, hunpaired, heq⟩ := h.opened
  have hnumber : loopNumber (text ++ ['[']) text.length = s.nextLabel := by
    rw [loopNumber, List.take_left, h.nextLabel]
  refine ⟨h.commands_push ?_, ?_, text.length :: opened, .opening hunpaired .nil, ?_⟩
  · show some (Command.beginLoop (loopNumber (text ++ ['[']) text.length)) = _
    rw [hnumber]
  · simp [h.nextLabel]
  · rw [List.map_cons, hnumber, loopNumber_append hunpaired, heq]

theorem endLoop (h : Follows text s) {label : Nat} {rest : List Nat}
    (hopened : s.opened = label :: rest) :
    Follows (text ++ [']']) { s.push (.endLoop label) with opened := rest } := by
  obtain ⟨opened, hunpaired, heq⟩ := h.opened
  obtain ⟨i, opened, rfl⟩ : ∃ i more, opened = i :: more := by
    cases opened with
    | nil => simp [hopened] at heq
    | cons i more => exact ⟨i, more, rfl⟩
  rw [hopened, List.map_cons, List.cons.injEq] at heq
  obtain ⟨hlabel, hrest⟩ := heq
  -- the last open loop is the one that starts at the partner of the new bracket
  obtain ⟨hclosed, hpartners⟩ := hunpaired.close
  have hnumbers := loopNumber_append hunpaired ']'
  rw [List.map_cons, List.map_cons, List.cons.injEq] at hnumbers
  refine ⟨h.commands_push ?_, ?_, opened, hclosed, ?_⟩
  · show (openingOf? (text ++ [']']) text.length).map _ = _
    rw [openingOf?_eq_some hpartners, Option.map_some, hnumbers.1, hlabel]
  · simp [push, h.nextLabel]
  · rw [hrest, hnumbers.2]

/-- One more character is followed. -/
theorem take (h : Follows text s) {c : Char} {s' : Content} (htake : s.take (c, 1) = some s') :
    Follows (text ++ [c]) s' := by
  cases hc : Instruction.ofChar? c with
  | none =>
    have hcommand : Command.ofCharacter? (text ++ [c]) c text.length = none := by
      simp [Command.ofCharacter?, hc]
    rw [take_comment hc] at htake
    cases htake
    refine h.plain ?_ ?_ ?_ rfl rfl
    · rintro rfl
      cases hc
    · rintro rfl
      cases hc
    · rw [characterCommands_append, hcommand, Option.toList_none, List.append_nil, h.commands]
  | some i =>
    obtain rfl := Instruction.eq_toChar hc
    cases i with
    | right | left | increment | decrement | read | write =>
      cases htake
      exact h.plain (by decide) (by decide) (h.commands_push rfl) rfl rfl
    | loopBegin =>
      cases htake
      exact h.beginLoop
    | loopEnd =>
      cases hopened : s.opened with
      | nil => simp [Content.take, Instruction.toChar, Instruction.ofChar?, hopened] at htake
      | cons label rest =>
        simp only [Content.take, Instruction.toChar, Instruction.ofChar?, hopened] at htake
        cases htake
        exact h.endLoop hopened

/-- A whole text is followed. -/
theorem takeAll {text : List Char} {s : Content}
    (h : Content.start.takeAll (text.map (·, 1)) = some s) : Follows text s := by
  induction text using List.reverseRec generalizing s with
  | nil =>
    cases h
    exact .start
  | append_singleton text c ih =>
    rw [List.map_append, takeAll_append] at h
    obtain ⟨s₁, hbefore, hlast⟩ := Option.bind_eq_some_iff.1 h
    obtain ⟨s₂, htake, hdone⟩ := Option.bind_eq_some_iff.1 hlast
    cases hdone
    exact (ih hbefore).take htake

end Follows

end Content

/-! ## Loop numbers -/

/-- The label of a loop that the command ends. -/
def Command.endLabel? : Command → Option Nat
  | endLoop label => some label
  | _ => none

namespace Content

/-- The loops are numbered in the order of their starts, and each of them has been ended once or is
open. -/
structure Numbered (s : Content) : Prop where
  begins : s.commands.filterMap Command.beginLabel? = List.range s.nextLabel
  ends : (s.commands.filterMap Command.endLabel? ++ s.opened).Perm (List.range s.nextLabel)

namespace Numbered

variable {s s' : Content}

theorem start : Numbered .start :=
  ⟨rfl, .nil⟩

theorem push (h : Numbered s) {command : Command} (hbegin : command.beginLabel? = none)
    (hend : command.endLabel? = none) : Numbered (s.push command) := by
  refine ⟨?_, ?_⟩
  · simp [Content.push, hbegin, h.begins]
  · simpa [Content.push, hend] using h.ends

theorem take (h : Numbered s) {piece : Char × Nat} (htake : s.take piece = some s') :
    Numbered s' := by
  unfold Content.take at htake
  split at htake
  · cases htake
    exact h
  -- the instructions that are no brackets
  iterate 6
    · cases htake
      exact h.push rfl rfl
  · cases htake
    refine ⟨?_, ?_⟩
    · simp [Content.push, Command.beginLabel?, h.begins, List.range_succ]
    · show ((s.commands ++ [Command.beginLoop s.nextLabel]).filterMap Command.endLabel? ++
        s.nextLabel :: s.opened).Perm _
      rw [List.filterMap_append, List.filterMap_cons_none rfl, List.filterMap_nil, List.append_nil,
        List.range_succ]
      exact List.perm_middle.trans
        ((h.ends.cons s.nextLabel).trans (List.perm_append_singleton _ _).symm)
  · split at htake
    · cases htake
    · next label opened hopened =>
      cases htake
      have hends := h.ends
      rw [hopened] at hends
      refine ⟨?_, ?_⟩
      · simp [Content.push, Command.beginLabel?, h.begins]
      · simpa [Content.push, Command.endLabel?] using hends

theorem takeAll (h : Numbered s) {ps : List (Char × Nat)} (hall : s.takeAll ps = some s') :
    Numbered s' := by
  induction ps generalizing s with
  | nil =>
    cases hall
    exact h
  | cons piece ps ih =>
    rw [takeAll_cons] at hall
    obtain ⟨s₁, htake, hrest⟩ := Option.bind_eq_some_iff.1 hall
    exact ih (h.take htake) hrest

end Numbered

end Content

/-! ## The text of a program -/

/-- The commands of a program, its runs taken apart, are those of the characters of its text. -/
theorem Source.singles_eq_characterCommands {s : Source} {p : Program} (h : s.program = .ok p) :
    (p.commands.map (·.command)).flatMap Command.singles = characterCommands s.text.toList :=
  (Content.Follows.takeAll (s.takeAll_singles h)).commands

theorem Source.loops_eq_count {s : Source} {p : Program} (h : s.program = .ok p) :
    p.loops = s.text.toList.count '[' :=
  (Content.Follows.takeAll (s.takeAll_singles h)).nextLabel

/-- In the text of a program each loop is started once and ended once. -/
theorem Source.characterCommands_numbered {s : Source} {p : Program} (h : s.program = .ok p) :
    (characterCommands s.text.toList).filterMap Command.beginLabel? =
      List.range (s.text.toList.count '[') ∧
      ((characterCommands s.text.toList).filterMap Command.endLabel?).Perm
        (List.range (s.text.toList.count '[')) := by
  have hnumbered := Content.Numbered.takeAll .start (s.takeAll_singles h)
  rw [s.singles_eq_characterCommands h, s.loops_eq_count h] at hnumbered
  have hends := hnumbered.ends
  rw [List.append_nil] at hends
  exact ⟨hnumbered.begins, hends⟩

end TapeToolchain
