import TapeToolchain.Proofs.Assembly.Lines
import TapeToolchain.Proofs.Execution.Segment
import TapeToolchain.Proofs.Source.Reading
import Mathlib.Data.List.Forall2

/-!
Compact assembly, with immediates for runs. Lines of assembly are given their effect on the tape
(`Target.effect?`): they move the cursor, or add to the cell under it. The pieces of a run, in
either style, denote effects that add up to those of its instructions (`Repeatable.foldl_effect`),
since cells count modulo 256 and the parts of a distance have the distance as their sum.
-/

namespace TapeToolchain

/-! ## Effects -/

/-- What a line of assembly does to the tape. -/
inductive TapeEffect where
  | move (distance : Int)
  | add (amount : UInt8)
deriving DecidableEq

/-- The cursor and the memory after an effect. -/
def TapeEffect.apply (st : Int × Memory) : TapeEffect → Int × Memory
  | move distance => (st.1 + distance, st.2)
  | add amount => (st.1, st.2.set st.1 (st.2.cells st.1 + amount))

/-- The effect of a repeatable instruction that is executed a number of times. -/
def Repeatable.effect (kind : Repeatable) (count : Nat) : TapeEffect :=
  match kind with
  | right => .move count
  | left => .move (-count)
  | increment => .add (UInt8.ofInt count)
  | decrement => .add (UInt8.ofInt (-count))

/-- The cursor and the memory after an instruction that is neither end of a loop. -/
def Instruction.apply (st : Int × Memory) (i : Instruction) : Int × Memory :=
  (st.1 + i.displacement, i.act st.1 st.2)

namespace Repeatable

theorem apply_effect_one (kind : Repeatable) (st : Int × Memory) :
    (kind.effect 1).apply st = kind.instruction.apply st := by
  cases kind with
  | right | left => rfl
  | increment =>
    show (st.1, st.2.set st.1 (st.2.cells st.1 + 1)) = (st.1 + 0, _)
    rw [Int.add_zero]
    rfl
  | decrement =>
    show (st.1, st.2.set st.1 (st.2.cells st.1 + -1)) = (st.1 + 0, _)
    rw [Int.add_zero, ← UInt8.sub_eq_add_neg]
    rfl

theorem apply_effect_zero (kind : Repeatable) (st : Int × Memory) :
    (kind.effect 0).apply st = st := by
  cases kind with
  | right | left => simp [effect, TapeEffect.apply]
  | increment | decrement =>
    show (st.1, st.2.set st.1 (st.2.cells st.1 + 0)) = st
    rw [UInt8.add_zero, Memory.set_cells]

/-- Effects of one kind add up. -/
theorem apply_effect_add (kind : Repeatable) (a b : Nat) (st : Int × Memory) :
    (kind.effect b).apply ((kind.effect a).apply st) = (kind.effect (a + b)).apply st := by
  cases kind with
  | right | left =>
    simp only [effect, TapeEffect.apply, Prod.mk.injEq, and_true]
    omega
  | increment =>
    simp only [effect, TapeEffect.apply, Memory.cells_set, if_true, Memory.set_set, Int.natCast_add,
      UInt8.ofInt_add, UInt8.add_assoc]
  | decrement =>
    simp only [effect, TapeEffect.apply, Memory.cells_set, if_true, Memory.set_set, Int.natCast_add,
      Int.neg_add, UInt8.ofInt_add, UInt8.add_assoc]

theorem foldl_effect (kind : Repeatable) (counts : List Nat) (st : Int × Memory) :
    (counts.map kind.effect).foldl TapeEffect.apply st = (kind.effect counts.sum).apply st := by
  induction counts generalizing st with
  | nil => exact (kind.apply_effect_zero st).symm
  | cons count counts ih => rw [List.map_cons, List.foldl_cons, ih, apply_effect_add, List.sum_cons]

/-- Many instructions of a kind have one effect. -/
theorem foldl_instructions (kind : Repeatable) (count : Nat) (st : Int × Memory) :
    (Command.run kind count).instructions.foldl Instruction.apply st =
      (kind.effect count).apply st := by
  show (List.replicate count kind.instruction).foldl Instruction.apply st = _
  induction count generalizing st with
  | zero => exact (kind.apply_effect_zero st).symm
  | succ count ih =>
    rw [List.replicate_succ, List.foldl_cons, ih, ← apply_effect_one, apply_effect_add,
      Nat.add_comm]

/-- Cells count modulo 256. -/
theorem effect_mod {kind : Repeatable} (hkind : kind = .increment ∨ kind = .decrement)
    (count : Nat) : kind.effect (count % 0x100) = kind.effect count := by
  have hbyte : UInt8.ofInt (count % 0x100 : Nat) = UInt8.ofInt count := by
    rw [← UInt8.toNat_inj, UInt8.ofInt, UInt8.ofInt]
    congr 2
    omega
  rcases hkind with rfl | rfl
  · simp only [effect, hbyte]
  · simp only [effect, UInt8.ofInt_neg, hbyte]

end Repeatable

/-! ## The effect of a line -/

namespace Target

/-- The register that holds the cursor. -/
def cursor : Target → List Char
  | x64 => "%rbx".toList
  | ia32 => "%eax".toList

/-- The cell under the cursor. -/
def cell : Target → List Char
  | x64 => "0(%rsp, %rbx, 1)".toList
  | ia32 => "0(%esp, %eax, 1)".toList

/-- The letter that ends an operation on a register. -/
def width : Target → Char
  | x64 => 'q'
  | ia32 => 'l'

/-- The effect of an operation that raises or lowers what is in a place. -/
def change? (target : Target) (up down : String) (word place : List Char) (amount : Int) :
    Option TapeEffect :=
  if place = target.cursor then
    if word = up.toList ++ [target.width] then some (.move amount)
    else if word = down.toList ++ [target.width] then some (.move (-amount))
    else none
  else if place = target.cell then
    if word = up.toList ++ ['b'] then some (.add (UInt8.ofInt amount))
    else if word = down.toList ++ ['b'] then some (.add (UInt8.ofInt (-amount)))
    else none
  else none

end Target

/-- An operand that starts with a hexadecimal immediate: its value and the place after it. -/
def immediate? : List Char → Option (Nat × List Char)
  | '$' :: '0' :: 'x' :: rest =>
    match rest.dropWhile (· ∈ Hex.alphabet) with
    | ',' :: ' ' :: place => some (Hex.value (rest.takeWhile (· ∈ Hex.alphabet)), place)
    | _ => none
  | _ => none

/-- The effect of a line on the tape, if it has no other. -/
def Target.effect? (target : Target) (line : List Char) : Option TapeEffect :=
  match immediate? (operand line) with
  | some (value, place) => target.change? "add" "sub" (firstWord line) place value
  | none => target.change? "inc" "dec" (firstWord line) (operand line) 1

/-- The cursor and the memory after a text, each of its lines having its effect. -/
def Target.perform? (target : Target) (text : String) (st : Int × Memory) : Option (Int × Memory) :=
  (asmLines text).foldlM (fun st line => if line = [] then some st
    else (target.effect? line).map (·.apply st)) st

theorem immediate?_digits {digits : List Char} (hdigits : ∀ c ∈ digits, c ∈ Hex.alphabet)
    (place : List Char) :
    immediate? ('$' :: '0' :: 'x' :: (digits ++ ',' :: ' ' :: place)) =
      some (Hex.value digits, place) := by
  have hall : ∀ c ∈ digits, decide (c ∈ Hex.alphabet) = true :=
    fun c hc => decide_eq_true (hdigits c hc)
  have hcomma : decide (',' ∈ Hex.alphabet) = false := by decide
  rw [immediate?, List.dropWhile_append_of_pos hall, List.takeWhile_append_of_pos hall,
    List.dropWhile_cons_of_neg (by simp [hcomma]), List.takeWhile_cons_of_neg (by simp [hcomma]),
    List.append_nil]
  rfl

/-! ## Texts that denote effects -/

/-- Each line of the text has the effect in its place. -/
structure Denotes (target : Target) (text : String) (effects : List TapeEffect) : Prop where
  startsLine : StartsLine text
  lines : (addedLines text).map target.effect? = effects.map some

namespace Denotes

variable {target : Target} {a b : String} {effects more : List TapeEffect}

theorem newLine {line : List Char} {effect : TapeEffect} (hline : '\n' ∉ line)
    (heffect : target.effect? line = some effect) : Denotes target (newLine line) [effect] where
  startsLine := .newLine line
  lines := by rw [addedLines_newLine hline, List.map_singleton, heffect, List.map_singleton]

theorem append (ha : Denotes target a effects) (hb : Denotes target b more) :
    Denotes target (a ++ b) (effects ++ more) where
  startsLine := ha.startsLine.append hb.startsLine
  lines := by rw [addedLines_append a hb.startsLine, List.map_append, ha.lines, hb.lines,
    List.map_append]

theorem join {α : Type} {items : List α} {text : α → String} {effect : α → TapeEffect}
    (h : ∀ x ∈ items, Denotes target (text x) [effect x]) :
    Denotes target (String.join (items.map text)) (items.map effect) := by
  induction items with
  | nil => exact ⟨show StartsLine "" by decide, rfl⟩
  | cons x items ih =>
    rw [List.map_cons, List.map_cons, String.join_cons]
    exact (h x List.mem_cons_self).append (ih fun y hy => h y (List.mem_cons_of_mem x hy))

theorem foldlM_lines {lines : List (List Char)} (h : lines.map target.effect? = effects.map some)
    (st : Int × Memory) :
    lines.foldlM (fun st line => if line = [] then some st
      else (target.effect? line).map (·.apply st)) st =
      some (effects.foldl TapeEffect.apply st) := by
  induction lines generalizing effects st with
  | nil =>
    obtain rfl : effects = [] := List.map_eq_nil_iff.1 h.symm
    rfl
  | cons line lines ih =>
    obtain ⟨effect, rest, rfl, heffect, hrest⟩ := List.map_eq_cons_iff.1 h.symm
    have hne : line ≠ [] := by
      rintro rfl
      cases target <;> cases heffect
    rw [List.foldlM_cons, if_neg hne, ← heffect]
    exact ih hrest.symm (effect.apply st)

/-- The lines have their effects one after the other. -/
theorem perform? (h : Denotes target a effects) (st : Int × Memory) :
    target.perform? a st = some (effects.foldl TapeEffect.apply st) := by
  rw [Target.perform?, asmLines_eq_cons h.startsLine, List.foldlM_cons, if_pos rfl]
  exact foldlM_lines h.lines st

end Denotes

/-! ## The pieces of a run -/

theorem Target.denotes_single (target : Target) (kind : Repeatable) :
    Denotes target (target.fragments.single kind) [kind.effect 1] := by
  cases target <;> cases kind <;> exact .newLine (by decide) (by decide)

/-- A piece with an immediate is one line, which names the place that its kind changes. -/
theorem Target.immediate_shape (target : Target) (kind : Repeatable) :
    ∃ start place, (target.fragments.immediate kind).before = newLine start ∧
      (target.fragments.immediate kind).after.toList = ',' :: ' ' :: place ∧ '\n' ∉ start ∧
      '\n' ∉ place ∧ operand start = ['$', '0', 'x'] ∧
      ∀ amount : Nat, target.change? "add" "sub" (firstWord start) place amount =
        some (kind.effect amount) := by
  cases target <;> cases kind <;>
    exact ⟨_, _, rfl, String.toList_ofList, by decide, by decide, by decide, fun _ => rfl⟩

/-- A piece with an immediate has the effect of as many instructions as its digits say. -/
theorem Target.denotes_immediate (target : Target) (kind : Repeatable) {digits : List Char}
    (hdigits : ∀ c ∈ digits, c ∈ Hex.alphabet) :
    Denotes target ((target.fragments.immediate kind).before ++ String.ofList digits ++
      (target.fragments.immediate kind).after) [kind.effect (Hex.value digits)] := by
  obtain ⟨start, place, hbefore, hafter, hstart, hplace, hoperand, hchange⟩ :=
    target.immediate_shape kind
  have hnewline : '\n' ∉ digits := fun hc => absurd (hdigits _ hc) (by decide)
  have hline : operand start ≠ [] := by simp [hoperand]
  rw [hbefore, newLine_append, newLine_append, hafter, String.toList_ofList, List.append_assoc]
  apply Denotes.newLine
  · simp [hstart, hplace, hnewline]
  · have himmediate : immediate? (operand start ++ (digits ++ ',' :: ' ' :: place)) =
        some (Hex.value digits, place) := by
      rw [hoperand]
      exact immediate?_digits hdigits place
    rw [effect?, operand_append hline, firstWord_append hline, himmediate]
    exact hchange _

theorem Target.denotes_render (target : Target) (kind : Repeatable) (value : Nat) :
    Denotes target ((target.fragments.immediate kind).render value) [kind.effect value] := by
  have h := target.denotes_immediate kind (Hex.padded_subset_alphabet 2 value)
  rwa [String.ofList_toList, Hex.value_padded] at h

theorem splitDistance_sum (distance : Nat) : (splitDistance distance).sum = distance := by
  have hdiv := Nat.div_add_mod' distance 0xff
  rw [splitDistance, List.sum_append, List.sum_replicate_nat]
  split
  · next hzero => rw [hzero] at hdiv; exact hdiv
  · exact hdiv

theorem splitDistance_bounds (distance : Nat) : ∀ v ∈ splitDistance distance, 1 ≤ v ∧ v ≤ 0xff := by
  intro v hv
  have hlt := Nat.mod_lt distance (show 0 < 0xff by decide)
  rcases List.mem_append.1 hv with hv | hv
  · obtain rfl := (List.mem_replicate.1 hv).2
    decide
  · split at hv
    · cases hv
    · obtain rfl := List.mem_singleton.1 hv
      omega

theorem splitDistance_dropLast (distance : Nat) :
    ∀ v ∈ (splitDistance distance).dropLast, v = 0xff := by
  intro v hv
  rw [splitDistance] at hv
  split at hv
  · rw [List.append_nil] at hv
    exact (List.mem_replicate.1 (List.dropLast_subset _ hv)).2
  · rw [List.dropLast_concat] at hv
    exact (List.mem_replicate.1 hv).2

/-- The immediates of a run have its effect. -/
theorem Repeatable.effect_immediates (kind : Repeatable) (count : Nat) :
    kind.effect (kind.immediates count).sum = kind.effect count := by
  cases kind with
  | right | left => exact congrArg _ (splitDistance_sum count)
  | increment => exact effect_mod (.inl rfl) count
  | decrement => exact effect_mod (.inr rfl) count

/-- The texts of a run, in either style, have the effect of its instructions. -/
theorem Target.perform?_run (target : Target) (style : RunStyle) (kind : Repeatable) (count : Nat)
    (st : Int × Memory) :
    target.perform? (target.fragments.run style kind count) st =
      some ((Command.run kind count).instructions.foldl Instruction.apply st) := by
  rw [kind.foldl_instructions]
  cases style with
  | plain =>
    have hruns : List.replicate count (target.fragments.single kind) =
        (List.replicate count 1).map fun _ => target.fragments.single kind := by simp
    have hdenotes :
        Denotes target
          (String.join ((List.replicate count 1).map fun _ => target.fragments.single kind))
        ((List.replicate count 1).map kind.effect) := by
      apply Denotes.join
      intro x hx
      rw [List.eq_of_mem_replicate hx]
      exact target.denotes_single kind
    rw [Fragments.run, hruns, hdenotes.perform?, kind.foldl_effect, List.sum_replicate_nat,
      Nat.mul_one]
  | immediates =>
    have hdenotes : Denotes target _ ((kind.immediates count).map kind.effect) :=
      .join fun value _ => target.denotes_render kind value
    rw [Fragments.run, hdenotes.perform?, kind.foldl_effect, kind.effect_immediates]

/-! ## The blocks of a program -/

/-- The text is the piece with two digits in it that read back as the value. -/
def ImmediateFragment.Prints (f : ImmediateFragment) (value : Nat) (text : String) : Prop :=
  ∃ high low, high ∈ Hex.alphabet ∧ low ∈ Hex.alphabet ∧ Hex.value [high, low] = value ∧
    text = f.before ++ String.ofList [high, low] ++ f.after

theorem ImmediateFragment.prints_render (f : ImmediateFragment) {value : Nat} (h : value < 0x100) :
    f.Prints value (f.render value) := by
  have hdigits : (Hex.padded 2 value).toList = [Hex.digit (value / 16 % 16),
      Hex.digit (value % 16)] :=
    Hex.toList_padded (by decide) h
  have hpadded : Hex.padded 2 value = String.ofList [Hex.digit (value / 16 % 16),
      Hex.digit (value % 16)] := by
    rw [← hdigits, String.ofList_toList]
  refine ⟨_, _, Hex.digit_mem_alphabet (Nat.mod_lt _ (by decide)),
    Hex.digit_mem_alphabet (Nat.mod_lt _ (by decide)), ?_, by rw [render, hpadded]⟩
  rw [← hdigits, Hex.value_padded]

/-- The blocks of a command, without immediates and with them. -/
inductive Fragments.Blocks (f : Fragments) : Command → (plain compact : String) → Prop where
  | amount {kind : Repeatable} {count : Nat} {block : String} :
      kind = .increment ∨ kind = .decrement → (f.immediate kind).Prints (count % 0x100) block →
      Blocks f (.run kind count) (String.join (List.replicate count (f.single kind))) block
  | distance {kind : Repeatable} {values : List Nat} {blocks : List String} :
      kind = .right ∨ kind = .left → (∀ v ∈ values, 1 ≤ v ∧ v ≤ 0xff) →
        (∀ v ∈ values.dropLast, v = 0xff) →
      List.Forall₂ (f.immediate kind).Prints values blocks →
      Blocks f (.run kind values.sum) (String.join (List.replicate values.sum (f.single kind)))
        (String.join blocks)
  | read : Blocks f .read f.readChar f.readChar
  | write : Blocks f .write f.writeChar f.writeChar
  | beginLoop (label : Nat) :
      Blocks f (.beginLoop label) (f.loopBegin.render label) (f.loopBegin.render label)
  | endLoop (label : Nat) :
      Blocks f (.endLoop label) (f.loopEnd.render label) (f.loopEnd.render label)

theorem Fragments.blocks_distance (f : Fragments) {kind : Repeatable}
    (hkind : kind = .right ∨ kind = .left) (count : Nat) :
    f.Blocks (.run kind count) (f.run .plain kind count) (f.run .immediates kind count) := by
  have himmediates : kind.immediates count = splitDistance count := by
    rcases hkind with rfl | rfl <;> rfl
  have hprints : List.Forall₂ (f.immediate kind).Prints (splitDistance count)
      ((splitDistance count).map (f.immediate kind).render) := by
    rw [List.forall₂_map_right_iff, List.forall₂_same]
    intro value hvalue
    exact (f.immediate kind).prints_render
      (Nat.lt_succ_of_le (splitDistance_bounds count value hvalue).2)
  have hblocks :=
    Blocks.distance hkind (splitDistance_bounds count) (splitDistance_dropLast count) hprints
  rw [splitDistance_sum] at hblocks
  rwa [run, run, himmediates]

theorem Fragments.blocks_amount (f : Fragments) {kind : Repeatable}
    (hkind : kind = .increment ∨ kind = .decrement) (count : Nat) :
    f.Blocks (.run kind count) (f.run .plain kind count) (f.run .immediates kind count) := by
  have himmediates : kind.immediates count = [count % 0x100] := by
    rcases hkind with rfl | rfl <;> rfl
  have hprints := (f.immediate kind).prints_render (Nat.mod_lt count (show 0 < 0x100 by decide))
  rw [run, run, himmediates, List.map_singleton, String.join_cons, String.join_nil,
    String.append_empty]
  exact .amount hkind hprints

theorem Fragments.blocks_command (f : Fragments) (command : Command) :
    f.Blocks command (f.command .plain command) (f.command .immediates command) := by
  cases command with
  | run kind count =>
    cases kind with
    | right => exact f.blocks_distance (.inl rfl) count
    | left => exact f.blocks_distance (.inr rfl) count
    | increment => exact f.blocks_amount (.inl rfl) count
    | decrement => exact f.blocks_amount (.inr rfl) count
  | read => exact .read
  | write => exact .write
  | beginLoop label => exact .beginLoop label
  | endLoop label => exact .endLoop label

/-- In both styles the assembly of a program is a block for each command, between the same start and
end. The blocks of a run, performed line by line, both do to the tape what its instructions do;
other blocks are the same. -/
theorem Program.immediates_have_effect_of_runs (p : Program) (target : Target) :
    ∃ blocks : List (String × String),
      p.assembly target .plain = target.fragments.programStart ++ String.join (blocks.map (·.1)) ++
        target.fragments.programEnd ∧
      p.assembly target .immediates = target.fragments.programStart ++
        String.join (blocks.map (·.2)) ++ target.fragments.programEnd ∧
      List.Forall₂ (fun c block => target.fragments.Blocks c.command block.1 block.2 ∧
        ∀ kind count, c.command = .run kind count → ∀ st,
          target.perform? block.1 st = some (c.command.instructions.foldl Instruction.apply st) ∧
          target.perform? block.2 st = some (c.command.instructions.foldl Instruction.apply st))
        p.commands blocks := by
  refine ⟨p.commands.map fun c =>
    (target.fragments.command .plain c.command, target.fragments.command .immediates c.command), ?_,
      ?_, ?_⟩
  · rw [List.map_map]
    rfl
  · rw [List.map_map]
    rfl
  · rw [List.forall₂_map_right_iff, List.forall₂_same]
    intro c _
    refine ⟨target.fragments.blocks_command c.command, fun kind count hrun st => ?_⟩
    rw [hrun]
    exact ⟨target.perform?_run .plain kind count st, target.perform?_run .immediates kind count st⟩

end TapeToolchain
