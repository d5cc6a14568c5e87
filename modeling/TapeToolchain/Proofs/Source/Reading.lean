import TapeToolchain.Source.Program
import TapeToolchain.Proofs.Execution.Brackets

/-!
What a program that is read from a text stands for. The commands of a program, each written out as
often as it is executed, are the instructions of the text, and the labels count the loops. A text
whose loops are balanced is read without an error (`Source.program_of_balanced`). The reading of a
token keeps three counts in step with the instructions: the commands, the open loops and the labels
given out.
-/

namespace TapeToolchain

/-- The instructions that a command stands for. -/
def Command.instructions : Command → List Instruction
  | run kind count => List.replicate count kind.instruction
  | read => [.read]
  | write => [.write]
  | beginLoop _ => [.loopBegin]
  | endLoop _ => [.loopEnd]

/-- The instructions that commands in their places stand for, the places being forgotten. -/
def unfolded (commands : List PlacedCommand) : List Instruction :=
  commands.flatMap (·.command.instructions)

/-- The instructions of a program, its runs written out. -/
def Program.instructions (p : Program) : List Instruction :=
  unfolded p.commands

/-- The instructions that a text writes, all else being comment. -/
def Source.instructions (s : Source) : List Instruction :=
  s.text.toList.filterMap Instruction.ofChar?

/-! ## Characters and tokens -/

/-- A scan forgets no character. -/
theorem Source.scan_seen (text : List Char) (s : Scan) :
    (text.foldl Scan.push s).seen.reverse.map (·.1) = s.seen.reverse.map (·.1) ++ text := by
  induction text generalizing s with
  | nil => simp
  | cons c text ih =>
    rw [List.foldl_cons, ih]
    simp [Scan.push]

theorem Source.chars_map_fst (s : Source) : s.chars.map (·.1) = s.text.toList := by
  rw [chars, scan_seen]
  rfl

theorem Source.tokens_map_instruction (s : Source) :
    s.tokens.map (·.instruction) = s.instructions := by
  rw [tokens, instructions, ← s.chars_map_fst, List.map_filterMap, List.filterMap_map]
  congr 1
  funext ⟨c, span⟩
  cases h : Instruction.ofChar? c <;> simp [h]

/-! ## Reading a token -/

namespace Reading

/-- The instructions that have been read, those of unmatched closing brackets apart. -/
def instructions (r : Reading) : List Instruction :=
  unfolded r.commands.reverse

theorem instructions_push (r : Reading) (command : Command) (span : Span) :
    (r.push command span).instructions = r.instructions ++ command.instructions := by
  simp [instructions, unfolded, push]

/-- A repeatable instruction counts once, whether or not it is taken into the command before it. -/
theorem instructions_pushRepeatable (r : Reading) (kind : Repeatable) (span : Span) :
    (r.pushRepeatable kind span).instructions = r.instructions ++ [kind.instruction] := by
  have hpush := r.instructions_push (.run kind 1) span
  unfold pushRepeatable
  split
  · next last count before earlier hcommands =>
    split
    · next hsame =>
      obtain ⟨rfl, -⟩ := hsame
      simp [instructions, unfolded, hcommands, Command.instructions, List.replicate_succ']
    · exact hpush
  · exact hpush

/-- What reading a repeatable instruction leaves alone. -/
theorem pushRepeatable_brackets (r : Reading) (kind : Repeatable) (span : Span) :
    (r.pushRepeatable kind span).opened = r.opened ∧
      (r.pushRepeatable kind span).unmatched = r.unmatched ∧
      (r.pushRepeatable kind span).nextLabel = r.nextLabel := by
  unfold pushRepeatable
  split
  · split <;> exact ⟨rfl, rfl, rfl⟩
  · exact ⟨rfl, rfl, rfl⟩

/-- The second reading is the first one after more instructions, none of which closes a loop that is
not open. -/
structure Extends (r : Reading) (read : List Instruction) (r' : Reading) : Prop where
  instructions : r'.instructions = r.instructions ++ read
  opened : nesting r.opened.length read = some r'.opened.length
  unmatched : r'.unmatched = r.unmatched
  labels : r'.nextLabel = r.nextLabel + read.count .loopBegin

theorem Extends.refl (r : Reading) : r.Extends [] r :=
  ⟨(List.append_nil _).symm, rfl, rfl, rfl⟩

theorem Extends.trans {r₁ r₂ r₃ : Reading} {a b : List Instruction} (h₁ : r₁.Extends a r₂)
    (h₂ : r₂.Extends b r₃) : r₁.Extends (a ++ b) r₃ where
  instructions := by rw [h₂.instructions, h₁.instructions, List.append_assoc]
  opened := by rw [nesting_append, h₁.opened]; exact h₂.opened
  unmatched := h₂.unmatched.trans h₁.unmatched
  labels := by rw [h₂.labels, h₁.labels, List.count_append, Nat.add_assoc]

theorem extends_pushRepeatable (r : Reading) (kind : Repeatable) (span : Span) :
    r.Extends [kind.instruction] (r.pushRepeatable kind span) := by
  obtain ⟨hopened, hunmatched, hlabel⟩ := r.pushRepeatable_brackets kind span
  refine ⟨r.instructions_pushRepeatable kind span, ?_, hunmatched, ?_⟩
  · rw [hopened]
    cases kind <;> rfl
  · rw [hlabel]
    cases kind <;> rfl

/-- A token that closes no loop in vain extends the reading by its instruction. -/
theorem extends_step (r : Reading) (token : Token)
    (h : token.instruction = .loopEnd → r.opened ≠ []) :
    r.Extends [token.instruction] (r.step token) := by
  obtain ⟨i, span⟩ := token
  cases i with
  | right => exact r.extends_pushRepeatable .right span
  | left => exact r.extends_pushRepeatable .left span
  | increment => exact r.extends_pushRepeatable .increment span
  | decrement => exact r.extends_pushRepeatable .decrement span
  | read => exact ⟨r.instructions_push .read span, rfl, rfl, rfl⟩
  | write => exact ⟨r.instructions_push .write span, rfl, rfl, rfl⟩
  | loopBegin => exact ⟨r.instructions_push (.beginLoop _) span, rfl, rfl, rfl⟩
  | loopEnd =>
    cases hopened : r.opened with
    | nil => exact absurd hopened (h rfl)
    | cons first opened =>
      have hstep : r.step ⟨.loopEnd, span⟩ = { r.push (.endLoop first.1) span with opened } := by
        simp only [step, hopened]
      rw [hstep]
      refine ⟨r.instructions_push (.endLoop first.1) span, ?_, rfl, rfl⟩
      rw [hopened]
      rfl

/-- Tokens that close no loop in vain extend the reading by their instructions. -/
theorem extends_foldl {tokens : List Token} {r : Reading} {d : Nat}
    (h : nesting r.opened.length (tokens.map (·.instruction)) = some d) :
    r.Extends (tokens.map (·.instruction)) (tokens.foldl step r) := by
  induction tokens generalizing r with
  | nil => exact .refl r
  | cons token rest ih =>
    have hends : token.instruction = .loopEnd → r.opened ≠ [] := by
      intro hend hempty
      rw [List.map_cons, hend, hempty] at h
      cases h
    have hfirst := r.extends_step token hends
    rw [List.map_cons, ← List.singleton_append, nesting_append, hfirst.opened] at h
    exact hfirst.trans (ih h)

end Reading

/-! ## Reading a text -/

/-- There is a program just if every bracket has found its partner. -/
theorem Reading.finish_eq_ok {r : Reading} {p : Program} :
    r.finish = .ok p ↔ r.unmatched = [] ∧ r.opened = [] ∧
    p = ⟨r.commands.reverse, r.nextLabel⟩ := by
  have herrors : r.errors = [] ↔ r.unmatched = [] ∧ r.opened = [] := by simp [errors]
  rw [finish, ← and_assoc, ← herrors]
  cases r.errors with
  | nil => simp [eq_comm]
  | cons first rest => simp

/-- A text with balanced loops is a program with the same instructions and one label for each
loop. -/
theorem Source.program_of_balanced (s : Source) (h : Balanced s.instructions) :
    ∃ p, s.program = .ok p ∧ p.instructions = s.instructions ∧
      p.loops = s.instructions.count .loopBegin := by
  rw [← s.tokens_map_instruction] at h ⊢
  have hread : Reading.start.Extends _ _ := Reading.extends_foldl h
  have hopened : (s.tokens.foldl Reading.step .start).opened = [] := by
    have hlength := hread.opened.symm.trans h
    exact List.length_eq_zero_iff.1 (Option.some.inj hlength)
  exact ⟨⟨(s.tokens.foldl Reading.step .start).commands.reverse, _⟩,
    Reading.finish_eq_ok.2 ⟨hread.unmatched, hopened, rfl⟩, hread.instructions,
    hread.labels.trans (Nat.zero_add _)⟩

end TapeToolchain
