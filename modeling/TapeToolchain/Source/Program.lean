import TapeToolchain.Instruction
import TapeToolchain.Source.Position
import TapeToolchain.Text.Hex

/-!
Programs read from a source text. Characters that write no instruction are comments. Instructions of
the same repeatable kind that touch each other become one command with a count; each loop has a
label, numbered in the order of the loops' starts. All brackets without a partner are reported.
Counts and labels are numbers without a limit, which agree with numbers of 32 bits on every text of
fewer than `2 ^ 32` characters (`Source.numbers_lt`).
-/

namespace TapeToolchain

/-- An instruction with its place in the text. -/
structure Token where
  instruction : Instruction
  span : Span

def Source.tokens (s : Source) : List Token :=
  s.chars.filterMap fun (c, span) => (Instruction.ofChar? c).map (⟨·, span⟩)

/-- The instructions whose repetition is worth counting. -/
inductive Repeatable where
  | right
  | left
  | increment
  | decrement
deriving DecidableEq

def Repeatable.instruction : Repeatable → Instruction
  | right => .right
  | left => .left
  | increment => .increment
  | decrement => .decrement

/-- The text of a loop's number: hexadecimal with at least four digits. -/
def labelText (label : Nat) : String :=
  Hex.padded 4 label

/-- A command of a program. -/
inductive Command where
  /-- A repeatable instruction, executed a number of times. -/
  | run (kind : Repeatable) (count : Nat)
  | read
  | write
  | beginLoop (label : Nat)
  | endLoop (label : Nat)
deriving DecidableEq

structure PlacedCommand where
  command : Command
  span : Span

/-- What is wrong with a bracket. -/
inductive BracketFault where
  | unmatchedClose
  | unclosedLoop
deriving DecidableEq

def BracketFault.message : BracketFault → String
  | unmatchedClose => "Found `]` without a matching `[`"
  | unclosedLoop => "Loop opened here is never closed"

structure BracketError where
  fault : BracketFault
  span : Span

/-- Commands whose brackets are matched. -/
structure Program where
  commands : List PlacedCommand
  /-- The number of loops, and so of labels. -/
  loops : Nat

/-- A program in the course of being read. -/
structure Reading where
  /-- The commands so far, the last one first. -/
  commands : List PlacedCommand
  /-- The open loops with the places of their brackets, the innermost first. -/
  opened : List (Nat × Span)
  /-- The closing brackets without a partner, the last one first. -/
  unmatched : List Span
  /-- The label of the next loop. -/
  nextLabel : Nat

namespace Reading

def start : Reading :=
  ⟨[], [], [], 0⟩

def push (r : Reading) (command : Command) (span : Span) : Reading :=
  { r with commands := ⟨command, span⟩ :: r.commands }

/-- Adds a repeatable instruction, to the last command if that has the same kind and ends where this
starts. -/
def pushRepeatable (r : Reading) (kind : Repeatable) (span : Span) : Reading :=
  match r.commands with
  | ⟨.run last count, before⟩ :: earlier =>
    if last = kind ∧ before.stop.offset = span.start.offset then
      { r with commands := ⟨.run kind (count + 1), before.join span⟩ :: earlier }
    else r.push (.run kind 1) span
  | _ => r.push (.run kind 1) span

def step (r : Reading) (token : Token) : Reading :=
  match token.instruction with
  | .right => r.pushRepeatable .right token.span
  | .left => r.pushRepeatable .left token.span
  | .increment => r.pushRepeatable .increment token.span
  | .decrement => r.pushRepeatable .decrement token.span
  | .read => r.push .read token.span
  | .write => r.push .write token.span
  | .loopBegin =>
    { r.push (.beginLoop r.nextLabel) token.span with
      opened := (r.nextLabel, token.span) :: r.opened
      nextLabel := r.nextLabel + 1 }
  | .loopEnd =>
    match r.opened with
    | [] => { r with unmatched := token.span :: r.unmatched }
    | (label, _) :: opened => { r.push (.endLoop label) token.span with opened }

/-- The faulty brackets: first the closing ones, then the opening ones, each in the order of the
text. -/
def errors (r : Reading) : List BracketError :=
  r.unmatched.reverse.map (⟨.unmatchedClose, ·⟩) ++
    r.opened.reverse.map fun (_, span) => ⟨.unclosedLoop, span⟩

/-- The program, if no bracket is faulty. -/
def finish (r : Reading) : Except (List BracketError) Program :=
  match r.errors with
  | [] => .ok ⟨r.commands.reverse, r.nextLabel⟩
  | errors => .error errors

end Reading

/-- Groups instructions into a program. -/
def Program.ofTokens (tokens : List Token) : Except (List BracketError) Program :=
  (tokens.foldl Reading.step .start).finish

def Source.program (s : Source) : Except (List BracketError) Program :=
  Program.ofTokens s.tokens

end TapeToolchain
