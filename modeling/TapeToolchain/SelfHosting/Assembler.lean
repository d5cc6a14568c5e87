import TapeToolchain.Assembly.Target
import TapeToolchain.SelfHosting.Library

/-!
An assembler written in the macro language. Compiled, it is a tape program that reads an instruction
stream and writes its assembly with immediates.

The labels of the open loops are stacked below the frame: a loop's start grows the frame by two
cells and keeps its label there, a loop's end reads it from offsets -2 and -1 before it shrinks the
frame.
-/

namespace TapeToolchain.SelfHosting

open Statement (localCell ifNonzero whileNonzero call invoke)

/-- The cells of the input's state, with further ones after them. -/
def inputAnd (extra : List Atom) : List Atom :=
  "input0" :: "input1" :: "input2" :: extra

def put (text : String) : Node :=
  invoke .putStringConstant [.text text]

/-- What is done when the current character is the given one. -/
def branch (c : Char) (body : List Node) : List Node :=
  [call "is_equal" [.ofChar c, "c", "match"],
   ifNonzero "match" (body ++ [invoke .clear ["no_match_found"]])]

/-- A repeatable instruction: takes the whole run and writes its length as an immediate. -/
def runBranch (c : Char) (f : ImmediateFragment) : List Node :=
  branch c
    [localCell "run_length",
     call "input_consume_run" (inputAnd ["run_length"]),
     put f.before,
     call "print_hex_byte" ["run_length"],
     put f.after]

/-- An instruction without a number. -/
def charBranch (c : Char) (text : String) : List Node :=
  branch c
    [call "input_consume_char" (inputAnd []),
     put text]

/-- A bracket: writes the label in `low` and `high` between the pieces, then does the rest. -/
def loopBranch (c : Char) (f : LoopFragment) (low high : Atom) (rest : List Node) : List Node :=
  branch c <|
    [call "input_consume_char" (inputAnd []),
     put f.first,
     call "counter_print" [low, high],
     put f.second,
     call "counter_print" [low, high],
     put f.third] ++ rest

/-- The work on one run of the input. -/
def step (f : Fragments) : List Node :=
  [invoke .clear ["no_match_found"],
   invoke .constantAdd [.int 1, "no_match_found"],
   call "input_peek_char" (inputAnd ["c"])] ++
  runBranch '+' f.incrementBy ++
  runBranch '-' f.decrementBy ++
  runBranch '<' f.leftBy ++
  runBranch '>' f.rightBy ++
  loopBranch '[' f.loopBegin "name_counter_0" "name_counter_1"
    [invoke .growStack [.int 2],
     invoke .copy ["name_counter_0", .address (-2)],
     invoke .copy ["name_counter_1", .address (-1)],
     call "counter_inc" ["name_counter_0", "name_counter_1"]] ++
  loopBranch ']' f.loopEnd (.address (-2)) (.address (-1)) [invoke .shrinkStack [.int 2]] ++
  charBranch ',' f.readChar ++
  charBranch '.' f.writeChar ++
  [ifNonzero "no_match_found" [call "input_consume_char" (inputAnd [])],
   call "input_update" (inputAnd []),
   call "input_has_next" (inputAnd ["input_ok"])]

def mainBody (f : Fragments) : List Node :=
  [localCell "name_counter_0",
   localCell "name_counter_1",
   call "counter_init" ["name_counter_0", "name_counter_1"],
   localCell "input0",
   localCell "input1",
   localCell "input2",
   call "input_init" (inputAnd []),
   localCell "input_ok",
   call "input_has_next" (inputAnd ["input_ok"]),
   put f.programStart,
   localCell "match",
   localCell "no_match_found",
   localCell "c",
   whileNonzero "input_ok" (step f),
   put f.programEnd]

/-- The macros of the assembler for a target; the entry is `main`. -/
def assembler (target : Target) : Except CompileError MacroTable :=
  MacroTable.empty.defineAll <|
    division ++ hexOutput ++ counter ++ input ++ comparison ++
      [("main", [], mainBody target.fragments)]

end TapeToolchain.SelfHosting
