import TapeToolchain.Proofs.Language.Tables
import TapeToolchain.SelfHosting.Assembler

/-!
The macros of the assembler as blocks of the structured language, so that what is known of blocks
applies to them. The table of the assembler is that of a program (`assembler_eq`).
-/

namespace TapeToolchain.SelfHosting

namespace Library

/-- Takes one away from what is left, and from what is still to be taken away. -/
def divUnit : Block :=
  .builtin .constantSub [.int 1, "i"] <|
  .builtin .constantSub [.int 1, "r"] <|
  .builtin .asLogical ["r", "t"] <|
  .builtin .logicalAnd ["i", "t", "t2"] .done

/-- Takes the divisor away once, if there is so much left. -/
def divRound : Block :=
  .localCell "i" <|
  .builtin .copy ["y", "i"] <|
  .localCell "t2" <|
  .builtin .logicalAnd ["i", "t", "t2"] <|
  .whileNonzero "t2" divUnit <|
  .localCell "t3" <|
  .builtin .logicalNot ["i", "t3"] <|
  .ifNonzero "t3" (.builtin .constantAdd [.int 1, "q"] .done) <|
  .localCell "t4" <|
  .builtin .logicalNot ["t3", "t4"] <|
  .ifNonzero "t4" (.builtin .clear ["t"] .done) .done

def divQ : Macro where
  name := "div_q"
  params := ["x", "y", "q"]
  body :=
    .localCell "r" <|
    .builtin .clear ["q"] <|
    .builtin .copy ["x", "r"] <|
    .localCell "t" <|
    .builtin .asLogical ["r", "t"] <|
    .whileNonzero "t" divRound .done

def divR : Macro where
  name := "div_r"
  params := ["x", "y", "q", "r"]
  body :=
    .builtin .copy ["x", "r"] <|
    .localCell "i" <|
    .builtin .copy ["q", "i"] <|
    .whileNonzero "i"
      (.builtin .stackSub ["y", "r"] <|
       .builtin .constantSub [.int 1, "i"] .done)
    .done

def div : Macro where
  name := "div"
  params := ["x", "y", "q", "r"]
  body :=
    .call "div_q" ["x", "y", "q"] <|
    .call "div_r" ["x", "y", "q", "r"] .done

def printHexDigit : Macro where
  name := "print_hex_digit"
  params := ["x"]
  body :=
    .localCell "y" <|
    .builtin .clear ["y"] <|
    .builtin .constantAdd [.int 10, "y"] <|
    .localCell "q" <|
    .localCell "r" <|
    .call "div" ["x", "y", "q", "r"] <|
    .ifNonzero "q" (.builtin .constantAdd [.ofChar 'a', "r"] .done) <|
    .localCell "not_q" <|
    .builtin .logicalNot ["q", "not_q"] <|
    .ifNonzero "not_q" (.builtin .constantAdd [.ofChar '0', "r"] .done) <|
    .builtin .putChar ["r"] .done

def printHexByte : Macro where
  name := "print_hex_byte"
  params := ["x"]
  body :=
    .localCell "y" <|
    .builtin .clear ["y"] <|
    .builtin .constantAdd [.int 16, "y"] <|
    .localCell "q" <|
    .localCell "r" <|
    .call "div" ["x", "y", "q", "r"] <|
    .call "print_hex_digit" ["q"] <|
    .call "print_hex_digit" ["r"] .done

def counterInit : Macro where
  name := "counter_init"
  params := ["x0", "x1"]
  body :=
    .builtin .clear ["x0"] <|
    .builtin .clear ["x1"] .done

def counterInc : Macro where
  name := "counter_inc"
  params := ["x0", "x1"]
  body :=
    .builtin .constantAdd [.int 1, "x0"] <|
    .localCell "test" <|
    .builtin .logicalNot ["x0", "test"] <|
    .ifNonzero "test"
      (.builtin .clear ["x0"] <|
       .builtin .constantAdd [.int 1, "x1"] .done)
    .done

def counterPrint : Macro where
  name := "counter_print"
  params := ["x0", "x1"]
  body :=
    .call "print_hex_byte" ["x1"] <|
    .call "print_hex_byte" ["x0"] .done

def inputInit : Macro where
  name := "input_init"
  params := ["n", "c", "c_next"]
  body :=
    .builtin .clear ["c"] <|
    .builtin .clear ["n"] <|
    .builtin .clear ["c_next"] <|
    .builtin .getChar ["c_next"] <|
    .call "input_update" ["n", "c", "c_next"] .done

/-- Takes the next character into the run, and looks whether the one after it belongs there too. -/
def inputMerge : Block :=
  .builtin .copy ["c_next", "c"] <|
  .builtin .constantAdd [.int 1, "n"] <|
  .builtin .clear ["merge_ok"] <|
  .ifNonzero "c_next"
    (.builtin .clear ["c_next"] <|
     .builtin .getChar ["c_next"] <|
     .builtin .copy ["c_next", "not_match"] <|
     .builtin .stackSub ["c", "not_match"] <|
     .builtin .logicalNot ["not_match", "merge_ok"] .done)
  .done

def inputUpdate : Macro where
  name := "input_update"
  params := ["n", "c", "c_next"]
  body :=
    .localCell "n_is_zero" <|
    .builtin .logicalNot ["n", "n_is_zero"] <|
    .localCell "not_match" <|
    .builtin .copy ["c_next", "not_match"] <|
    .builtin .stackSub ["c", "not_match"] <|
    .localCell "match" <|
    .builtin .logicalNot ["not_match", "match"] <|
    .localCell "merge_ok" <|
    .builtin .logicalOr ["n_is_zero", "match", "merge_ok"] <|
    .whileNonzero "merge_ok" inputMerge .done

def inputHasNext : Macro where
  name := "input_has_next"
  params := ["n", "c", "c_next", "result_has_next"]
  body := .builtin .copy ["c", "result_has_next"] .done

def inputPeekChar : Macro where
  name := "input_peek_char"
  params := ["n", "c", "c_next", "result_c"]
  body := .builtin .copy ["c", "result_c"] .done

def inputConsumeChar : Macro where
  name := "input_consume_char"
  params := ["n", "c", "c_next"]
  body := .builtin .constantSub [.int 1, "n"] .done

def inputConsumeRun : Macro where
  name := "input_consume_run"
  params := ["n", "c", "c_next", "result_n"]
  body :=
    .builtin .copy ["n", "result_n"] <|
    .builtin .clear ["n"] .done

def isEqual : Macro where
  name := "is_equal"
  params := ["const", "src", "dst"]
  body :=
    .localCell "temp" <|
    .builtin .copy ["src", "temp"] <|
    .builtin .constantSub ["const", "temp"] <|
    .builtin .logicalNot ["temp", "dst"] .done

/-- The macros that the entry calls. -/
def macros : List Macro :=
  [divQ, divR, div, printHexDigit, printHexByte, counterInit, counterInc, counterPrint, inputInit,
    inputUpdate, inputHasNext, inputPeekChar, inputConsumeChar, inputConsumeRun, isEqual]

end Library

/-! ## The entry -/

namespace Assembler

/-- A text is written before the rest of a block. -/
def putBlock (text : String) (rest : Block) : Block :=
  .builtin .putStringConstant [.text text] rest

/-- What is done when the current character is the given one. -/
def branchBlock (branch : Char × (Block → Block)) (rest : Block) : Block :=
  .call "is_equal" [.ofChar branch.1, "c", "match"] <|
  .ifNonzero "match" (branch.2 (.builtin .clear ["no_match_found"] .done)) rest

/-- A repeatable instruction: the whole run is taken, and its length written. -/
def runBlock (f : ImmediateFragment) (rest : Block) : Block :=
  .localCell "run_length" <|
  .call "input_consume_run" (inputAnd ["run_length"]) <|
  putBlock f.before <|
  .call "print_hex_byte" ["run_length"] <|
  putBlock f.after rest

def charBlock (text : String) (rest : Block) : Block :=
  .call "input_consume_char" (inputAnd []) <|
  putBlock text rest

/-- A bracket: one character is taken, and the label written twice. -/
def loopBlock (f : LoopFragment) (low high : Atom) (rest : Block) : Block :=
  .call "input_consume_char" (inputAnd []) <|
  putBlock f.first <|
  .call "counter_print" [low, high] <|
  putBlock f.second <|
  .call "counter_print" [low, high] <|
  putBlock f.third rest

/-- The label is kept on the stack, and the counter goes on. -/
def openBlock (rest : Block) : Block :=
  .builtin .growStack [.int 2] <|
  .builtin .copy ["name_counter_0", .address (-2)] <|
  .builtin .copy ["name_counter_1", .address (-1)] <|
  .call "counter_inc" ["name_counter_0", "name_counter_1"] rest

/-- The instructions with what is done for them. -/
def branches (f : Fragments) : List (Char × (Block → Block)) :=
  [('+', runBlock f.incrementBy), ('-', runBlock f.decrementBy), ('<', runBlock f.leftBy),
    ('>', runBlock f.rightBy),
    ('[', fun rest => loopBlock f.loopBegin "name_counter_0" "name_counter_1" (openBlock rest)),
    (']', fun rest => loopBlock f.loopEnd (.address (-2)) (.address (-1))
      (.builtin .shrinkStack [.int 2] rest)),
    (',', charBlock f.readChar), ('.', charBlock f.writeChar)]

/-- The next run is read if the current one is used up. -/
def nextBlock : Block :=
  .call "input_update" (inputAnd []) <|
  .call "input_has_next" (inputAnd ["input_ok"]) .done

/-- The work on one run of the input, or on one character of it. -/
def stepBlock (f : Fragments) : Block :=
  .builtin .clear ["no_match_found"] <|
  .builtin .constantAdd [.int 1, "no_match_found"] <|
  .call "input_peek_char" (inputAnd ["c"]) <|
  (branches f).foldr branchBlock <|
  .ifNonzero "no_match_found" (.call "input_consume_char" (inputAnd []) .done) nextBlock

def main (f : Fragments) : Macro where
  name := "main"
  params := []
  body :=
    .localCell "name_counter_0" <|
    .localCell "name_counter_1" <|
    .call "counter_init" ["name_counter_0", "name_counter_1"] <|
    .localCell "input0" <|
    .localCell "input1" <|
    .localCell "input2" <|
    .call "input_init" (inputAnd []) <|
    .localCell "input_ok" <|
    .call "input_has_next" (inputAnd ["input_ok"]) <|
    putBlock f.programStart <|
    .localCell "match" <|
    .localCell "no_match_found" <|
    .localCell "c" <|
    .whileNonzero "input_ok" (stepBlock f) <|
    putBlock f.programEnd .done

end Assembler

def macros (f : Fragments) : List Macro :=
  Library.macros ++ [Assembler.main f]

def program (f : Fragments) : MacroProgram :=
  (macros f).foldl MacroProgram.add ⟨[]⟩

theorem drafts_eq (f : Fragments) :
    division ++ hexOutput ++ counter ++ input ++ comparison ++ [("main", [], mainBody f)] =
      (macros f).map Macro.entry := rfl

theorem names_nodup (f : Fragments) : ((macros f).map Macro.name).Nodup := by
  have hnames : (macros f).map Macro.name = Library.macros.map Macro.name ++ ["main"] := rfl
  rw [hnames]
  decide

theorem params_nodup (f : Fragments) : ∀ m ∈ macros f, m.params.Nodup := by
  have hparams : ∀ params ∈ (macros f).map Macro.params, params.Nodup := by
    have heq : (macros f).map Macro.params = Library.macros.map Macro.params ++ [[]] := rfl
    rw [heq]
    decide
  exact fun m hm => hparams _ (List.mem_map.2 ⟨m, hm, rfl⟩)

/-- The table of the assembler is that of its program. -/
theorem assembler_eq (target : Target) :
    assembler target = .ok (program target.fragments).table := by
  rw [assembler, drafts_eq]
  exact MacroProgram.defineAll_of_nodup _ (names_nodup _) (params_nodup _)

theorem find?_program (f : Fragments) (name : String) :
    (program f).find? name = (macros f).find? fun m => m.name == name :=
  MacroProgram.find?_foldl_add (names_nodup f) name

end TapeToolchain.SelfHosting
