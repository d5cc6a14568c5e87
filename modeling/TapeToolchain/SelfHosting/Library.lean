import TapeToolchain.Term.Definition

/-!
Macros for programs that read instruction streams on the tape machine itself: division, hexadecimal
output, a two-byte counter, and input grouped into runs.

The input's state is three cells: a run's length `n`, its character `c`, and the character `c_next`
read after it. A zero character marks the end of the input.
-/

namespace TapeToolchain.SelfHosting

open Statement (localCell ifNonzero whileNonzero call invoke)

/-- A macro to be defined: name, parameters, body. -/
abbrev Draft := String × List String × List Node

/-- Division of bytes. The quotient is found by counting subtractions of the divisor, unit by unit;
the remainder is what is left after subtracting it as often. -/
def division : List Draft :=
  [("div_q", ["x", "y", "q"],
    [localCell "r",
     invoke .clear ["q"],
     invoke .copy ["x", "r"],
     localCell "t",
     invoke .asLogical ["r", "t"],
     whileNonzero "t"
       [localCell "i",
        invoke .copy ["y", "i"],
        localCell "t2",
        invoke .logicalAnd ["i", "t", "t2"],
        whileNonzero "t2"
          [invoke .constantSub [.int 1, "i"],
           invoke .constantSub [.int 1, "r"],
           invoke .asLogical ["r", "t"],
           invoke .logicalAnd ["i", "t", "t2"]],
        localCell "t3",
        invoke .logicalNot ["i", "t3"],
        ifNonzero "t3" [invoke .constantAdd [.int 1, "q"]],
        localCell "t4",
        invoke .logicalNot ["t3", "t4"],
        ifNonzero "t4" [invoke .clear ["t"]]]]),
   ("div_r", ["x", "y", "q", "r"],
    [invoke .copy ["x", "r"],
     localCell "i",
     invoke .copy ["q", "i"],
     whileNonzero "i" [invoke .stackSub ["y", "r"], invoke .constantSub [.int 1, "i"]]]),
   ("div", ["x", "y", "q", "r"],
    [call "div_q" ["x", "y", "q"],
     call "div_r" ["x", "y", "q", "r"]])]

/-- Output of a byte in two hexadecimal digits. -/
def hexOutput : List Draft :=
  [("print_hex_digit", ["x"],
    [localCell "y",
     invoke .clear ["y"],
     invoke .constantAdd [.int 10, "y"],
     localCell "q",
     localCell "r",
     call "div" ["x", "y", "q", "r"],
     ifNonzero "q" [invoke .constantAdd [.ofChar 'a', "r"]],
     localCell "not_q",
     invoke .logicalNot ["q", "not_q"],
     ifNonzero "not_q" [invoke .constantAdd [.ofChar '0', "r"]],
     invoke .putChar ["r"]]),
   ("print_hex_byte", ["x"],
    [localCell "y",
     invoke .clear ["y"],
     invoke .constantAdd [.int 16, "y"],
     localCell "q",
     localCell "r",
     call "div" ["x", "y", "q", "r"],
     call "print_hex_digit" ["q"],
     call "print_hex_digit" ["r"]])]

/-- A counter of two bytes, the low one first, which is printed in four digits. -/
def counter : List Draft :=
  [("counter_init", ["x0", "x1"], [invoke .clear ["x0"], invoke .clear ["x1"]]),
   ("counter_inc", ["x0", "x1"],
    [invoke .constantAdd [.int 1, "x0"],
     localCell "test",
     invoke .logicalNot ["x0", "test"],
     ifNonzero "test" [invoke .clear ["x0"], invoke .constantAdd [.int 1, "x1"]]]),
   ("counter_print", ["x0", "x1"],
    [call "print_hex_byte" ["x1"],
     call "print_hex_byte" ["x0"]])]

/-- Input in runs. An update reads on while the run is empty or the next character belongs to it. -/
def input : List Draft :=
  [("input_init", ["n", "c", "c_next"],
    [invoke .clear ["c"],
     invoke .clear ["n"],
     invoke .clear ["c_next"],
     invoke .getChar ["c_next"],
     call "input_update" ["n", "c", "c_next"]]),
   ("input_update", ["n", "c", "c_next"],
    [localCell "n_is_zero",
     invoke .logicalNot ["n", "n_is_zero"],
     localCell "not_match",
     invoke .copy ["c_next", "not_match"],
     invoke .stackSub ["c", "not_match"],
     localCell "match",
     invoke .logicalNot ["not_match", "match"],
     localCell "merge_ok",
     invoke .logicalOr ["n_is_zero", "match", "merge_ok"],
     whileNonzero "merge_ok"
       [invoke .copy ["c_next", "c"],
        invoke .constantAdd [.int 1, "n"],
        invoke .clear ["merge_ok"],
        ifNonzero "c_next"
          [invoke .clear ["c_next"],
           invoke .getChar ["c_next"],
           invoke .copy ["c_next", "not_match"],
           invoke .stackSub ["c", "not_match"],
           invoke .logicalNot ["not_match", "merge_ok"]]]]),
   ("input_has_next", ["n", "c", "c_next", "result_has_next"],
    [invoke .copy ["c", "result_has_next"]]),
   ("input_peek_char", ["n", "c", "c_next", "result_c"], [invoke .copy ["c", "result_c"]]),
   ("input_consume_char", ["n", "c", "c_next"], [invoke .constantSub [.int 1, "n"]]),
   ("input_consume_run", ["n", "c", "c_next", "result_n"],
    [invoke .copy ["n", "result_n"], invoke .clear ["n"]])]

def comparison : List Draft :=
  [("is_equal", ["const", "src", "dst"],
    [localCell "temp",
     invoke .copy ["src", "temp"],
     invoke .constantSub ["const", "temp"],
     invoke .logicalNot ["temp", "dst"]])]

end TapeToolchain.SelfHosting
