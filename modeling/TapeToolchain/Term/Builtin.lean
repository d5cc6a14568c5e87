/-!
The twenty built-in operations on cells, with their names and the names of their operands.
-/

namespace TapeToolchain

inductive Builtin where
  | clear
  | destructiveAdd
  | destructiveSub
  | move
  | copy
  | stackAdd
  | stackSub
  | constantAdd
  | constantSub
  | asLogical
  | logicalNot
  | logicalAnd
  | logicalOr
  | getChar
  | putChar
  | putStringConstant
  | beginLoop
  | endLoop
  | growStack
  | shrinkStack
deriving DecidableEq

namespace Builtin

/-- Every built-in, in the order of the library. -/
def all : List Builtin :=
  [clear, destructiveAdd, destructiveSub, move, copy, stackAdd, stackSub, constantAdd, constantSub,
   asLogical, logicalNot, logicalAnd, logicalOr, getChar, putChar, putStringConstant, beginLoop,
   endLoop, growStack, shrinkStack]

/-- The name by which macros call a built-in. -/
def name : Builtin → String
  | clear => "clear"
  | destructiveAdd => "destructive_add"
  | destructiveSub => "destructive_sub"
  | move => "move"
  | copy => "copy"
  | stackAdd => "stack_add"
  | stackSub => "stack_sub"
  | constantAdd => "constant_add"
  | constantSub => "constant_sub"
  | asLogical => "as_logical"
  | logicalNot => "logical_not"
  | logicalAnd => "logical_and"
  | logicalOr => "logical_or"
  | getChar => "get_char"
  | putChar => "put_char"
  | putStringConstant => "put_string_constant"
  | beginLoop => "begin_loop"
  | endLoop => "end_loop"
  | growStack => "grow_stack"
  | shrinkStack => "shrink_stack"

/-- The names of the operands, in order. -/
def params : Builtin → List String
  | clear | getChar => ["dst"]
  | destructiveAdd | destructiveSub | move | copy | stackAdd | stackSub | asLogical | logicalNot =>
    ["src", "dst"]
  | constantAdd | constantSub => ["constant", "dst"]
  | logicalAnd | logicalOr => ["src_a", "src_b", "dst"]
  | putChar | beginLoop | endLoop => ["src"]
  | putStringConstant => ["string"]
  | growStack | shrinkStack => ["size"]

def arity (b : Builtin) : Nat :=
  b.params.length

def ofName? (name : String) : Option Builtin :=
  all.find? fun b => b.name == name

theorem mem_all (b : Builtin) : b ∈ all := by
  cases b <;> decide

end Builtin

end TapeToolchain
