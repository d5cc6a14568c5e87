import TapeToolchain.Proofs.Language.Syntax

/-!
What programs mean, without regard to cells. A local cell is a byte variable of its block. A name
stands for a variable or a constant; a parameter stands for what its argument stands for in the
caller, and a name that a macro does not declare is looked up in the caller. Programs that resize
the frame or open and close loops by themselves have no meaning here.

A run may go on forever, so an execution is given a depth, and one that is cut off at this depth
still tells the output up to there.
-/

namespace TapeToolchain

/-- What an operand stands for: a variable, by its number, or a constant. -/
inductive Referent where
  | var (number : Nat)
  | int (value : Int)
  | text (value : String)
deriving DecidableEq

/-- The names in scope with what they stand for, the innermost first. -/
abbrev Environment := List (String × Referent)

namespace Environment

/-- What an operand stands for. Hidden names and addresses are no part of the language. -/
def meaning? (env : Environment) : Atom → Option Referent
  | .name ⟨x, false⟩ => env.lookup x
  | .int n => some (.int n)
  | .text t => some (.text t)
  | .name ⟨_, true⟩ | .address _ => none

def meanings? (env : Environment) : List Atom → Option (List Referent)
  | [] => some []
  | a :: rest => do
    let r ← env.meaning? a
    return r :: (← env.meanings? rest)

/-- Binds parameters, one after the other. -/
def bind (env : Environment) : List String → List Referent → Environment
  | x :: xs, r :: rs => bind ((x, r) :: env) xs rs
  | _, _ => env

end Environment

/-- The variables of the open blocks, the oldest first, the input that is left, and the output so
far. -/
structure World where
  vars : List UInt8
  input : List UInt8
  output : List UInt8
deriving DecidableEq

namespace World

def get (w : World) (i : Nat) : UInt8 :=
  w.vars.getD i 0

def set (w : World) (i : Nat) (value : UInt8) : World :=
  { w with vars := w.vars.set i value }

/-- Reads the next byte of the input into a variable, if there is one. -/
def receive (w : World) (i : Nat) : World :=
  match w.input with
  | [] => w
  | byte :: rest => { w.set i byte with input := rest }

def send (w : World) (bytes : List UInt8) : World :=
  { w with output := w.output ++ bytes }

def declare (w : World) (value : UInt8) : World :=
  { w with vars := w.vars ++ [value] }

/-- Closes a block: only the first `count` variables remain. -/
def close (w : World) (count : Nat) : World :=
  { w with vars := w.vars.take count }

end World

/-- What a built-in does to the variables, the input and the output, in arithmetic modulo 256. -/
def Builtin.perform (b : Builtin) (operands : List Referent) (w : World) : Option World :=
  match b, operands with
  | .clear, [.var dst] => some (w.set dst 0)
  | .destructiveAdd, [.var src, .var dst] => some ((w.set dst (w.get dst + w.get src)).set src 0)
  | .destructiveSub, [.var src, .var dst] => some ((w.set dst (w.get dst - w.get src)).set src 0)
  | .move, [.var src, .var dst] => some ((w.set dst (w.get src)).set src 0)
  | .copy, [.var src, .var dst] => some (w.set dst (w.get src))
  | .stackAdd, [.var src, .var dst] => some (w.set dst (w.get dst + w.get src))
  | .stackSub, [.var src, .var dst] => some (w.set dst (w.get dst - w.get src))
  | .constantAdd, [.int n, .var dst] => some (w.set dst (w.get dst + UInt8.ofInt n))
  | .constantSub, [.int n, .var dst] => some (w.set dst (w.get dst - UInt8.ofInt n))
  | .asLogical, [.var src, .var dst] => some (w.set dst (if w.get src = 0 then 0 else 1))
  | .logicalNot, [.var src, .var dst] => some (w.set dst (if w.get src = 0 then 1 else 0))
  | .logicalAnd, [.var a, .var b, .var dst] =>
    some (w.set dst (if w.get a ≠ 0 ∧ w.get b ≠ 0 then 1 else 0))
  | .logicalOr, [.var a, .var b, .var dst] =>
    some (w.set dst (if w.get a ≠ 0 ∨ w.get b ≠ 0 then 1 else 0))
  | .getChar, [.var dst] => some (w.receive dst)
  | .putChar, [.var src] => some (w.send [w.get src])
  | .putStringConstant, [.text t] => some (w.send (t.toList.map fun c => UInt8.ofNat c.toNat))
  | _, _ => none

/-- How far a run has come: to its end, to the depth that it was given, or to a statement without a
meaning. -/
inductive Execution where
  | finished (w : World)
  | unfinished (output : List UInt8)
  | stuck
deriving DecidableEq

namespace Execution

/-- Goes on after a run that has come to its end. -/
def andThen : Execution → (World → Execution) → Execution
  | finished w, next => next w
  | unfinished out, _ => unfinished out
  | stuck, _ => stuck

/-- Closes the block that the run was about. -/
def close (count : Nat) : Execution → Execution
  | finished w => finished (w.close count)
  | unfinished out => unfinished out
  | stuck => stuck

/-- The output up to where the run has come. -/
def output : Execution → List UInt8
  | finished w => w.output
  | unfinished out => out
  | stuck => []

@[simp] theorem andThen_finished (e : Execution) : e.andThen finished = e := by
  cases e <;> rfl

theorem close_andThen (e : Execution) (next : World → Execution) (count : Nat) :
    (e.andThen next).close count = e.andThen fun w => (next w).close count := by
  cases e <;> rfl

theorem close_close {m n : Nat} (h : n ≤ m) (e : Execution) : (e.close m).close n = e.close n := by
  cases e with
  | finished w =>
    simp only [close, World.close, List.take_take, Nat.min_eq_left h]
  | unfinished _ | stuck => rfl

end Execution

namespace MacroProgram

/-- The execution of a block down to a depth. A new variable holds `fresh`, which may be
anything. -/
def exec (p : MacroProgram) (fresh : UInt8) : Nat → Environment → Block → World → Execution
  | 0, _, _, w => .unfinished w.output
  | _ + 1, _, .done, w => .finished w
  | n + 1, env, .localCell x rest, w =>
    exec p fresh n ((x, .var w.vars.length) :: env) rest (w.declare fresh)
  | n + 1, env, .ifNonzero c body rest, w =>
    match env.meaning? c with
    | some (.var i) =>
      if w.get i = 0 then exec p fresh n env rest w
      else ((exec p fresh n env body w).close w.vars.length).andThen (exec p fresh n env rest)
    | _ => .stuck
  | n + 1, env, .whileNonzero c body rest, w =>
    match env.meaning? c with
    | some (.var i) =>
      if w.get i = 0 then exec p fresh n env rest w
      else ((exec p fresh n env body w).close w.vars.length).andThen
        (exec p fresh n env (.whileNonzero c body rest))
    | _ => .stuck
  | n + 1, env, .call f args rest, w =>
    match p.find? f, env.meanings? args with
    | some m, some values =>
      if m.params.length = args.length then
        ((exec p fresh n (env.bind m.params values) m.body w).close w.vars.length).andThen
          (exec p fresh n env rest)
      else .stuck
    | none, some values =>
      match (Builtin.ofName? f).bind fun b => b.perform values w with
      | some w' => exec p fresh n env rest w'
      | none => .stuck
    | _, none => .stuck
  | n + 1, env, .builtin b args rest, w =>
    match (env.meanings? args).bind fun values => b.perform values w with
    | some w' => exec p fresh n env rest w'
    | none => .stuck

/-- A local cell is one more variable in the rest of the block. -/
theorem exec_localCell (p : MacroProgram) (fresh : UInt8) (n : Nat) (env : Environment) (x : String)
    (rest : Block) (w : World) :
    p.exec fresh (n + 1) env (.localCell x rest) w =
      p.exec fresh n ((x, .var w.vars.length) :: env) rest (w.declare fresh) := by
  rw [exec]

/-- The execution of a program: that of its entry macro, whose parameters stand for nothing. -/
def execFrom (p : MacroProgram) (fresh : UInt8) (entry : String) (input : List UInt8) (n : Nat) :
    Execution :=
  match p.find? entry with
  | some m => p.exec fresh n [] m.body ⟨[], input, []⟩
  | none => .stuck

end MacroProgram

end TapeToolchain
