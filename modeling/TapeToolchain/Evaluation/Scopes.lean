import TapeToolchain.CompileError

/-!
Nested scopes. A scope maps the names it declares to values, which may be missing at first, and
lists the cells that are freed when it closes. Scopes form a stack on top of a root that never
closes.
-/

namespace TapeToolchain

/-- The names of one scope and the cells it will free, in order. -/
structure Scope where
  bound : List (Symbol × Option Atom)
  release : List Int

def Scope.empty : Scope :=
  ⟨[], []⟩

/-- The current scope and the scopes around it, the nearest first. -/
structure Scopes where
  current : Scope
  outer : List Scope

/-- The value of a name in the nearest scope that declares it. -/
def lookupIn (name : Symbol) : List Scope → Except CompileError Atom
  | [] => .error (.unboundName name)
  | scope :: outer =>
    match scope.bound.lookup name with
    | some (some value) => .ok value
    | some none => .error (.unset name)
    | none => lookupIn name outer

namespace Scopes

def root : Scopes :=
  ⟨.empty, []⟩

/-- The number of scopes above the root. -/
def depth (s : Scopes) : Nat :=
  s.outer.length

/-- The number of scopes with the root. -/
def size (s : Scopes) : Nat :=
  s.depth + 1

def atRoot (s : Scopes) : Bool :=
  s.outer.isEmpty

/-- Opens a scope inside the current one. -/
def push (s : Scopes) : Scopes :=
  ⟨.empty, s.current :: s.outer⟩

/-- Closes the current scope and gives the cells to be freed. The root cannot be closed. -/
def pop (s : Scopes) : Except CompileError (List Int × Scopes) :=
  match s.outer with
  | [] => .error .unbalancedScope
  | parent :: outer => .ok (s.current.release, ⟨parent, outer⟩)

/-- Declares a name in the current scope, without a value. -/
def declare (s : Scopes) (name : Symbol) : Except CompileError Scopes :=
  match s.current.bound.lookup name with
  | some _ => .error (.duplicateDeclaration name)
  | none => .ok { s with current.bound := (name, none) :: s.current.bound }

/-- Gives a value to a name that the current scope declares. -/
def set (s : Scopes) (name : Symbol) (value : Atom) : Except CompileError Scopes :=
  match s.current.bound.lookup name with
  | none => .error (.undeclared name)
  | some _ =>
    .ok { s with
      current.bound := s.current.bound.map fun entry =>
        if entry.1 = name then (name, some value) else entry }

/-- The value of a name, from the current scope outwards. -/
def get (s : Scopes) (name : Symbol) : Except CompileError Atom :=
  lookupIn name (s.current :: s.outer)

/-- The value of a name, from the scope around the current one outwards. A parameter takes its value
in this way, so that an argument of the same name means the caller's. -/
def outerGet (s : Scopes) (name : Symbol) : Except CompileError Atom :=
  lookupIn name s.outer

/-- The value of an atom: names are looked up, everything else stands for itself. -/
def resolve (s : Scopes) : Atom → Except CompileError Atom
  | .name name => s.get name
  | atom => .ok atom

/-- The value of an atom outside of the current scope. -/
def outerResolve (s : Scopes) : Atom → Except CompileError Atom
  | .name name => s.outerGet name
  | atom => .ok atom

/-- Has the current scope free a cell when it closes, after those it has already. -/
def releaseOnExit (s : Scopes) (offset : Int) : Scopes :=
  { s with current.release := s.current.release ++ [offset] }

end Scopes

end TapeToolchain
