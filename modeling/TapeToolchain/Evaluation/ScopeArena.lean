import TapeToolchain.Evaluation.Scopes

/-!
Scopes in an arena. Each scope has a record, which links to the record of the scope around it, and
the arena knows which record is the current one. A scope is opened at the end of the arena; when it
closes, the last record is discarded, and the next scope takes its place.

A link leads to an earlier record, so that following the links comes to an end.
-/

namespace TapeToolchain

/-- A scope, and the index of the scope around it. -/
structure ScopeRecord where
  parent : Option Nat
  scope : Scope

/-- The records of the open scopes, and which of them is current. -/
structure ScopeArena where
  records : Array ScopeRecord
  current : Fin records.size
  parent_lt : ∀ id : Fin records.size, ∀ parent ∈ records[id].parent, parent < id

namespace ScopeArena

/-- A step on an arena, which may change it even if it fails. -/
abbrev Action := EStateM CompileError ScopeArena

def root : ScopeArena where
  records := #[⟨none, .empty⟩]
  current := ⟨0, by decide⟩
  parent_lt := by simp

def record (a : ScopeArena) (id : Fin a.records.size) : ScopeRecord :=
  a.records[id]

theorem parent_lt_of_mem (a : ScopeArena) (id : Fin a.records.size) :
    ∀ parent ∈ (a.record id).parent, parent < id :=
  a.parent_lt id

def scope (a : ScopeArena) : Scope :=
  (a.record a.current).scope

/-- The record that a record links to, which comes before it. -/
def enclosing (a : ScopeArena) (id : Fin a.records.size) : Option (Fin id) :=
  (a.record id).parent.pmap Fin.mk (a.parent_lt_of_mem id)

/-- The number of links from a record to the root. -/
def links (a : ScopeArena) (id : Fin a.records.size) : Nat :=
  match a.enclosing id with
  | none => 0
  | some parent => a.links (parent.castLE id.is_le') + 1
termination_by id.val

/-- The number of scopes above the root. -/
def depth (a : ScopeArena) : Nat :=
  a.links a.current

/-- The number of records, with that of the root. -/
def size (a : ScopeArena) : Nat :=
  a.records.size

def modifyScope (a : ScopeArena) (f : Scope → Scope) : ScopeArena where
  records := a.records.modify a.current fun r => { r with scope := f r.scope }
  current := ⟨a.current, by simp⟩
  parent_lt := by
    intro id parent hparent
    simp only [Fin.getElem_fin, Array.getElem_modify] at hparent
    split at hparent <;> exact a.parent_lt ⟨id, by simpa using id.isLt⟩ parent hparent

/-- Opens a scope inside the current one and gives its index. -/
def push : Action Nat := fun a =>
  .ok a.records.size
    { records := a.records.push ⟨some a.current, .empty⟩
      current := ⟨a.records.size, by simp⟩
      parent_lt := by
        intro id parent hparent
        simp only [Fin.getElem_fin, Array.getElem_push] at hparent
        split at hparent
        · next h => exact a.parent_lt ⟨id, h⟩ parent hparent
        · next h =>
          have hparent : parent = a.current := by simpa using hparent.symm
          omega }

theorem size_pos (a : ScopeArena) : 0 < a.records.size :=
  Nat.zero_lt_of_lt a.current.isLt

/-- Closes the current scope and gives the cells to be freed. The root cannot be closed. -/
def pop : Action (List Int) := fun a =>
  match a.enclosing a.current with
  | none => .error .unbalancedScope a
  | some parent =>
    .ok (a.records.back a.size_pos).scope.release
      { records := a.records.pop
        current := ⟨parent, by simp; omega⟩
        parent_lt := by
          intro id parent hparent
          simp only [Fin.getElem_fin, Array.getElem_pop] at hparent
          exact a.parent_lt ⟨id, Nat.lt_of_lt_of_le id.isLt (by simp)⟩ parent hparent }

def declare (name : Symbol) : Action Unit := fun a =>
  match a.scope.bound.lookup name with
  | some _ => .error (.duplicateDeclaration name) a
  | none => .ok () (a.modifyScope fun s => { s with bound := (name, none) :: s.bound })

def set (name : Symbol) (value : Atom) : Action Unit := fun a =>
  match a.scope.bound.lookup name with
  | none => .error (.undeclared name) a
  | some _ =>
    .ok () <| a.modifyScope fun s =>
      { s with bound := s.bound.map fun entry => if entry.1 = name then (name, some value)
        else entry }

/-- Has the current scope free a cell when it closes, after those it has already. -/
def releaseOnExit (offset : Int) : Action Unit := fun a =>
  .ok () (a.modifyScope fun s => { s with release := s.release ++ [offset] })

/-- The value of a name in the scope of a record, or in the nearest one around it that declares the
name. -/
def lookupFrom (a : ScopeArena) (name : Symbol) (id : Fin a.records.size) :
    Except CompileError Atom :=
  match (a.record id).scope.bound.lookup name with
  | some (some value) => .ok value
  | some none => .error (.unset name)
  | none =>
    match a.enclosing id with
    | none => .error (.unboundName name)
    | some parent => a.lookupFrom name (parent.castLE id.is_le')
termination_by id.val

def get (a : ScopeArena) (name : Symbol) : Except CompileError Atom :=
  a.lookupFrom name a.current

/-- The value of a name, from the scope around the current one outwards. -/
def outerGet (a : ScopeArena) (name : Symbol) : Except CompileError Atom :=
  match a.enclosing a.current with
  | none => .error (.unboundName name)
  | some parent => a.lookupFrom name (parent.castLE a.current.is_le')

/-- The value of an atom: names are looked up, everything else stands for itself. -/
def resolve (a : ScopeArena) : Atom → Except CompileError Atom
  | .name name => a.get name
  | atom => .ok atom

def outerResolve (a : ScopeArena) : Atom → Except CompileError Atom
  | .name name => a.outerGet name
  | atom => .ok atom

end ScopeArena

end TapeToolchain
