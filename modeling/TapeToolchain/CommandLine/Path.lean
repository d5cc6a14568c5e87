import TapeToolchain.CommandLine.Outcome

/-!
Paths to files. A path is followed name by name, so it is kept as the directories on the way and a
last name. Names and whole paths are limited in length, which is counted in bytes.
-/

namespace TapeToolchain.CommandLine

def nameLimit : Nat :=
  255

def pathLimit : Nat :=
  4095

/-- A path as it is followed. -/
structure Path where
  /-- Whether the path starts at the root, and not in the working directory. -/
  fromRoot : Bool
  /-- The directories on the way. -/
  way : List String
  /-- The last name. A path of slashes alone has none. -/
  last : Option String
  slashed : Bool

namespace Path

/-- Reads a path. Slashes next to each other count as one. -/
def ofText (text : String) : Except Cause Path :=
  if text = "" then .error .notFound
  else if pathLimit < text.utf8ByteSize then .error .nameTooLong
  else
    let names := (text.splitOn "/").filter (· ≠ "")
    .ok {
      fromRoot := text.toList.head? = some '/'
      way := names.dropLast
      last := names.getLast?
      slashed := text.toList.getLast? = some '/' }

def names (p : Path) : List String :=
  p.way ++ p.last.toList

end Path

/-- Where the names that lead to a place are counted from. -/
inductive Origin where
  | root
  /-- A directory some levels above the working directory, which itself is at level zero. -/
  | above (levels : Nat)
deriving DecidableEq

/-- A place in a file tree, by the names that lead to it. -/
structure Place where
  origin : Origin
  names : List String
deriving DecidableEq

namespace Place

def root : Place :=
  ⟨.root, []⟩

def working : Place :=
  ⟨.above 0, []⟩

/-- The directory that holds a place. The root holds itself. -/
def parent : Place → Place
  | ⟨.root, []⟩ => ⟨.root, []⟩
  | ⟨.above levels, []⟩ => ⟨.above (levels + 1), []⟩
  | ⟨origin, name :: names⟩ => ⟨origin, (name :: names).dropLast⟩

/-- The place that a name stands for in a directory. A dot is the directory itself, and two dots are
the one that holds it. -/
def step (p : Place) (name : String) : Except Cause Place :=
  if name = "." then .ok p
  else if name = ".." then .ok p.parent
  else if nameLimit < name.utf8ByteSize then .error .nameTooLong
  else .ok ⟨p.origin, p.names ++ [name]⟩

/-- Whether a place is a directory on the way to another one. -/
def leadsTo (p q : Place) : Bool :=
  p.origin = q.origin ∧ p.names.isPrefixOf q.names ∧ p ≠ q

end Place

end TapeToolchain.CommandLine
