import TapeToolchain.CommandLine.Path

/-!
A tree of text files held in memory, as surroundings for the command line: the files of a working
directory, and around them what every system has. Directories exist as far as some file lies in
them. Every directory on the way of a path has to exist, also one that the path leaves again.
-/

namespace TapeToolchain.CommandLine

/-- What stands at a place. -/
inductive Entry where
  | directory
  | file (text : String)

structure FileTree where
  files : List (Place × String)

namespace FileTree

def systemDirectories : List String :=
  ["bin", "boot", "dev", "etc", "home", "lib", "media", "mnt", "opt", "proc", "root", "run", "sbin",
   "srv", "sys", "tmp", "usr", "var"]

/-- The file that is always empty. -/
def nullDevice : Place :=
  ⟨.root, ["dev", "null"]⟩

/-- The tree with the given files, by path and contents, in the working directory. -/
def ofFiles (files : List (String × String)) : FileTree :=
  ⟨(nullDevice, "") :: files.filterMap fun (path, text) =>
    match Path.ofText path with
    | .ok path => some (⟨.above 0, path.names⟩, text)
    | .error _ => none⟩

/-- Whether a place is a directory, given that no file stands there. -/
def hasDirectory (t : FileTree) (p : Place) : Bool :=
  p.names.isEmpty || systemDirectories.any (fun name => p = ⟨.root, [name]⟩) ||
    t.files.any fun (place, _) => p.leadsTo place

def entry? (t : FileTree) (p : Place) : Option Entry :=
  match t.files.lookup p with
  | some text => some (.file text)
  | none => if t.hasDirectory p then some .directory else none

/-- Goes from a directory on to the one with the given name. -/
def enter (t : FileTree) (p : Place) (name : String) : Except Cause Place := do
  let next ← p.step name
  match t.entry? next with
  | some .directory => return next
  | some (.file _) => throw .notDirectory
  | none => throw .notFound

/-- The directory in which the last name of a path is looked up. -/
def walk (t : FileTree) (path : Path) : Except Cause Place :=
  path.way.foldlM t.enter (if path.fromRoot then .root else .working)

def locate (t : FileTree) (path : Path) : Except Cause Place := do
  let inside ← t.walk path
  match path.last with
  | none => return inside
  | some name => inside.step name

/-- The contents of a file. A path that ends in a slash names no file. -/
def read (t : FileTree) (text : String) : Except Cause String := do
  let path ← Path.ofText text
  match t.entry? (← t.locate path) with
  | some (.file contents) => if path.slashed then throw .notDirectory else return contents
  | some .directory => throw .isDirectory
  | none => throw .notFound

/-- Puts a file at a place, in place of one that stands there. -/
def put (t : FileTree) (p : Place) (contents : String) : FileTree :=
  if p = nullDevice then t
  else ⟨(p, contents) :: t.files.filter fun entry => entry.1 ≠ p⟩

/-- Creates a file or replaces its contents. A path that ends in a slash is taken for a directory,
whatever it names. -/
def write (t : FileTree) (text contents : String) : Except Cause FileTree := do
  let path ← Path.ofText text
  let _ ← t.walk path
  if path.slashed then throw .isDirectory
  let place ← t.locate path
  match t.entry? place with
  | some .directory => throw .isDirectory
  | _ => return t.put place contents

/-- The tree as surroundings, with the given bytes on the standard input. -/
def surroundings (stdin : ByteArray) : Surroundings (StateM FileTree) where
  read
    | .standard => return .ok stdin
    | .file path => return ((← get).read path).map String.toUTF8
  save path text := do
    match (← get).write path text with
    | .ok changed =>
      set changed
      return .ok ()
    | .error cause => return .error cause

/-- Runs the command line in the working directory. -/
def runCommand (t : FileTree) (stdin : ByteArray) (arguments : List String) :
    Outcome × FileTree :=
  ((surroundings stdin).run arguments).run t

end FileTree

end TapeToolchain.CommandLine
