import TapeToolchain.Term.Definition

/-!
Structural patterns. A compound term counts as a sequence whose first element is its tag and whose
other elements are its children, so a pattern can take it apart element by element or as head and
tail. Matching yields the captured parts under the names the pattern gives them.
-/

namespace TapeToolchain

/-- What a pattern is compared with: the tag of a compound term, a term, or a sequence of terms. -/
inductive Subject where
  | tag (tag : Tag)
  | node (node : Node)
  | seq (nodes : List Node)

namespace Subject

/-- The first element of a sequence and the rest of it. -/
def uncons? : Subject → Option (Subject × Subject)
  | node (.compound head children) => some (.tag head, .seq children)
  | seq (first :: rest) => some (.node first, .seq rest)
  | _ => none

/-- The number of elements, for what counts as a sequence. -/
def length? : Subject → Option Nat
  | node (.compound _ children) => some (children.length + 1)
  | seq nodes => some nodes.length
  | _ => none

end Subject

/-- Captured parts by name, in the order of the names and with one part for each. -/
structure Bindings where
  captures : List (String × Subject)
  ordered : captures.Pairwise fun a b => a.1 < b.1

namespace Bindings

def empty : Bindings :=
  ⟨[], .nil⟩

def find? (b : Bindings) (name : String) : Option Subject :=
  b.captures.lookup name

def size (b : Bindings) : Nat :=
  b.captures.length

/-- Puts a capture in its place among sorted ones; a capture of the same name gives way. -/
def insertSorted (name : String) (part : Subject) :
    List (String × Subject) → List (String × Subject)
  | [] => [(name, part)]
  | (other, old) :: rest =>
    if name < other then (name, part) :: (other, old) :: rest
    else if name = other then (name, part) :: rest
    else (other, old) :: insertSorted name part rest

theorem mem_insertSorted {name : String} {part : Subject} {entry : String × Subject}
    {captures : List (String × Subject)} (h : entry ∈ insertSorted name part captures) :
    entry = (name, part) ∨ entry ∈ captures := by
  induction captures with
  | nil => exact Or.inl (List.mem_singleton.1 h)
  | cons first rest ih =>
    simp only [insertSorted] at h
    split at h
    · exact List.mem_cons.1 h
    · split at h
      · exact (List.mem_cons.1 h).imp_right (List.mem_cons_of_mem _)
      · rcases List.mem_cons.1 h with rfl | h
        · exact Or.inr List.mem_cons_self
        · exact (ih h).imp_right (List.mem_cons_of_mem _)

theorem pairwise_insertSorted {name : String} {part : Subject} {captures : List (String × Subject)}
    (h : captures.Pairwise fun a b => a.1 < b.1) :
    (insertSorted name part captures).Pairwise fun a b => a.1 < b.1 := by
  induction captures with
  | nil => exact List.pairwise_singleton _ _
  | cons first rest ih =>
    obtain ⟨hfirst, hrest⟩ := List.pairwise_cons.1 h
    simp only [insertSorted]
    split
    · next hlt =>
      refine List.pairwise_cons.2 ⟨fun entry hentry => ?_, h⟩
      rcases List.mem_cons.1 hentry with rfl | hentry
      · exact hlt
      · exact String.lt_trans hlt (hfirst entry hentry)
    · next hge =>
      split
      · next heq => exact List.pairwise_cons.2 ⟨fun entry hentry => heq ▸ hfirst entry hentry,
          hrest⟩
      · next hne =>
        refine List.pairwise_cons.2 ⟨fun entry hentry => ?_, ih hrest⟩
        rcases mem_insertSorted hentry with rfl | hentry
        · exact String.not_le.1 fun hle => hne (String.le_antisymm hle (String.not_lt.1 hge))
        · exact hfirst entry hentry

/-- Adds a capture; one of the same name gives way. -/
def insert (b : Bindings) (name : String) (part : Subject) : Bindings :=
  ⟨insertSorted name part b.captures, pairwise_insertSorted b.ordered⟩

def node (b : Bindings) (name : String) : Except CompileError Node :=
  match b.find? name with
  | some (.node n) => .ok n
  | _ => .error (.missingCapture name .node)

def seq (b : Bindings) (name : String) : Except CompileError (List Node) :=
  match b.find? name with
  | some (.seq nodes) => .ok nodes
  | _ => .error (.missingCapture name .sequence)

end Bindings

inductive Pattern where
  /-- Matches anything and captures it. -/
  | bind (name : String)
  /-- Matches anything. -/
  | discard
  | never
  /-- Matches a sequence by its first element and the rest. -/
  | cons (head tail : Pattern)
  /-- Matches this tag only. -/
  | tag (tag : Tag)
  /-- Matches this literal only. -/
  | atom (atom : Atom)
  /-- Matches a sequence of this length element by element. -/
  | seq (items : List Pattern)

namespace Pattern

/-- Matches a compound term by its tag and its children. -/
def compound (head : Tag) (children : List Pattern) : Pattern :=
  .seq (.tag head :: children)

mutual

/-- The names that a pattern captures, in order and with repetitions. -/
def names : Pattern → List String
  | bind name => [name]
  | cons head tail => head.names ++ tail.names
  | seq items => namesAll items
  | discard | never | tag _ | atom _ => []

def namesAll : List Pattern → List String
  | [] => []
  | item :: rest => item.names ++ namesAll rest

end

/-- Refuses a pattern that captures a name twice. -/
def validate (p : Pattern) : Except CompileError Unit :=
  match firstRepeated? [] p.names with
  | some name => .error (.duplicateBinding name)
  | none => .ok ()

mutual

/-- Matches a subject and adds its captures to those made before it. -/
def matchInto : Pattern → Subject → Bindings → Option Bindings
  | bind name, subject, b => some (b.insert name subject)
  | discard, _, b => some b
  | never, _, _ => none
  | tag expected, .tag found, b => if expected = found then some b else none
  | tag _, _, _ => none
  | atom expected, .node (.literal found), b => if expected = found then some b else none
  | atom _, _, _ => none
  | cons head tail, subject, b =>
    match subject.uncons? with
    | none => none
    | some (first, rest) => (head.matchInto first b).bind fun b => tail.matchInto rest b
  | seq items, subject, b =>
    if subject.length? = some items.length then matchItems items subject b else none

/-- Matches a list of patterns with the elements of a sequence, from the left. -/
def matchItems : List Pattern → Subject → Bindings → Option Bindings
  | [], _, b => some b
  | item :: items, subject, b =>
    match subject.uncons? with
    | none => none
    | some (first, rest) => (item.matchInto first b).bind fun b => matchItems items rest b

end

/-- Matches a subject. A name that is captured twice keeps its last part. -/
def match? (p : Pattern) (subject : Subject) : Option Bindings :=
  p.matchInto subject .empty

end Pattern

end TapeToolchain
