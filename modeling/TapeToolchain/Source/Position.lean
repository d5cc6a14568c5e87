/-!
Source texts and places in them. Lines and columns count from one, offsets from zero, all in
characters. Line and column are numbers of 32 bits: after the greatest one, they start again at
zero.
-/

namespace TapeToolchain

/-- A text with the name of where it came from. -/
structure Source where
  name : String
  text : String

/-- A place between two characters. -/
structure Position where
  line : UInt32
  column : UInt32
  offset : Nat
deriving DecidableEq

namespace Position

def start : Position :=
  ⟨1, 1, 0⟩

/-- One column further on the same line. -/
def advance (p : Position) : Position :=
  ⟨p.line, p.column + 1, p.offset + 1⟩

def newline (p : Position) : Position :=
  ⟨p.line + 1, 1, p.offset + 1⟩

def after (p : Position) (c : Char) : Position :=
  if c = '\n' then p.newline else p.advance

end Position

/-- The characters between two places, the second not included. -/
structure Span where
  start : Position
  stop : Position
deriving DecidableEq

namespace Span

/-- The single character at a place. A line feed, too, ends one column further on its own line. -/
def single (p : Position) : Span :=
  ⟨p, p.advance⟩

/-- From the start of the first to the end of the second. -/
def join (first last : Span) : Span :=
  ⟨first.start, last.stop⟩

def width (s : Span) : Nat :=
  s.stop.offset - s.start.offset

end Span

namespace Source

/-- A reading of characters: the place reached and the characters behind it, the last one first. -/
structure Scan where
  position : Position
  seen : List (Char × Span)

def Scan.push (s : Scan) (c : Char) : Scan :=
  ⟨s.position.after c, (c, .single s.position) :: s.seen⟩

/-- The characters of the text in order, each with its span. -/
def chars (s : Source) : List (Char × Span) :=
  (s.text.toList.foldl Scan.push ⟨.start, []⟩).seen.reverse

/-- Where a span starts, as shown in messages. -/
def siteText (s : Source) (span : Span) : String :=
  s!"{s.name}:{span.start.line}:{span.start.column}"

/-- A text in the course of being split: the finished lines and the current one, newest first. -/
structure LineSplit where
  finished : List (List Char)
  current : List Char

/-- Without the carriage return that directly precedes a line feed, the line being held in reverse.
-/
def dropReturn : List Char → List Char
  | '\r' :: rest => rest
  | line => line

/-- Takes one more character; a line feed finishes the current line. -/
def LineSplit.push (s : LineSplit) (c : Char) : LineSplit :=
  if c = '\n' then ⟨(dropReturn s.current).reverse :: s.finished, []⟩
  else ⟨s.finished, c :: s.current⟩

/-- All lines in order. A last line without a line feed counts unless it is empty. -/
def LineSplit.lines (s : LineSplit) : List (List Char) :=
  match s.current with
  | [] => s.finished.reverse
  | current => (current.reverse :: s.finished).reverse

/-- The lines of the text, without their ends: a line feed, with the carriage return before it if
there is one. -/
def lines (s : Source) : List String :=
  (s.text.toList.foldl LineSplit.push ⟨[], []⟩).lines.map String.ofList

/-- The line with a given number, counted from one. -/
def line? (s : Source) (number : UInt32) : Option String :=
  if number = 0 then none else s.lines[number.toNat - 1]?

end Source

end TapeToolchain
