import TapeToolchain.CompileError
import TapeToolchain.Source.Program

/-!
Reports of errors for a terminal. An error with a place in a source text is shown with the line it
is on and a mark under its columns.
-/

namespace TapeToolchain

/-- An error to be shown, with its place if it has one. -/
structure Diagnostic where
  message : String
  site : Option (Source × Span)

/-- A report of errors; `kind` is what each of them is called. -/
structure Diagnostics where
  kind : String := "error"
  entries : List Diagnostic := []

/-- The widest padding that can be laid out. -/
def widestPadding : Nat := 0xffff

def copies (count : Nat) (c : Char) : String :=
  String.ofList (List.replicate count c)

/-- Copies of a character, unless they are more than can be laid out. -/
def padding? (count : Nat) (c : Char) : Option String :=
  if count ≤ widestPadding then some (copies count c) else none

/-- A text with tabulators replaced by single spaces, so that columns line up. -/
def untabbed (line : String) : String :=
  String.ofList (line.toList.map fun c => if c = '\t' then ' ' else c)

/-- The spaces that stand where the line above has the line's number. -/
def Span.gutter? (span : Span) : Option String :=
  padding? (toString span.start.line).length ' '

/-- A line with its number, and below it a mark under the columns that are meant. -/
def Span.markedLine? (span : Span) (line : String) : Option String := do
  let gutter ← span.gutter?
  let skipped ← padding? (span.start.column.toNat - 1) ' '
  let mark ← padding? (max span.width 1) '^'
  return toString span.start.line ++ " | " ++ untabbed line ++ "\n" ++
    gutter ++ " | " ++ skipped ++ mark ++ "\n"

/-- The place of an error, its line, and a mark below. It cannot be laid out if the mark is too far
to the right or too wide. -/
def Source.excerpt? (s : Source) (span : Span) : Option String := do
  let shown :=
    match s.line? span.start.line with
    | none => some ""
    | some line => span.markedLine? line
  return " --> " ++ s.siteText span ++ "\n" ++ (← span.gutter?) ++ " |\n" ++ (← shown)

namespace Diagnostics

def ofCompileError (cause : CompileError) : Diagnostics :=
  { entries := [⟨cause.message, none⟩] }

def ofBracketErrors (s : Source) (errors : List BracketError) : Diagnostics :=
  { entries := errors.map fun e => ⟨e.fault.message, some (s, e.span)⟩ }

def size (d : Diagnostics) : Nat :=
  d.entries.length

/-- One error of the report, if its excerpt can be laid out. -/
def renderError? (d : Diagnostics) (e : Diagnostic) : Option String := do
  let excerpt :=
    match e.site with
    | none => some ""
    | some (source, span) => source.excerpt? span
  return d.kind ++ ": " ++ e.message ++ "\n" ++ (← excerpt) ++ "\n"

/-- The last line of a report that is not empty. -/
def summary (d : Diagnostics) : String :=
  let noun := if d.size = 1 then "error" else "errors"
  s!"Build failed with {d.size} {noun}\n"

/-- The text of the report, if all of it can be laid out. -/
def render? (d : Diagnostics) : Option String :=
  if d.entries.isEmpty then some "No errors were reported\n"
  else do return String.join (← d.entries.mapM d.renderError?) ++ d.summary

end Diagnostics

end TapeToolchain
