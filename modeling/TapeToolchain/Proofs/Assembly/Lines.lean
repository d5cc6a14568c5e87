import TapeToolchain.Assembly.Emission
import TapeToolchain.Proofs.Preliminaries
import TapeToolchain.Proofs.Text.Hex

/-!
Assembly text by lines. Every piece of assembly starts a new line, so pieces that are put together
add their lines (`addedLines_append`). A line is looked at by its first word and the operand after
it; both are known from the start of the line as soon as that reaches into the operand
(`firstWord_append`, `operand_append`).
-/

namespace TapeToolchain

def asmLines (text : String) : List (List Char) :=
  text.toList.splitOn '\n'

/-- The text is empty or starts a new line. -/
def StartsLine (text : String) : Prop :=
  ∀ c ∈ text.toList.head?, c = '\n'

/-- The lines that a text adds to what stands before it, if it starts a new line. -/
def addedLines (text : String) : List (List Char) :=
  (asmLines text).tail

/-- A new line with its characters. -/
def newLine (line : List Char) : String :=
  String.ofList ('\n' :: line)

instance (text : String) : Decidable (StartsLine text) :=
  decidable_of_iff (text.toList.head?.all (· = '\n') = true)
    (by simp [StartsLine, Option.all_eq_true])

/-- The characters of a text with a literal after it: a literal is the text of its characters, so
those of a long text are found without taking it apart. -/
theorem toList_append_ofList {a : String} {start : List Char} (h : a.toList = start)
    (cs : List Char) : (a ++ String.ofList cs).toList = start ++ cs := by
  rw [String.toList_append, h, String.toList_ofList]

/-! ## Lines of texts that are put together -/

theorem splitOn_newline (rest : List Char) :
    ('\n' :: rest).splitOn '\n' = [] :: rest.splitOn '\n' :=
  List.splitOn_append_cons_self [] rest

theorem asmLines_append (a : String) {b : String} (hb : StartsLine b) :
    asmLines (a ++ b) = asmLines a ++ addedLines b := by
  rw [asmLines, String.toList_append, addedLines, asmLines, asmLines]
  cases hchars : b.toList with
  | nil => simp
  | cons c rest =>
    obtain rfl : c = '\n' := hb c (by simp [hchars])
    rw [List.splitOn_append_cons_self, splitOn_newline, List.tail_cons]

theorem asmLines_eq_cons {text : String} (h : StartsLine text) :
    asmLines text = [] :: addedLines text := by
  have hempty := asmLines_append "" h
  rwa [String.empty_append] at hempty

theorem addedLines_append (a : String) {b : String} (hb : StartsLine b) :
    addedLines (a ++ b) = addedLines a ++ addedLines b := by
  have hne : asmLines a ≠ [] := List.splitOn_ne_nil _ _
  rw [addedLines, asmLines_append a hb, List.tail_append_of_ne_nil hne, ← addedLines]

namespace StartsLine

variable {a b : String}

theorem append (ha : StartsLine a) (hb : StartsLine b) : StartsLine (a ++ b) := by
  intro c hc
  rw [String.toList_append, List.head?_append, Option.mem_def, Option.or_eq_some_iff] at hc
  rcases hc with hc | ⟨-, hc⟩
  · exact ha c hc
  · exact hb c hc

theorem newLine (line : List Char) : StartsLine (newLine line) := by
  simp [StartsLine, TapeToolchain.newLine]

end StartsLine

theorem addedLines_newLine {line : List Char} (h : '\n' ∉ line) :
    addedLines (newLine line) = [line] := by
  rw [addedLines, asmLines, newLine, String.toList_ofList, splitOn_newline, List.tail_cons,
    List.splitOn_eq_singleton h]

theorem newLine_append (line : List Char) (text : String) :
    newLine line ++ text = newLine (line ++ text.toList) := by
  rw [← String.toList_inj]
  simp [newLine]

/-! ## The words of a line -/

def isBlank (c : Char) : Bool :=
  c = ' ' ∨ c = '\t'

/-- The first word of a line: the name of an operation, or a label. -/
def firstWord (line : List Char) : List Char :=
  (line.dropWhile isBlank).takeWhile (!isBlank ·)

def operand (line : List Char) : List Char :=
  ((line.dropWhile isBlank).dropWhile (!isBlank ·)).dropWhile isBlank

theorem operand_append {a : List Char} (h : operand a ≠ []) (b : List Char) :
    operand (a ++ b) = operand a ++ b := by
  have hword : (a.dropWhile isBlank).dropWhile (!isBlank ·) ≠ [] :=
    fun hnil => h (by rw [operand, hnil]; rfl)
  have hstart : a.dropWhile isBlank ≠ [] := fun hnil => hword (by rw [hnil]; rfl)
  rw [operand, List.dropWhile_append_of_ne_nil hstart, List.dropWhile_append_of_ne_nil hword,
    List.dropWhile_append_of_ne_nil h, operand]

theorem firstWord_append {a : List Char} (h : operand a ≠ []) (b : List Char) :
    firstWord (a ++ b) = firstWord a := by
  have hword : (a.dropWhile isBlank).dropWhile (!isBlank ·) ≠ [] :=
    fun hnil => h (by rw [operand, hnil]; rfl)
  have hstart : a.dropWhile isBlank ≠ [] := fun hnil => hword (by rw [hnil]; rfl)
  have hlt : ((a.dropWhile isBlank).takeWhile (!isBlank ·)).length ≠
      (a.dropWhile isBlank).length := by
    intro heq
    have hall := List.takeWhile_append_dropWhile (p := (!isBlank ·)) (l := a.dropWhile isBlank)
    have hlength := congrArg List.length hall
    rw [List.length_append, heq] at hlength
    exact hword (List.length_eq_zero_iff.1 (by omega))
  rw [firstWord, List.dropWhile_append_of_ne_nil hstart, List.takeWhile_append, if_neg hlt,
    firstWord]

end TapeToolchain
