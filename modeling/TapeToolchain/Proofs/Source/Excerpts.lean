import TapeToolchain.Source.Diagnostics
import TapeToolchain.Proofs.Preliminaries
import TapeToolchain.Proofs.Source.Lines
import Mathlib.Data.Nat.Digits.Defs

/-!
Where a report points to. The mark of an excerpt stands below the bracket that is reported, since
the place of the bracket leads to it (`Source.reports_point_at_brackets`). There are two limits.
A bracket behind more than 65536 columns has no excerpt, and then there is no report at all
(`far_bracket_not_reported`). And where a line or column is no longer in reach of 32 bits, the
report points to another character (`wrapped_column_misleads`).
-/

namespace TapeToolchain

def BracketFault.bracket : BracketFault → Char
  | unmatchedClose => ']'
  | unclosedLoop => '['

/-- The places of the brackets in a text that have the fault. -/
def BracketFault.places : BracketFault → List Char → List Nat
  | unmatchedClose => strayClosings
  | unclosedLoop => unclosedOpenings

/-- A line of the source as an excerpt shows it: its number, a bar, and its characters with spaces
for tabulators. -/
def shownLine (number : UInt32) (line : String) : String :=
  toString number ++ " | " ++ untabbed line

/-- The line below it: spaces for the number, a bar, spaces for the columns before the one that is
meant, a caret. -/
def markLine (number column : UInt32) : String :=
  copies (toString number).length ' ' ++ " | " ++ copies (column.toNat - 1) ' ' ++ "^"

/-- What is shown of a single character: its place, its line, and the mark below. -/
def Source.excerptAt (s : Source) (p : Position) (line : String) : String :=
  " --> " ++ s.siteText (.single p) ++ "\n" ++ copies (toString p.line).length ' ' ++ " |\n" ++
    shownLine p.line line ++ "\n" ++ markLine p.line p.column ++ "\n"

/-! ## The mark of an excerpt -/

theorem copies_toList (count : Nat) (c : Char) :
    (copies count c).toList = List.replicate count c := by
  rw [copies, String.toList_ofList]

theorem untabbed_toList (line : String) :
    (untabbed line).toList = line.toList.map fun c => if c = '\t' then ' ' else c := by
  rw [untabbed, String.toList_ofList]

/-- The only caret of the mark stands below the character at the column. -/
theorem mark_below {line : String} {number column : UInt32} {c : Char}
    (hc : line.toList[column.toNat - 1]? = some c) (htab : c ≠ '\t') :
    ∃ k : Nat, (shownLine number line).toList[k]? = some c ∧
      ∀ j, (markLine number column).toList[j]? = some '^' ↔ j = k := by
  have hshown : (shownLine number line).toList = ((toString number).toList ++ [' ', '|', ' ']) ++
      line.toList.map fun c => if c = '\t' then ' ' else c := by
    rw [shownLine, String.toList_append, String.toList_append, untabbed_toList]
    rfl
  have hmark : (markLine number column).toList =
      (List.replicate (toString number).length ' ' ++ [' ', '|', ' ']) ++
        List.replicate (column.toNat - 1) ' ' ++ ['^'] := by
    rw [markLine, String.toList_append, String.toList_append, String.toList_append,
      copies_toList, copies_toList]
    rfl
  refine ⟨(toString number).length + 3 + (column.toNat - 1), ?_, fun j => ?_⟩
  · have hgutter : ((toString number).toList ++ [' ', '|', ' ']).length =
        (toString number).length + 3 := by
      rw [List.length_append, String.length_toList]
      rfl
    rw [hshown, ← hgutter, List.getElem?_append_right (Nat.le_add_right ..),
      Nat.add_sub_cancel_left, List.getElem?_map, hc, Option.map_some, if_neg htab]
  · have hlength : (List.replicate (toString number).length ' ' ++ [' ', '|', ' '] ++
        List.replicate (column.toNat - 1) ' ').length =
        (toString number).length + 3 + (column.toNat - 1) := by
      simp only [List.length_append, List.length_replicate, List.length_cons, List.length_nil]
    rw [hmark, List.getElem?_concat_iff (by simp), hlength]

/-! ## What can be laid out -/

theorem padding?_of_le {count : Nat} (h : count ≤ widestPadding) (c : Char) :
    padding? count c = some (copies count c) :=
  if_pos h

/-- The number of a line has at most ten digits. -/
theorem gutter?_eq (span : Span) :
    span.gutter? = some (copies (toString span.start.line).length ' ') := by
  apply padding?_of_le
  have hdigits : span.start.line.toNat < 10 ^ 10 :=
    Nat.lt_trans span.start.line.toNat_lt (by decide)
  exact Nat.le_trans (Nat.repr_length span.start.line.toNat 10 (by decide) hdigits) (by decide)

theorem markedLine?_single (p : Position) (line : String) :
    (Span.single p).markedLine? line =
      if p.column.toNat ≤ widestPadding + 1 then
        some (shownLine p.line line ++ "\n" ++ markLine p.line p.column ++ "\n")
      else none := by
  have hwidth : max (Span.single p).width 1 = 1 := by
    rw [Span.width, Span.single, Position.advance, Nat.add_sub_cancel_left, Nat.max_self]
  have hmark : padding? 1 '^' = some "^" := by decide
  rw [Span.markedLine?, gutter?_eq, hwidth, hmark, Option.bind_eq_bind, Option.bind_some]
  by_cases hcolumn : p.column.toNat ≤ widestPadding + 1
  · have hskip : (Span.single p).start.column.toNat - 1 ≤ widestPadding :=
      Nat.sub_le_of_le_add hcolumn
    rw [if_pos hcolumn, padding?_of_le hskip]
    simp [shownLine, markLine, Span.single, String.append_assoc]
  · have hskip : ¬ (Span.single p).start.column.toNat - 1 ≤ widestPadding :=
      fun h => hcolumn (Nat.le_add_of_sub_le h)
    rw [if_neg hcolumn, padding?, if_neg hskip]
    rfl

namespace Source

/-- The excerpt of a single character, if the source has its line, depends on the column only. -/
theorem excerpt?_single (s : Source) {p : Position} {line : String}
    (h : s.line? p.line = some line) :
    s.excerpt? (.single p) =
      if p.column.toNat ≤ widestPadding + 1 then some (s.excerptAt p line) else none := by
  have hline : s.line? (Span.single p).start.line = some line := h
  rw [excerpt?, hline, gutter?_eq]
  simp only [markedLine?_single]
  split
  · simp [excerptAt, Span.single, String.append_assoc]
  · rfl

/-! ## The report -/

/-- An error of the report, with its excerpt. -/
def entryText (e : BracketError) (excerpt : String) : String :=
  "error: " ++ e.fault.message ++ "\n" ++ excerpt ++ "\n"

theorem renderError?_ofBracketErrors (s : Source) (errors : List BracketError) (e : BracketError) :
    (Diagnostics.ofBracketErrors s errors).renderError? ⟨e.fault.message, some (s, e.span)⟩ =
      (s.excerpt? e.span).map (entryText e) := by
  have hkind : "error" ++ ": " = "error: " := by decide
  rw [Diagnostics.renderError?, Option.map_eq_bind]
  simp only [Diagnostics.ofBracketErrors, hkind]
  rfl

/-- A report is made of the texts of its errors, followed by their number. -/
theorem render?_ofBracketErrors (s : Source) {errors : List BracketError} (hne : errors ≠ []) :
    (Diagnostics.ofBracketErrors s errors).render? =
      (errors.mapM fun e => (s.excerpt? e.span).map (entryText e)).map
        (String.join · ++ (Diagnostics.ofBracketErrors s errors).summary) := by
  have hentries : ¬ (Diagnostics.ofBracketErrors s errors).entries.isEmpty = true := by
    rw [List.isEmpty_iff]
    exact fun h => hne (List.map_eq_nil_iff.1 h)
  rw [Diagnostics.render?, if_neg hentries, Option.map_eq_bind]
  have htexts : (Diagnostics.ofBracketErrors s errors).entries.mapM
      (Diagnostics.ofBracketErrors s errors).renderError? =
      errors.mapM fun e => (s.excerpt? e.span).map (entryText e) := by
    show (errors.map _).mapM _ = _
    rw [List.mapM_map]
    refine congrArg (errors.mapM ·) (funext fun e => ?_)
    exact s.renderError?_ofBracketErrors errors e
  rw [htexts]
  rfl

/-- There is a report just if every error has an excerpt. -/
theorem exists_report_iff (s : Source) (errors : List BracketError) :
    (∃ report, (Diagnostics.ofBracketErrors s errors).render? = some report) ↔
      ∀ e ∈ errors, ∃ excerpt, s.excerpt? e.span = some excerpt := by
  by_cases hne : errors = []
  · subst hne
    simp [Diagnostics.render?, Diagnostics.ofBracketErrors]
  · have htexts : (∃ texts,
        errors.mapM (fun e => (s.excerpt? e.span).map (entryText e)) = some texts) ↔
        ∀ e ∈ errors, ∃ text, (s.excerpt? e.span).map (entryText e) = some text :=
      List.exists_mapM_eq_some_iff
    simp only [Option.map_eq_some_iff, exists_comm (α := String), exists_eq_right'] at htexts
    rw [← htexts, render?_ofBracketErrors s hne]
    simp

/-- Every error of a report is shown with its excerpt. -/
theorem entryText_infix (s : Source) {errors : List BracketError} {e : BracketError}
    (he : e ∈ errors) {report excerpt : String}
    (hreport : (Diagnostics.ofBracketErrors s errors).render? = some report)
    (hexcerpt : s.excerpt? e.span = some excerpt) :
    (entryText e excerpt).toList <:+: report.toList := by
  rw [render?_ofBracketErrors s (List.ne_nil_of_mem he), Option.map_eq_some_iff] at hreport
  obtain ⟨texts, htexts, rfl⟩ := hreport
  have hmem : entryText e excerpt ∈ texts := by
    have hmap := List.mem_map_of_mem (f := fun e => (s.excerpt? e.span).map (entryText e)) he
    rw [List.mapM_eq_some_iff.1 htexts, hexcerpt] at hmap
    simpa using hmap
  rw [String.toList_append, String.toList_join, List.flatMap_def]
  exact (List.infix_of_mem_flatten (List.mem_map_of_mem hmem)).trans (List.infix_append' [] _ _)

/-! ## The brackets that are reported -/

/-- An error is placed at a bracket that has its fault. -/
theorem placed_of_error {s : Source} {errors : List BracketError} (h : s.program = .error errors)
    {e : BracketError} (he : e ∈ errors) :
    ∃ i ∈ e.fault.places s.text.toList, s.text.toList[i]? = some e.fault.bracket ∧
      e.span = .single (placeAfter (s.text.toList.take i)) := by
  have hreports := Reading.reports_text s.text.toList
  rw [← s.tokens_eq] at hreports
  obtain rfl := Reading.finish_eq_error h
  rw [hreports.errors_eq] at he
  rcases List.mem_append.1 he with he | he
  · obtain ⟨j, hj, rfl⟩ := List.mem_map.1 he
    exact ⟨j, hj, (mem_strayClosings.1 hj).1, rfl⟩
  · obtain ⟨i, hi, rfl⟩ := List.mem_map.1 he
    exact ⟨i, hi, (mem_unclosedOpenings.1 hi).1, rfl⟩

theorem not_inLineEnd_bracket {text : List Char} {i : Nat} (fault : BracketFault)
    (h : text[i]? = some fault.bracket) : ¬ InLineEnd text i := by
  rw [InLineEnd, h]
  cases fault <;> simp [BracketFault.bracket]

/-- **Reports point at the brackets.** For every text, each character is read with a place at its
own offset, and if it is not part of a line's end, the line and the column of the place lead to this
very character through the lines of the source, just if both numbers fit into 32 bits. They do in
every text of fewer than `2 ^ 32` characters.

If the text is no program, each error is placed at a bracket without a partner, and line and column
lead to it if it is in reach. Its excerpt then shows that line, with a space for each tabulator, and
below, behind a gutter of the same width, a space for each column before the bracket and one caret;
so the caret, the only one, stands under the bracket. This excerpt is there just if the column is
not beyond 65536. The report is there just if every error has an excerpt, and it shows the excerpt
of each error after its message. -/
theorem reports_point_at_brackets (s : Source) :
    (∀ i c, s.text.toList[i]? = some c →
      ∃ span, s.chars[i]? = some (c, span) ∧ span.start.offset = i ∧
        (¬ InLineEnd s.text.toList i → (s.Addresses span.start c ↔ InReach s.text.toList i)) ∧
        (s.text.toList.length < 2 ^ 32 → InReach s.text.toList i)) ∧
    ∀ errors, s.program = .error errors →
      ((∃ report, (Diagnostics.ofBracketErrors s errors).render? = some report) ↔
        ∀ e ∈ errors, ∃ excerpt, s.excerpt? e.span = some excerpt) ∧
      ∀ e ∈ errors, e.span.start.offset ∈ e.fault.places s.text.toList ∧
        (s.Addresses e.span.start e.fault.bracket ↔
          InReach s.text.toList e.span.start.offset) ∧
        (InReach s.text.toList e.span.start.offset → ∃ line,
          s.line? e.span.start.line = some line ∧
          line.toList[e.span.start.column.toNat - 1]? = some e.fault.bracket ∧
          (s.excerpt? e.span =
            if e.span.start.column.toNat ≤ 65536 then some (s.excerptAt e.span.start line)
            else none) ∧
          (∃ k : Nat, (shownLine e.span.start.line line).toList[k]? = some e.fault.bracket ∧
            ∀ j, (markLine e.span.start.line e.span.start.column).toList[j]? = some '^' ↔ j = k) ∧
          ∀ report, (Diagnostics.ofBracketErrors s errors).render? = some report →
            (entryText e (s.excerptAt e.span.start line)).toList <:+: report.toList) := by
  refine ⟨fun i c hc => ?_, fun errors herrors => ⟨s.exists_report_iff errors, fun e he => ?_⟩⟩
  · have hi := (List.getElem?_eq_some_iff.1 hc).1
    refine ⟨.single (placeAfter (s.text.toList.take i)), getElem?_scan hc, ?_, fun hend => ?_, ?_⟩
    · exact List.length_take_of_le (Nat.le_of_lt hi)
    · exact s.addresses_placeAfter hc hend
    · exact fun htext => inReach_of_length htext hi
  · obtain ⟨i, hplace, hbracket, hspan⟩ := placed_of_error herrors he
    have haddresses := s.addresses_placeAfter hbracket (not_inLineEnd_bracket _ hbracket)
    have hstart : e.span.start = placeAfter (s.text.toList.take i) := congrArg Span.start hspan
    rw [← hstart] at haddresses hspan
    have hoffset : e.span.start.offset = i := by
      rw [hstart]
      exact List.length_take_of_le (Nat.le_of_lt (List.getElem?_eq_some_iff.1 hbracket).1)
    rw [← hoffset] at haddresses
    refine ⟨hoffset ▸ hplace, haddresses, fun hreach => ?_⟩
    obtain ⟨before, line, hline, -, -, hcolumn⟩ := haddresses.2 hreach
    have hexcerpt := s.excerpt?_single hline.found
    rw [← hspan] at hexcerpt
    refine ⟨line, hline.found, hcolumn, hexcerpt, mark_below hcolumn ?_, fun report hreport => ?_⟩
    · cases e.fault <;> decide
    · obtain ⟨excerpt, hsome⟩ := (s.exists_report_iff errors).1 ⟨report, hreport⟩ e he
      have hshown := s.entryText_infix he hreport hsome
      rw [hexcerpt] at hsome
      split at hsome
      · rw [Option.some.inj hsome]
        exact hshown
      · cases hsome

/-- A tabulator, a letter of two bytes and a carriage return on a line, and a last line without an
end. -/
theorem reports_point_at_brackets_tabbed : ∃ errors e report,
    Source.program ⟨"t", "é\t]\r\n[日"⟩ = .error errors ∧ e ∈ errors ∧
    e.span.start = ⟨1, 3, 2⟩ ∧ Addresses ⟨"t", "é\t]\r\n[日"⟩ ⟨1, 3, 2⟩ ']' ∧
    (∃ k : Nat, (shownLine 1 "é\t]").toList[k]? = some ']' ∧
      ∀ j, (markLine 1 3).toList[j]? = some '^' ↔ j = k) ∧
    (Diagnostics.ofBracketErrors ⟨"t", "é\t]\r\n[日"⟩ errors).render? = some report ∧
    ("error: Found `]` without a matching `[`\n --> t:1:3\n  |\n1 | é ]\n  |   ^\n\n").toList <:+:
      report.toList ∧
    Addresses ⟨"t", "é\t]\r\n[日"⟩ ⟨2, 2, 6⟩ '日' := by
  have herrors : Source.program ⟨"t", "é\t]\r\n[日"⟩ =
      .error [⟨.unmatchedClose, .single ⟨1, 3, 2⟩⟩, ⟨.unclosedLoop, .single ⟨2, 1, 5⟩⟩] := rfl
  obtain ⟨hchars, hreports⟩ := reports_point_at_brackets ⟨"t", "é\t]\r\n[日"⟩
  obtain ⟨hreport, hreported⟩ := hreports _ herrors
  have hexcerpts : ∀ e ∈ [BracketError.mk .unmatchedClose (.single ⟨1, 3, 2⟩),
      ⟨.unclosedLoop, .single ⟨2, 1, 5⟩⟩],
      (Source.excerpt? ⟨"t", "é\t]\r\n[日"⟩ e.span).isSome = true := by decide +kernel
  obtain ⟨report, hreport⟩ := hreport.2 fun e he => Option.isSome_iff_exists.1 (hexcerpts e he)
  obtain ⟨-, hbracket, hshown⟩ := hreported _ List.mem_cons_self
  have hreach : InReach "é\t]\r\n[日".toList 2 := inReach_of_length (by decide) (by decide)
  obtain ⟨line, hline, -, -, hmark, hinfix⟩ := hshown hreach
  obtain ⟨span, hspan, -, hletter, hall⟩ := hchars 6 '日' rfl
  obtain rfl : "é\t]" = line := by
    have hfirst : Source.line? ⟨"t", "é\t]\r\n[日"⟩ 1 = some "é\t]" := by decide +kernel
    exact Option.some.inj (hfirst.symm.trans hline)
  obtain rfl : .single ⟨2, 2, 6⟩ = span := (Prod.mk.inj (Option.some.inj hspan)).2
  refine ⟨_, _, report, herrors, List.mem_cons_self, rfl, hbracket.2 hreach, hmark, hreport, ?_,
    (hletter (by decide +kernel)).2 (hall (by decide))⟩
  have htext : entryText ⟨.unmatchedClose, .single ⟨1, 3, 2⟩⟩
      (excerptAt ⟨"t", "é\t]\r\n[日"⟩ ⟨1, 3, 2⟩ "é\t]") =
      "error: Found `]` without a matching `[`\n --> t:1:3\n  |\n1 | é ]\n  |   ^\n\n" := by
    decide +kernel
  rw [← htext]
  exact hinfix report hreport

/-! ## Brackets far to the right -/

/-- A closing bracket without a partner behind spaces. -/
def farBracket (spaces : Nat) : Source :=
  ⟨"test.bf", String.ofList (List.replicate spaces ' ' ++ [']'])⟩

theorem farBracket_text (spaces : Nat) :
    (farBracket spaces).text.toList = List.replicate spaces ' ' ++ [']'] :=
  String.toList_ofList

theorem getElem?_farBracket (spaces : Nat) :
    (farBracket spaces).text.toList[spaces]? = some ']' := by
  rw [farBracket_text, List.getElem?_append_right (by simp), List.length_replicate, Nat.sub_self]
  rfl

theorem getElem?_farBracket_zero {spaces : Nat} (h : 0 < spaces) :
    (farBracket spaces).text.toList[0]? = some ' ' := by
  rw [farBracket_text, List.getElem?_append_left (by simpa using h), List.getElem?_replicate,
    if_pos h]

theorem lineAfter_spaces (spaces : Nat) : lineAfter (List.replicate spaces ' ') = 1 :=
  lineAfter_lineStart [] (by simp)

theorem columnAfter_spaces (spaces : Nat) :
    columnAfter (List.replicate spaces ' ') = spaces + 1 := by
  have hcolumn : columnAfter ([] ++ List.replicate spaces ' ') =
      (List.replicate spaces ' ').length + 1 := columnAfter_lineStart (Or.inl rfl) (by simp)
  rw [List.length_replicate] at hcolumn
  exact hcolumn

theorem placeAfter_spaces (spaces : Nat) :
    placeAfter (List.replicate spaces ' ') = ⟨1, .ofNat (spaces + 1), spaces⟩ := by
  rw [placeAfter, lineAfter_spaces, columnAfter_spaces, List.length_replicate]
  rfl

theorem tokensFrom_spaces (p : Position) (spaces : Nat) :
    tokensFrom p (List.replicate spaces ' ') = [] := by
  induction spaces generalizing p with
  | zero => rfl
  | succ spaces ih => exact ih (p.after ' ')

theorem program_farBracket (spaces : Nat) :
    (farBracket spaces).program =
      .error [⟨.unmatchedClose, .single ⟨1, .ofNat (spaces + 1), spaces⟩⟩] := by
  rw [program, tokens_eq, farBracket_text, tokensFrom_append, tokensFrom_spaces,
    Position.start_afterAll, placeAfter_spaces]
  rfl

theorem excerpt?_farBracket (spaces : Nat) :
    (farBracket spaces).excerpt? (.single ⟨1, .ofNat (spaces + 1), spaces⟩) =
      if (UInt32.ofNat (spaces + 1)).toNat ≤ widestPadding + 1 then
        some ((farBracket spaces).excerptAt ⟨1, .ofNat (spaces + 1), spaces⟩
          (farBracket spaces).text)
      else none := by
  apply excerpt?_single
  have hone : (1 : UInt32).toNat = 0 + 1 := rfl
  rw [line?_eq _ hone, farBracket_text, linesOf_of_notMem (by simp) (by simp)]
  rfl

theorem addresses_farBracket (spaces : Nat) :
    (farBracket spaces).Addresses ⟨1, .ofNat (spaces + 1), spaces⟩ ']' ↔ spaces + 1 < 2 ^ 32 := by
  have haddresses := addresses_placeAfter (farBracket spaces) (getElem?_farBracket spaces)
    (not_inLineEnd_bracket .unmatchedClose (getElem?_farBracket spaces))
  have htake : (farBracket spaces).text.toList.take spaces = List.replicate spaces ' ' := by
    rw [farBracket_text, List.take_left' (List.length_replicate ..)]
  rw [InReach, htake, lineAfter_spaces, columnAfter_spaces, placeAfter_spaces] at haddresses
  rw [haddresses, and_iff_right (by decide)]

/-- A bracket in column 65537 is told with its right place, but there is no report of it. -/
theorem far_bracket_not_reported : ∃ e, (farBracket 65536).program = .error [e] ∧
    e.span.start = ⟨1, 65537, 65536⟩ ∧ (farBracket 65536).Addresses e.span.start ']' ∧
    (farBracket 65536).excerpt? e.span = none ∧
    (Diagnostics.ofBracketErrors (farBracket 65536) [e]).render? = none := by
  have hexcerpt := excerpt?_farBracket 65536
  rw [if_neg (by decide)] at hexcerpt
  refine ⟨_, program_farBracket 65536, rfl, (addresses_farBracket 65536).2 (by decide), hexcerpt,
    ?_⟩
  rw [Option.eq_none_iff_forall_ne_some]
  intro report hreport
  obtain ⟨excerpt, hsome⟩ := (exists_report_iff _ _).1 ⟨report, hreport⟩ _ List.mem_cons_self
  rw [hexcerpt] at hsome
  cases hsome

/-- Behind `2 ^ 32` spaces, a bracket is told to be in column 1, and the mark of its excerpt stands
under the first of the spaces. -/
theorem wrapped_column_misleads : ∃ e, (farBracket (2 ^ 32)).program = .error [e] ∧
    e.span.start = ⟨1, 1, 2 ^ 32⟩ ∧
    (farBracket (2 ^ 32)).excerpt? e.span =
      some ((farBracket (2 ^ 32)).excerptAt ⟨1, 1, 2 ^ 32⟩ (farBracket (2 ^ 32)).text) ∧
    (farBracket (2 ^ 32)).text.toList[0]? = some ' ' ∧
    ¬ (farBracket (2 ^ 32)).Addresses e.span.start ']' := by
  have hcolumn : UInt32.ofNat (2 ^ 32 + 1) = 1 := by decide
  have hprogram := program_farBracket (2 ^ 32)
  have hexcerpt := excerpt?_farBracket (2 ^ 32)
  have haddresses := addresses_farBracket (2 ^ 32)
  rw [hcolumn] at hprogram hexcerpt haddresses
  rw [if_pos (by decide)] at hexcerpt
  exact ⟨_, hprogram, rfl, hexcerpt, getElem?_farBracket_zero (by decide),
    fun h => absurd (haddresses.1 h) (by decide)⟩

end Source

end TapeToolchain
