import TapeToolchain.Proofs.Source.Reports
import Mathlib.Algebra.Group.Nat.Defs

/-!
The lines of a source and the places in them. Lines are counted twice: by the places of the
characters, which know of line feeds only, and by the lines of the source, which leave out carriage
returns and an empty last line. Both agree on a character that is not part of a line's end: the line
with the character's number is a piece of the text, and the character stands in it at its column
(`Source.Addresses`). This holds as long as the two numbers do not need more than 32 bits, and not
beyond (`Source.addresses_placeAfter`).
-/

namespace TapeToolchain

/-- The character at this place ends a line: it is a line feed, or a carriage return directly before
one. -/
def InLineEnd (text : List Char) (i : Nat) : Prop :=
  text[i]? = some '\n' ∨ text[i]? = some '\r' ∧ text[i + 1]? = some '\n'

instance (text : List Char) (i : Nat) : Decidable (InLineEnd text i) :=
  inferInstanceAs (Decidable (_ ∨ _ ∧ _))

theorem inLineEnd_append (before text : List Char) (i : Nat) :
    InLineEnd (before ++ text) (before.length + i) ↔ InLineEnd text i := by
  rw [InLineEnd, InLineEnd, Nat.add_assoc, List.getElem?_append_right (Nat.le_add_right ..),
    List.getElem?_append_right (Nat.le_add_right ..), Nat.add_sub_cancel_left,
    Nat.add_sub_cancel_left]

/-- The text is empty or ends with a line feed. -/
def EndsLine (text : List Char) : Prop :=
  text = [] ∨ ∃ init, text = init ++ ['\n']

/-- The numbers of the character's line and column fit into 32 bits. -/
def InReach (text : List Char) (i : Nat) : Prop :=
  lineAfter (text.take i) < 2 ^ 32 ∧ columnAfter (text.take i) < 2 ^ 32

namespace Source

/-- The line with a number, which stands in the text behind all the lines before it. -/
structure HasLine (s : Source) (number : UInt32) (before : List Char) (line : String) : Prop where
  found : s.line? number = some line
  stands : before ++ line.toList <+: s.text.toList
  whole : EndsLine before
  numbered : before.count '\n' + 1 = number.toNat

/-- The line and the column of the place lead to the character at its offset: the offset lies in the
line with this number, as far from its start as the column says, and there stands the character. -/
def Addresses (s : Source) (p : Position) (c : Char) : Prop :=
  ∃ before line, s.HasLine p.line before line ∧ 0 < p.column.toNat ∧
    p.offset = before.length + (p.column.toNat - 1) ∧
    line.toList[p.column.toNat - 1]? = some c

/-! ## The characters with their places -/

theorem scan_position (text : List Char) (s : Scan) :
    (text.foldl Scan.push s).position = s.position.afterAll text := by
  induction text generalizing s with
  | nil => rfl
  | cons c text ih => exact ih (s.push c)

theorem scan_concat (text : List Char) (c : Char) :
    ((text ++ [c]).foldl Scan.push ⟨.start, []⟩).seen.reverse =
      (text.foldl Scan.push ⟨.start, []⟩).seen.reverse ++ [(c, .single (placeAfter text))] := by
  rw [List.foldl_append, List.foldl_cons, List.foldl_nil, Scan.push, scan_position,
    Position.start_afterAll, List.reverse_cons]

/-- A character is found with the place behind the text before it. -/
theorem getElem?_scan {text : List Char} {i : Nat} {c : Char} (h : text[i]? = some c) :
    (text.foldl Scan.push ⟨.start, []⟩).seen.reverse[i]? =
      some (c, .single (placeAfter (text.take i))) := by
  induction text using List.reverseRec with
  | nil => simp at h
  | append_singleton text d ih =>
    have hlength : (text.foldl Scan.push ⟨.start, []⟩).seen.reverse.length = text.length := by
      have hseen := congrArg List.length (scan_seen text ⟨.start, []⟩)
      simpa using hseen
    rw [scan_concat]
    by_cases hi : i < text.length
    · rw [List.getElem?_append_left hi] at h
      rw [List.getElem?_append_left (by omega), ih h, List.take_append_of_le_length (by omega)]
    · obtain ⟨hbound, -⟩ := List.getElem?_eq_some_iff.1 h
      obtain rfl : i = text.length := by
        rw [List.length_append, List.length_singleton] at hbound
        omega
      rw [List.getElem?_concat_length] at h
      obtain rfl := Option.some.inj h
      rw [← hlength, List.getElem?_concat_length, hlength, List.take_left]

/-! ## The lines of a text -/

/-- The lines of a text, without their ends. -/
def linesOf (text : List Char) : List (List Char) :=
  (text.foldl LineSplit.push ⟨[], []⟩).lines

theorem line?_eq (s : Source) {number : UInt32} {k : Nat} (h : number.toNat = k + 1) :
    s.line? number = (linesOf s.text.toList)[k]?.map String.ofList := by
  have hne : number ≠ 0 := by
    intro hzero
    rw [hzero] at h
    exact Nat.succ_ne_zero k h.symm
  rw [line?, if_neg hne, h, Nat.add_sub_cancel, lines, List.getElem?_map, linesOf]

namespace LineSplit

theorem push_newline (s : LineSplit) :
    s.push '\n' = ⟨(dropReturn s.current).reverse :: s.finished, []⟩ :=
  rfl

theorem push_of_ne (s : LineSplit) {c : Char} (hc : c ≠ '\n') :
    s.push c = ⟨s.finished, c :: s.current⟩ :=
  if_neg hc

theorem foldl_push_of_notMem {line : List Char} (h : '\n' ∉ line) (s : LineSplit) :
    line.foldl push s = ⟨s.finished, line.reverse ++ s.current⟩ := by
  induction line generalizing s with
  | nil => rfl
  | cons c line ih =>
    obtain ⟨hc, hline⟩ : '\n' ≠ c ∧ '\n' ∉ line := by simpa using h
    rw [List.foldl_cons, push_of_ne s hc.symm, ih hline]
    simp

/-- Lines that are finished stay as they are. -/
theorem lines_foldl_push (text : List Char) (s : LineSplit) :
    (text.foldl push s).lines =
      s.finished.reverse ++ (text.foldl push ⟨[], s.current⟩).lines := by
  induction text generalizing s with
  | nil =>
    obtain ⟨finished, current⟩ := s
    cases current <;> simp [lines]
  | cons c text ih =>
    rw [List.foldl_cons, List.foldl_cons]
    by_cases hc : c = '\n'
    · subst hc
      rw [push_newline, push_newline, ih, ih ⟨[(dropReturn s.current).reverse], []⟩]
      simp
    · rw [push_of_ne s hc, push_of_ne _ hc, ih]

theorem length_finished (text : List Char) (s : LineSplit) :
    (text.foldl push s).finished.length = s.finished.length + text.count '\n' := by
  induction text generalizing s with
  | nil => rfl
  | cons c text ih =>
    rw [List.foldl_cons, ih]
    by_cases hc : c = '\n'
    · subst hc
      rw [push_newline, List.count_cons_self, List.length_cons]
      omega
    · rw [push_of_ne s hc, List.count_cons_of_ne hc]

end LineSplit

/-- Behind whole lines, the next line is the first one of what follows. -/
theorem getElem?_linesOf {before : List Char} (h : EndsLine before) (rest : List Char) :
    (linesOf (before ++ rest))[before.count '\n']? = (linesOf rest)[0]? := by
  have hcurrent : (before.foldl LineSplit.push ⟨[], []⟩).current = [] := by
    rcases h with rfl | ⟨init, rfl⟩
    · rfl
    · rw [List.foldl_append]
      rfl
  have hcount := LineSplit.length_finished before ⟨[], []⟩
  rw [linesOf, List.foldl_append, LineSplit.lines_foldl_push, hcurrent]
  rw [List.length_nil, Nat.zero_add] at hcount
  rw [List.getElem?_append_right (by simp [hcount]), List.length_reverse, hcount, Nat.sub_self,
    linesOf]

theorem linesOf_of_notMem {line : List Char} (h : '\n' ∉ line) (hne : line ≠ []) :
    (linesOf line)[0]? = some line := by
  rw [linesOf, LineSplit.foldl_push_of_notMem h]
  obtain ⟨last, init, hinit⟩ := List.exists_cons_of_ne_nil (List.reverse_ne_nil_iff.2 hne)
  rw [List.append_nil, hinit]
  simp [LineSplit.lines, ← hinit]

theorem linesOf_newline {line : List Char} (h : '\n' ∉ line) (rest : List Char) :
    (linesOf (line ++ '\n' :: rest))[0]? = some (dropReturn line.reverse).reverse := by
  rw [linesOf, List.foldl_append, LineSplit.foldl_push_of_notMem h, List.foldl_cons,
    LineSplit.push_newline, LineSplit.lines_foldl_push, List.append_nil]
  rfl

theorem dropReturn_of_ne {c : Char} (hc : c ≠ '\r') (rest : List Char) :
    dropReturn (c :: rest) = c :: rest := by
  unfold dropReturn
  split
  · next heq => exact absurd (List.cons.inj heq).1 hc
  · rfl

theorem dropReturn_suffix (line : List Char) : dropReturn line <:+ line := by
  unfold dropReturn
  split
  · exact List.suffix_cons ..
  · exact List.suffix_rfl

/-- If a carriage return is dropped at the end of a line, the characters before it stay. -/
theorem dropReturn_keeps (first : List Char) {last : List Char} {c : Char}
    (h : last = [] → c ≠ '\r') :
    ∃ kept ending, (dropReturn (first ++ c :: last).reverse).reverse = first ++ c :: kept ∧
      last = kept ++ ending := by
  induction last using List.reverseRec with
  | nil =>
    refine ⟨[], [], ?_, rfl⟩
    rw [List.reverse_append, List.reverse_singleton, List.singleton_append,
      dropReturn_of_ne (h rfl)]
    simp
  | append_singleton last d _ =>
    have hreverse : (first ++ c :: (last ++ [d])).reverse = d :: (first ++ c :: last).reverse := by
      simp
    rw [hreverse]
    by_cases hd : d = '\r'
    · subst hd
      exact ⟨last, ['\r'], List.reverse_reverse _, rfl⟩
    · refine ⟨last ++ [d], [], ?_, (List.append_nil _).symm⟩
      rw [dropReturn_of_ne hd]
      simp

/-! ## The line of a character -/

/-- The text before a character: whole lines, and the characters since the last line feed. -/
theorem exists_lineStart (text : List Char) :
    ∃ before first, text = before ++ first ∧ EndsLine before ∧ '\n' ∉ first := by
  induction text using List.reverseRec with
  | nil => exact ⟨[], [], rfl, Or.inl rfl, by simp⟩
  | append_singleton text c ih =>
    by_cases hc : c = '\n'
    · subst hc
      exact ⟨text ++ ['\n'], [], (List.append_nil _).symm, Or.inr ⟨text, rfl⟩, by simp⟩
    · obtain ⟨before, first, rfl, hends, hfirst⟩ := ih
      exact ⟨before, first ++ [c], List.append_assoc .., hends, by simp [hfirst, Ne.symm hc]⟩

theorem lineAfter_lineStart (before : List Char) {first : List Char} (hfirst : '\n' ∉ first) :
    lineAfter (before ++ first) = before.count '\n' + 1 := by
  rw [lineAfter, List.count_append, List.count_eq_zero.2 hfirst, Nat.add_zero]

theorem columnAfter_lineStart {before first : List Char} (hends : EndsLine before)
    (hfirst : '\n' ∉ first) : columnAfter (before ++ first) = first.length + 1 := by
  have hplain : ∀ c ∈ first.reverse, decide (c ≠ '\n') = true := by
    intro c hc
    rw [decide_eq_true_iff]
    rintro rfl
    exact hfirst (List.mem_reverse.1 hc)
  rw [columnAfter, List.reverse_append, List.takeWhile_append_of_pos hplain]
  rcases hends with rfl | ⟨init, rfl⟩ <;> simp

/-- The text behind a character: the rest of its line, and a line feed if there is one. -/
theorem exists_lineRest (text : List Char) :
    ∃ last rest, text = last ++ rest ∧ '\n' ∉ last ∧
      (rest = [] ∨ ∃ more, rest = '\n' :: more) := by
  induction text with
  | nil => exact ⟨[], [], rfl, by simp, Or.inl rfl⟩
  | cons c text ih =>
    by_cases hc : c = '\n'
    · exact ⟨[], c :: text, rfl, by simp, Or.inr ⟨text, by rw [hc]⟩⟩
    · obtain ⟨last, rest, rfl, hlast, hrest⟩ := ih
      exact ⟨c :: last, rest, rfl, by simp [hlast, Ne.symm hc], hrest⟩

/-- The first line of a text whose first line feed, if there is one, comes after a character that
ends no line. -/
theorem exists_firstLine {first behind : List Char} {c : Char} (hfirst : '\n' ∉ first)
    (hend : ¬ InLineEnd (first ++ c :: behind) first.length) :
    ∃ kept after, (linesOf (first ++ c :: behind))[0]? = some (first ++ c :: kept) ∧
      behind = kept ++ after := by
  have hc : '\n' ≠ c := fun h => hend (Or.inl (by simp [← h]))
  obtain ⟨last, rest, rfl, hlast, hrest⟩ := exists_lineRest behind
  have hline : '\n' ∉ first ++ c :: last := by simp [hfirst, hlast, hc]
  rcases hrest with rfl | ⟨more, rfl⟩
  · refine ⟨last, [], ?_, rfl⟩
    rw [List.append_nil]
    exact linesOf_of_notMem hline (by simp)
  · have hreturn : last = [] → c ≠ '\r' := by
      rintro rfl rfl
      exact hend (Or.inr (by simp))
    obtain ⟨kept, ending, hkept, rfl⟩ := dropReturn_keeps first hreturn
    refine ⟨kept, ending ++ '\n' :: more, ?_, List.append_assoc ..⟩
    rw [← List.cons_append, ← List.append_assoc, linesOf_newline hline, hkept]

theorem notMem_firstLine {text line : List Char} (h : (linesOf text)[0]? = some line) :
    '\n' ∉ line := by
  obtain ⟨last, rest, rfl, hlast, hrest⟩ := exists_lineRest text
  rcases hrest with rfl | ⟨more, rfl⟩
  · rw [List.append_nil] at h
    by_cases hnil : last = []
    · rw [hnil] at h
      cases h
    · rw [linesOf_of_notMem hlast hnil] at h
      exact Option.some.inj h ▸ hlast
  · rw [linesOf_newline hlast] at h
    rw [← Option.some.inj h, List.mem_reverse]
    intro hmem
    exact hlast (List.mem_reverse.1 ((dropReturn_suffix _).mem hmem))

theorem HasLine.notMem {s : Source} {number : UInt32} {before : List Char} {line : String}
    (h : s.HasLine number before line) : '\n' ∉ line.toList := by
  obtain ⟨rest, hrest⟩ := h.stands
  have hfound := h.found
  rw [s.line?_eq h.numbered.symm, ← hrest, List.append_assoc, getElem?_linesOf h.whole] at hfound
  obtain ⟨first, hfirst, rfl⟩ := Option.map_eq_some_iff.1 hfound
  rw [String.toList_ofList]
  exact notMem_firstLine hfirst

/-- The line that is addressed is the character's own, so that its numbers are not cut off. -/
theorem Addresses.inReach {s : Source} {i : Nat} {c : Char} (hi : i ≤ s.text.toList.length)
    (h : s.Addresses (placeAfter (s.text.toList.take i)) c) : InReach s.text.toList i := by
  obtain ⟨before, line, hline, hpositive, hoffset, hcolumn⟩ := h
  obtain ⟨hbound, -⟩ := List.getElem?_eq_some_iff.1 hcolumn
  generalize hplace : placeAfter (s.text.toList.take i) = p at *
  have hi : i = before.length + (p.column.toNat - 1) := by
    rw [← hoffset, ← hplace]
    exact (List.length_take_of_le hi).symm
  have htake : s.text.toList.take i = before ++ line.toList.take (p.column.toNat - 1) := by
    obtain ⟨rest, hrest⟩ := hline.stands
    rw [← hrest, List.append_assoc, hi, List.take_length_add_append,
      List.take_append_of_le_length (Nat.le_of_lt hbound)]
  have hfirst : '\n' ∉ line.toList.take (p.column.toNat - 1) :=
    fun hmem => hline.notMem (List.mem_of_mem_take hmem)
  constructor
  · rw [htake, lineAfter_lineStart before hfirst, hline.numbered]
    exact UInt32.toNat_lt _
  · rw [htake, columnAfter_lineStart hline.whole hfirst,
      List.length_take_of_le (Nat.le_of_lt hbound), Nat.sub_add_cancel hpositive]
    exact UInt32.toNat_lt _

theorem addresses_of_inReach (s : Source) {i : Nat} {c : Char} (hc : s.text.toList[i]? = some c)
    (hend : ¬ InLineEnd s.text.toList i) (h : InReach s.text.toList i) :
    s.Addresses (placeAfter (s.text.toList.take i)) c := by
  obtain ⟨hi, hget⟩ := List.getElem?_eq_some_iff.1 hc
  obtain ⟨before, first, hsplit, hends, hfirst⟩ := exists_lineStart (s.text.toList.take i)
  have hlength : i = before.length + first.length := by
    rw [← List.length_append, ← hsplit, List.length_take_of_le (Nat.le_of_lt hi)]
  obtain ⟨behind, htext⟩ : ∃ behind, s.text.toList = before ++ (first ++ c :: behind) := by
    refine ⟨s.text.toList.drop (i + 1), ?_⟩
    rw [← List.append_assoc, ← hsplit, ← hget, ← List.drop_eq_getElem_cons hi,
      List.take_append_drop]
  -- whether a line ends here is told by the characters from the start of the line on
  have hend' : ¬ InLineEnd (first ++ c :: behind) first.length := by
    rw [htext, hlength, inLineEnd_append] at hend
    exact hend
  obtain ⟨kept, after, hfound, hbehind⟩ := exists_firstLine hfirst hend'
  have hline : (placeAfter (s.text.toList.take i)).line.toNat = before.count '\n' + 1 := by
    rw [← lineAfter_lineStart before hfirst, ← hsplit]
    exact UInt32.toNat_ofNat_of_lt h.1
  have hcolumn : (placeAfter (s.text.toList.take i)).column.toNat = first.length + 1 := by
    rw [← columnAfter_lineStart hends hfirst, ← hsplit]
    exact UInt32.toNat_ofNat_of_lt h.2
  refine ⟨before, String.ofList (first ++ c :: kept), ⟨?_, ?_, hends, hline.symm⟩, ?_, ?_, ?_⟩
  · rw [s.line?_eq hline, htext, getElem?_linesOf hends, hfound, Option.map_some]
  · rw [String.toList_ofList, htext, hbehind]
    exact ⟨after, by simp⟩
  · rw [hcolumn]
    exact Nat.succ_pos _
  · rw [hcolumn, Nat.add_sub_cancel, ← hlength]
    exact List.length_take_of_le (Nat.le_of_lt hi)
  · rw [String.toList_ofList, hcolumn, Nat.add_sub_cancel]
    simp

/-- A character that ends no line is addressed by its place just if it is in reach. -/
theorem addresses_placeAfter (s : Source) {i : Nat} {c : Char} (hc : s.text.toList[i]? = some c)
    (hend : ¬ InLineEnd s.text.toList i) :
    s.Addresses (placeAfter (s.text.toList.take i)) c ↔ InReach s.text.toList i :=
  ⟨Addresses.inReach (Nat.le_of_lt (List.getElem?_eq_some_iff.1 hc).1),
    s.addresses_of_inReach hc hend⟩

end Source

/-- In a text of fewer than `2 ^ 32` characters, all of them are in reach. -/
theorem inReach_of_length {text : List Char} (htext : text.length < 2 ^ 32) {i : Nat}
    (hi : i < text.length) : InReach text i := by
  have hlines := List.count_le_length (a := '\n') (l := text.take i)
  have hcolumns := (List.takeWhile_prefix (l := (text.take i).reverse) (· ≠ '\n')).length_le
  rw [List.length_reverse] at hcolumns
  rw [List.length_take_of_le (Nat.le_of_lt hi)] at hlines hcolumns
  constructor
  · rw [lineAfter]
    omega
  · rw [columnAfter]
    omega

end TapeToolchain
