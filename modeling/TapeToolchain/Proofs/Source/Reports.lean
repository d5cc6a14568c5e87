import TapeToolchain.Proofs.Source.Deletion
import TapeToolchain.Proofs.Source.Layout
import TapeToolchain.Proofs.Source.Unmatched
import Mathlib.Data.List.Sort

/-!
What the reader reports of a text that is no program. Its errors are the brackets without a partner,
each at its own place (`Source.errors_are_unpartnered_brackets`). Like the layout of the commands,
this is followed along the reading, one character at a time (`Reading.Reports`).
-/

namespace TapeToolchain

/-- The number of the line behind a text, counted by the line feeds in the text. -/
def lineAfter (text : List Char) : Nat :=
  text.count '\n' + 1

/-- The number of the column behind a text, counted by the characters since the last line feed. -/
def columnAfter (text : List Char) : Nat :=
  (text.reverse.takeWhile (· ≠ '\n')).length + 1

/-- The place behind a text. Of its line and its column, 32 bits are kept. -/
def placeAfter (text : List Char) : Position where
  line := .ofNat (lineAfter text)
  column := .ofNat (columnAfter text)
  offset := text.length

theorem lineAfter_newline (text : List Char) :
    lineAfter (text ++ ['\n']) = lineAfter text + 1 := by
  simp [lineAfter]

theorem lineAfter_of_ne (text : List Char) {c : Char} (hc : c ≠ '\n') :
    lineAfter (text ++ [c]) = lineAfter text := by
  simp [lineAfter, hc]

theorem columnAfter_newline (text : List Char) : columnAfter (text ++ ['\n']) = 1 := by
  simp [columnAfter]

theorem columnAfter_of_ne (text : List Char) {c : Char} (hc : c ≠ '\n') :
    columnAfter (text ++ [c]) = columnAfter text + 1 := by
  simp [columnAfter, hc]

theorem Position.start_afterAll (text : List Char) : start.afterAll text = placeAfter text := by
  induction text using List.reverseRec with
  | nil => rfl
  | append_singleton text c ih =>
    rw [afterAll_append, ih]
    show (placeAfter text).after c = placeAfter (text ++ [c])
    by_cases hc : c = '\n'
    · subst hc
      simp [placeAfter, after, newline, lineAfter_newline, columnAfter_newline]
    · simp [placeAfter, after, advance, hc, lineAfter_of_ne, columnAfter_of_ne]

namespace Reading

/-- The brackets that a reading would report are those without a partner in the text that has been
read, and each of them is held with its place. -/
structure Reports (text : List Char) (r : Reading) : Prop where
  paired : Matches text r
  unpartnered : Unpartnered text (r.opened.map (·.2.start.offset))
    (r.unmatched.map (·.start.offset))
  placed : ∀ span ∈ r.opened.map (·.2) ++ r.unmatched, ∃ before, before <+: text ∧
    span = .single (placeAfter before)

namespace Reports

variable {text : List Char} {r : Reading}

theorem placed_append (h : Reports text r) (more : List Char) {span : Span}
    (hspan : span ∈ r.opened.map (·.2) ++ r.unmatched) :
    ∃ before, before <+: text ++ more ∧ span = .single (placeAfter before) := by
  obtain ⟨before, hbefore, hplace⟩ := h.placed span hspan
  exact ⟨before, hbefore.trans (List.prefix_append text more), hplace⟩

theorem of_same {r' : Reading} {c : Char} (h : Reports text r) (hpaired : Matches (text ++ [c]) r')
    (hopen : c ≠ '[') (hclose : c ≠ ']') (hopened : r'.opened = r.opened)
    (hunmatched : r'.unmatched = r.unmatched) : Reports (text ++ [c]) r' where
  paired := hpaired
  unpartnered := by rw [hopened, hunmatched]; exact h.unpartnered.plain hopen hclose
  placed := by rw [hopened, hunmatched]; exact fun span => h.placed_append [c]

theorem pushRepeatable (h : Reports text r) (kind : Repeatable) (span : Span) :
    Reports (text ++ [kind.instruction.toChar]) (r.pushRepeatable kind span) := by
  obtain ⟨hopened, hunmatched, -⟩ := r.pushRepeatable_brackets kind span
  refine h.of_same (h.paired.pushRepeatable kind span) ?_ ?_ hopened hunmatched
  · cases kind <;> decide
  · cases kind <;> decide

theorem beginLoop (h : Reports text r) :
    Reports (text ++ ['[']) (r.step ⟨.loopBegin, .single (Position.start.afterAll text)⟩) where
  paired := h.paired.beginLoop
  unpartnered := by
    have hopening := h.unpartnered.opening
    rw [← Position.offset_start_afterAll text] at hopening
    exact hopening
  placed := by
    intro span hspan
    rcases List.mem_cons.1 hspan with rfl | hspan
    · exact ⟨text, List.prefix_append text ['['], by rw [Position.start_afterAll]⟩
    · exact h.placed_append ['['] hspan

theorem endLoop (h : Reports text r) :
    Reports (text ++ [']']) (r.step ⟨.loopEnd, .single (Position.start.afterAll text)⟩) := by
  have hpaired := h.paired.endLoop
  have hunpartnered := h.unpartnered
  have hunpaired := h.paired.unpaired
  cases hopened : r.opened with
  | nil =>
    rw [hopened] at hunpartnered
    have hclosing := hunpartnered.closing
    rw [← Position.offset_start_afterAll text] at hclosing
    simp only [step, hopened] at hpaired ⊢
    refine ⟨hpaired, hclosing, fun span hspan => ?_⟩
    rcases List.mem_cons.1 hspan with rfl | hspan
    · exact ⟨text, List.prefix_append text [']'], by rw [Position.start_afterAll]⟩
    · exact h.placed_append [']'] (List.mem_append_right _ hspan)
  | cons last opened =>
    rw [hopened] at hunpartnered hunpaired
    have hnot := (List.pairwise_cons.1 hunpaired.descending.1).1
    simp only [step, hopened] at hpaired ⊢
    refine ⟨hpaired, hunpartnered.close (fun hmem => ?_) hunpaired.close.2, fun span hspan => ?_⟩
    · exact Nat.lt_irrefl _ (hnot _ hmem)
    · refine h.placed_append [']'] ?_
      rw [hopened]
      exact List.mem_cons_of_mem _ hspan

/-- One more instruction is read. -/
theorem step (h : Reports text r) (i : Instruction) :
    Reports (text ++ [i.toChar]) (r.step ⟨i, .single (Position.start.afterAll text)⟩) := by
  cases i with
  | right => exact h.pushRepeatable .right _
  | left => exact h.pushRepeatable .left _
  | increment => exact h.pushRepeatable .increment _
  | decrement => exact h.pushRepeatable .decrement _
  | read | write => exact h.of_same (h.paired.step _) (by decide) (by decide) rfl rfl
  | loopBegin => exact h.beginLoop
  | loopEnd => exact h.endLoop

end Reports

theorem reports_text (text : List Char) :
    Reports text ((tokensFrom .start text).foldl step .start) := by
  refine of_text ⟨matches_text [], .nil, by simp [start]⟩ ?_ ?_ text
  · intro text r c h hc
    have hopen : c ≠ '[' := by
      rintro rfl
      cases hc
    have hclose : c ≠ ']' := by
      rintro rfl
      cases hc
    exact h.of_same (h.paired.of_same hopen hclose rfl rfl rfl rfl) hopen hclose rfl rfl
  · intro text r i h
    exact h.step i

/-! ## The list of errors -/

/-- There are errors just if some bracket has found no partner. -/
theorem finish_eq_error {r : Reading} {errors : List BracketError} (h : r.finish = .error errors) :
    errors = r.errors := by
  rw [finish] at h
  split at h
  · cases h
  · cases h
    rfl

/-- Places in order are told by which places they are. -/
theorem eq_map_placeAfter {text : List Char} {spans : List Span} {places : List Nat}
    (hspans : ∀ span ∈ spans, ∃ before, before <+: text ∧ span = .single (placeAfter before))
    (hdescending : (spans.map (·.start.offset)).Pairwise (· > ·))
    (hascending : places.Pairwise (· < ·))
    (hmem : ∀ i, i ∈ spans.map (·.start.offset) ↔ i ∈ places) :
    spans.reverse = places.map fun i => Span.single (placeAfter (text.take i)) := by
  have hplaces : (spans.map (·.start.offset)).reverse = places := by
    refine List.Pairwise.eq_of_mem_iff (List.pairwise_reverse.2 hdescending) hascending fun i => ?_
    rw [List.mem_reverse, hmem]
  rw [← hplaces, List.map_reverse, List.map_map]
  refine congrArg List.reverse
    ((List.map_id spans).symm.trans (List.map_congr_left fun span hspan => ?_))
  obtain ⟨before, hbefore, rfl⟩ := hspans span hspan
  show Span.single (placeAfter before) = .single (placeAfter (text.take before.length))
  rw [← List.prefix_iff_eq_take.1 hbefore]

theorem Reports.errors_eq {text : List Char} {r : Reading} (h : Reports text r) :
    r.errors = (strayClosings text).map
      (fun j => ⟨.unmatchedClose, .single (placeAfter (text.take j))⟩) ++
      (unclosedOpenings text).map fun i => ⟨.unclosedLoop, .single (placeAfter (text.take i))⟩ := by
  have hdescending := h.paired.unpaired.descending
  have hstray : r.unmatched.reverse = _ :=
    eq_map_placeAfter (fun span hs => h.placed span (List.mem_append_right _ hs))
    hdescending.2 (List.pairwise_lt_range.filter _) fun j =>
      (h.unpartnered.stray j).trans mem_strayClosings.symm
  have hopened : (r.opened.map (·.2)).reverse = _ := eq_map_placeAfter
    (fun span hs => h.placed span (List.mem_append_left _ hs))
    (by rw [List.map_map]; exact hdescending.1) (List.pairwise_lt_range.filter _)
    fun i => by rw [List.map_map]; exact (h.unpartnered.opened i).trans mem_unclosedOpenings.symm
  have hfaults : r.opened.reverse.map (fun x => BracketError.mk .unclosedLoop x.2) =
      (r.opened.map (·.2)).reverse.map (⟨.unclosedLoop, ·⟩) := by
    rw [← List.map_reverse, List.map_map]
    rfl
  rw [errors, hfaults, hstray, hopened, List.map_map, List.map_map]
  rfl

end Reading

end TapeToolchain
