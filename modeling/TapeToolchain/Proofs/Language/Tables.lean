import TapeToolchain.Proofs.Actions
import TapeToolchain.Proofs.Language.Syntax
import Mathlib.Data.List.Nodup
import Mathlib.Data.List.Perm.Basic

/-!
Tables of macros. A table to which macros are added one after the other is the table of a program,
and if their names differ, the program finds each of them under its name.
-/

namespace TapeToolchain

/-- The name, the parameters and the body of a macro, as a table takes them. -/
def Macro.entry (m : Macro) : String × List String × List Node :=
  (m.name, m.params, m.body.nodes)

/-- Puts a macro in front of the first one with a greater name. -/
def Macro.insertSorted (m : Macro) : List Macro → List Macro
  | [] => [m]
  | e :: rest => if m.name < e.name then m :: e :: rest else e :: m.insertSorted rest

namespace Macro

/-- A definition takes its place among definitions like the macro among macros. -/
theorem insertSorted_definition (m : Macro) (macros : List Macro) :
    MacroTable.insertSorted m.definition (macros.map Macro.definition) =
      (m.insertSorted macros).map Macro.definition := by
  induction macros with
  | nil => rfl
  | cons first rest ih =>
    rw [List.map_cons, MacroTable.insertSorted, insertSorted, ih]
    show (if m.name < first.name then _ else _) = _
    split <;> rfl

theorem insertSorted_perm (m : Macro) (macros : List Macro) :
    (m.insertSorted macros).Perm (m :: macros) := by
  induction macros with
  | nil => exact .refl _
  | cons first rest ih =>
    rw [insertSorted]
    split
    · exact .refl _
    · exact (ih.cons first).trans (.swap m first rest)

end Macro

/-- Names that differ are looked up in any order alike. -/
theorem find?_of_perm {a b : List Macro} (h : a.Perm b) (hnames : (b.map Macro.name).Nodup)
    (name : String) : a.find? (fun m => m.name == name) = b.find? fun m => m.name == name := by
  induction h with
  | nil => rfl
  | cons m _ ih =>
    rw [List.map_cons, List.nodup_cons] at hnames
    rw [List.find?_cons, List.find?_cons, ih hnames.2]
  | swap m e rest =>
    have hne : m.name ≠ e.name := by
      rintro heq
      simp [heq] at hnames
    rw [List.find?_cons, List.find?_cons, List.find?_cons, List.find?_cons]
    by_cases hm : m.name == name
    · have he : (e.name == name) = false := by
        rw [← eq_of_beq hm]
        simpa using hne.symm
      rw [hm, he]
    · rw [Bool.not_eq_true] at hm
      rw [hm]
  | trans _ h₂ ih₁ ih₂ =>
    rw [ih₁ ((h₂.map Macro.name).nodup_iff.2 hnames), ih₂ hnames]

namespace MacroProgram

def add (p : MacroProgram) (m : Macro) : MacroProgram :=
  ⟨m.insertSorted p.macros⟩

theorem define_ok {p : MacroProgram} {m : Macro} {t : MacroTable}
    (h : p.table.define m.name m.params m.body.nodes = .ok t) : t = (p.add m).table := by
  simp only [MacroTable.define] at h
  split at h
  · cases h
  · split at h
    · cases h
    · cases h
      exact congrArg MacroTable.mk (m.insertSorted_definition p.macros)

/-- A table to which macros are added is the table of a program. -/
theorem defineAll_ok {p : MacroProgram} {macros : List Macro} {t : MacroTable}
    (h : p.table.defineAll (macros.map Macro.entry) = .ok t) : t = (macros.foldl add p).table := by
  induction macros generalizing p with
  | nil => cases h; rfl
  | cons m rest ih =>
    obtain ⟨extended, hdefine, hrest⟩ := except_bind_eq_ok.1 h
    rw [define_ok hdefine] at hrest
    exact ih hrest

theorem perm_foldl_add (p : MacroProgram) (macros : List Macro) :
    (macros.foldl add p).macros.Perm (macros ++ p.macros) := by
  induction macros generalizing p with
  | nil => exact .refl _
  | cons m rest ih =>
    exact (ih (p.add m)).trans
      (((m.insertSorted_perm p.macros).append_left rest).trans List.perm_middle)

/-- A macro of a new name, with different parameters, is added. -/
theorem define_of_new {p : MacroProgram} {m : Macro} (hnew : p.find? m.name = none)
    (hparams : m.params.Nodup) :
    p.table.define m.name m.params m.body.nodes = .ok (p.add m).table := by
  have hfind : ¬ (p.table.find? m.name).isSome = true := by simp [p.find?_table, hnew]
  have hsymbols : firstRepeated? [] (m.params.map Symbol.visible) = none := by
    refine firstRepeated?_eq_none.2 ⟨hparams.map fun a b h => ?_, by simp⟩
    exact congrArg Symbol.text h
  have hdefine : ∃ t, p.table.define m.name m.params m.body.nodes = .ok t := by
    simp only [MacroTable.define, if_neg hfind, hsymbols]
    exact ⟨_, rfl⟩
  obtain ⟨t, ht⟩ := hdefine
  rw [ht, define_ok ht]

theorem mem_add {p : MacroProgram} {m e : Macro} : e ∈ (p.add m).macros ↔ e = m ∨ e ∈ p.macros := by
  rw [add, (m.insertSorted_perm p.macros).mem_iff, List.mem_cons]

/-- Macros of different names, each with different parameters, are added. -/
theorem defineAll_of_nodup (macros : List Macro) (hnames : (macros.map Macro.name).Nodup)
    (hparams : ∀ m ∈ macros, m.params.Nodup) :
    MacroTable.empty.defineAll (macros.map Macro.entry) = .ok (macros.foldl add ⟨[]⟩).table := by
  suffices hall : ∀ p : MacroProgram, (∀ m ∈ macros, p.find? m.name = none) →
      ∃ t, p.table.defineAll (macros.map Macro.entry) = .ok t by
    obtain ⟨t, ht⟩ := hall ⟨[]⟩ fun _ _ => rfl
    have htable : MacroTable.empty = MacroProgram.table ⟨[]⟩ := rfl
    rw [htable, ht, defineAll_ok ht]
  induction macros with
  | nil => exact fun p _ => ⟨p.table, rfl⟩
  | cons m rest ih =>
    intro p hnew
    rw [List.map_cons, List.nodup_cons] at hnames
    have ht := define_of_new (hnew m List.mem_cons_self) (hparams m List.mem_cons_self)
    obtain ⟨t', ht'⟩ :=
      ih hnames.2 (fun e he => hparams e (List.mem_cons_of_mem _ he)) (p.add m) fun e he => by
      refine List.find?_eq_none.2 fun e' he' => ?_
      rcases mem_add.1 he' with rfl | he'
      · have hne : e'.name ≠ e.name := fun heq => hnames.1 (heq ▸ List.mem_map.2 ⟨e, he, rfl⟩)
        simpa using hne
      · exact List.find?_eq_none.1 (hnew e (List.mem_cons_of_mem _ he)) e' he'
    exact ⟨t', except_bind_eq_ok.2 ⟨_, ht, ht'⟩⟩

/-- A program of macros of different names has each of them. -/
theorem find?_foldl_add {macros : List Macro} (hnames : (macros.map Macro.name).Nodup)
    (name : String) :
    (macros.foldl add ⟨[]⟩).find? name = macros.find? fun m => m.name == name := by
  have hperm := perm_foldl_add ⟨[]⟩ macros
  rw [List.append_nil] at hperm
  exact find?_of_perm hperm hnames name

theorem mem_foldl_add {macros : List Macro} {m : Macro} :
    m ∈ (macros.foldl add ⟨[]⟩).macros ↔ m ∈ macros := by
  rw [(perm_foldl_add ⟨[]⟩ macros).mem_iff, List.append_nil]

end MacroProgram

end TapeToolchain
