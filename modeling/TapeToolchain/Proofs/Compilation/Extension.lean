import TapeToolchain.Proofs.Compilation.Success
import TapeToolchain.Proofs.Language.Tables

/-!
Programs with more macros. A program that finds what another finds does with it what the other does:
its blocks are structured if those of the other are (`Extends.structured`), and what fits with the
macros of the one fits with those of the other (`Extends.fit`). So whatever is known of a library
holds in every program that an entry is added to.
-/

namespace TapeToolchain.MacroProgram

/-- The second program finds every macro that the first one finds. -/
def Extends (p q : MacroProgram) : Prop :=
  ∀ name m, p.find? name = some m → q.find? name = some m

/-! ## A further macro -/

/-- A macro that is added under a new name is found there, and the others are found as before. -/
theorem find?_add {p : MacroProgram} {m : Macro} (hnew : p.find? m.name = none) (name : String) :
    (p.add m).find? name = if m.name = name then some m else p.find? name := by
  obtain ⟨macros⟩ := p
  have hother : ∀ e ∈ macros, e.name ≠ m.name := by
    intro e he
    simpa using List.find?_eq_none.1 hnew e he
  show (m.insertSorted macros).find? _ = if m.name = name then some m else macros.find? _
  clear hnew
  induction macros with
  | nil => by_cases hname : m.name = name <;> simp [Macro.insertSorted, hname]
  | cons first rest ih =>
    have hrest := ih fun e he => hother e (List.mem_cons_of_mem _ he)
    have hfirst := hother first List.mem_cons_self
    rw [Macro.insertSorted]
    split
    · by_cases hname : m.name = name <;> simp [hname]
    · rw [List.find?_cons, hrest]
      by_cases hname : m.name = name
      · have hne : (first.name == name) = false := by simpa [hname] using hfirst
        simp [hname, hne]
      · simp [hname, List.find?_cons]

theorem find?_add_self {p : MacroProgram} {m : Macro} (hnew : p.find? m.name = none) :
    (p.add m).find? m.name = some m := by
  rw [find?_add hnew, if_pos rfl]

namespace Extends

variable {p q : MacroProgram}

theorem add {m : Macro} (hnew : p.find? m.name = none) : p.Extends (p.add m) := by
  intro name e he
  have hne : m.name ≠ name := by
    intro heq
    rw [heq, he] at hnew
    cases hnew
  rw [find?_add hnew, if_neg hne, he]

/-! ## Blocks in a larger program -/

theorem builtins (h : p.Extends q) (block : Block) :
    ∀ b ∈ q.builtins block, b ∈ p.builtins block := by
  induction block with
  | done => simp [MacroProgram.builtins]
  | localCell x rest ih => exact ih
  | ifNonzero c body rest ihbody ihrest =>
    intro b hb
    simp only [MacroProgram.builtins, List.mem_append] at hb ⊢
    exact hb.imp (ihbody b) (ihrest b)
  | whileNonzero c body rest ihbody ihrest =>
    intro b hb
    simp only [MacroProgram.builtins, List.mem_append] at hb ⊢
    exact hb.imp (ihbody b) (ihrest b)
  | call f args rest ih =>
    intro b hb
    simp only [MacroProgram.builtins, List.mem_append] at hb ⊢
    apply hb.imp _ (ih b)
    intro hb
    cases hp : p.find? f with
    | some m => simp [h f m hp] at hb
    | none =>
      cases hq : q.find? f with
      | some m => simp [hq] at hb
      | none => simpa [hq] using hb
  | builtin b args rest ih =>
    intro c hc
    simp only [MacroProgram.builtins, List.mem_cons] at hc ⊢
    exact hc.imp_right (ih c)

theorem structured (h : p.Extends q) {block : Block} (hblock : p.Structured block) :
    q.Structured block :=
  fun b hb => hblock b (h.builtins block b hb)

/-- A block that fits still fits if callees do. -/
theorem fitWith (h : p.Extends q) {limit : Nat}
    {callee callee' : Environment → Shape → Block → Option Nat}
    (hcallee : ∀ env sh block base, callee env sh block = some base →
      callee' env sh block = some base)
    {env : Environment} {sh : Shape} {block : Block} {base : Nat}
    (hfit : p.fitWith limit callee env sh block = some base) :
    q.fitWith limit callee' env sh block = some base := by
  induction block generalizing env sh base with
  | done => exact hfit
  | localCell x rest ih =>
    obtain ⟨hroom, hrest⟩ := fitWith_localCell.1 hfit
    exact fitWith_localCell.2 ⟨hroom, ih hrest⟩
  | ifNonzero c body rest ihbody ihrest =>
    obtain ⟨i, middle, hc, hroom, hbody, hrest⟩ := fitWith_ifNonzero.1 hfit
    exact fitWith_ifNonzero.2 ⟨i, middle, hc, hroom, ihbody hbody, ihrest hrest⟩
  | whileNonzero c body rest ihbody ihrest =>
    obtain ⟨i, middle, hc, hnames, hbody, hrest⟩ := fitWith_whileNonzero.1 hfit
    exact fitWith_whileNonzero.2 ⟨i, middle, hc, hnames, ihbody hbody, ihrest hrest⟩
  | call f args rest ih =>
    obtain ⟨m, rs, middle, hm, hplaces, hparams, hbody, hrest⟩ := fitWith_call.1 hfit
    exact fitWith_call.2 ⟨m, rs, middle, h f m hm, hplaces, hparams, hcallee _ _ _ _ hbody,
      ih hrest⟩
  | builtin b args rest ih =>
    obtain ⟨rs, middle, hplaces, hinvoke, hrest⟩ := fitWith_builtin.1 hfit
    exact fitWith_builtin.2 ⟨rs, middle, hplaces, hinvoke, ih hrest⟩

theorem fit (h : p.Extends q) {limit d : Nat} {env : Environment} {sh : Shape} {block : Block}
    {base : Nat} (hfit : p.fit limit d env sh block = some base) :
    q.fit limit d env sh block = some base := by
  induction d generalizing env sh block base with
  | zero => cases hfit
  | succ d ih => exact h.fitWith (fun env sh block base => ih) hfit

end Extends

end TapeToolchain.MacroProgram
