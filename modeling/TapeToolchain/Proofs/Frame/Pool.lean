import TapeToolchain.Proofs.Frame.Composition
import Mathlib.Data.List.Sort

/-!
The occupied cells of a frame. Since a pool keeps its offsets in ascending order, it is known by
what it contains. An allocated cell was free, and an operation with a scratch cell gives back
exactly what it took; so a built-in leaves the pool as it was, whether it succeeds or fails.
-/

namespace TapeToolchain

namespace CellPool

theorem eq_of_mem_iff {p q : CellPool} (h : ∀ o, o ∈ p.offsets ↔ o ∈ q.offsets) : p = q := by
  obtain ⟨ps, hp⟩ := p
  obtain ⟨qs, hq⟩ := q
  obtain rfl : ps = qs := hp.eq_of_mem_iff hq h
  rfl

@[simp] theorem contains_iff {p : CellPool} {o : Int} : p.contains o = true ↔ o ∈ p.offsets := by
  simp [contains]

@[simp] theorem mem_insert {p : CellPool} {a o : Int} :
    a ∈ (p.insert o).offsets ↔ a = o ∨ a ∈ p.offsets :=
  mem_insertOffset

theorem nodup (p : CellPool) : p.offsets.Nodup :=
  p.ascending.imp fun h => Int.ne_of_lt h

@[simp] theorem mem_erase {p : CellPool} {a o : Int} :
    a ∈ (p.erase o).offsets ↔ a ≠ o ∧ a ∈ p.offsets :=
  p.nodup.mem_erase_iff

theorem le_leastFreeFrom (candidate : Int) (offsets : List Int) :
    candidate ≤ leastFreeFrom candidate offsets := by
  induction offsets generalizing candidate with
  | nil => exact Int.le_refl _
  | cons o rest ih =>
    rw [leastFreeFrom]
    split
    · exact ih candidate
    · split
      · have := ih (candidate + 1)
        omega
      · exact Int.le_refl _

theorem leastFreeFrom_notMem {candidate : Int} {offsets : List Int} (h : offsets.Pairwise (· < ·)) :
    leastFreeFrom candidate offsets ∉ offsets := by
  induction offsets generalizing candidate with
  | nil => exact List.not_mem_nil
  | cons o rest ih =>
    obtain ⟨hfirst, hrest⟩ := List.pairwise_cons.1 h
    rw [leastFreeFrom]
    split
    · have := le_leastFreeFrom candidate rest
      rw [List.mem_cons, not_or]
      exact ⟨by omega, ih hrest⟩
    · split
      · have := le_leastFreeFrom (candidate + 1) rest
        rw [List.mem_cons, not_or]
        exact ⟨by omega, ih hrest⟩
      · -- The candidate is before all that remains.
        intro hmem
        rcases List.mem_cons.1 hmem with rfl | hmem
        · omega
        · have := hfirst candidate hmem
          omega

theorem leastFree_nonneg (p : CellPool) : 0 ≤ p.leastFree :=
  le_leastFreeFrom 0 p.offsets

theorem leastFree_notMem (p : CellPool) : p.leastFree ∉ p.offsets :=
  leastFreeFrom_notMem p.ascending

/-- The pool with a scratch cell taken and operands reserved. -/
def lend (p : CellPool) (operands : List Int) : CellPool :=
  ((p.insert p.leastFree).reserveAll operands).2

/-- Giving back the least free cell at once undoes taking it. -/
theorem erase_insert_leastFree (p : CellPool) : (p.insert p.leastFree).erase p.leastFree = p := by
  refine eq_of_mem_iff fun o => ?_
  have hfree := p.leastFree_notMem
  rw [mem_erase, mem_insert]
  constructor
  · tauto
  · intro ho
    refine ⟨?_, Or.inr ho⟩
    rintro rfl
    contradiction

/-- What is reserved in addition is what was asked for and free, once each. -/
theorem reserveAll_spec {p q : CellPool} {operands fresh : List Int}
    (h : p.reserveAll operands = (fresh, q)) :
    (∀ o, o ∈ q.offsets ↔ o ∈ operands ∨ o ∈ p.offsets) ∧ fresh.Nodup ∧
      ∀ o, o ∈ fresh ↔ o ∈ operands ∧ o ∉ p.offsets := by
  induction operands generalizing p fresh with
  | nil => cases h; simp
  | cons a rest ih =>
    obtain ⟨fresh', hrest⟩ : ∃ fresh', (p.insert a).reserveAll rest = (fresh', q) ∧
        fresh = if p.contains a then fresh' else a :: fresh' := by
      simp only [reserveAll, reserve, Prod.mk.injEq] at h
      refine ⟨((p.insert a).reserveAll rest).1, Prod.ext rfl h.2, ?_⟩
      rw [← h.1]
      by_cases hc : p.contains a = true <;> simp [hc]
    obtain ⟨hrest, rfl⟩ := hrest
    obtain ⟨hq, hnodup, hfresh⟩ := ih hrest
    refine ⟨fun o => ?_, ?_, fun o => ?_⟩
    · rw [hq, mem_insert, List.mem_cons]
      tauto
    · split
      · exact hnodup
      · refine List.nodup_cons.2 ⟨fun ha => ?_, hnodup⟩
        exact ((hfresh a).1 ha).2 (mem_insert.2 (Or.inl rfl))
    · split
      · next hc =>
        rw [hfresh, mem_insert, List.mem_cons]
        have : a ∈ p.offsets := contains_iff.1 hc
        constructor
        · tauto
        · rintro ⟨rfl | ho, hp⟩
          · contradiction
          · exact ⟨ho, by rintro (rfl | h) <;> contradiction⟩
      · next hc =>
        have : a ∉ p.offsets := fun hmem => hc (contains_iff.2 hmem)
        rw [List.mem_cons, hfresh, mem_insert, List.mem_cons]
        by_cases hoa : o = a
        · subst hoa; tauto
        · tauto

end CellPool

namespace Frame

/-- Giving back occupied cells succeeds, and leaves the others. -/
theorem freeAll_occupied {offsets : List Int} (hnodup : offsets.Nodup) {f : Frame}
    (h : ∀ o ∈ offsets, o ∈ f.cells.offsets) :
    ∃ q, freeAll offsets f = .ok () ⟨f.emitter, q⟩ ∧
      ∀ o, o ∈ q.offsets ↔ o ∈ f.cells.offsets ∧ o ∉ offsets := by
  induction offsets generalizing f with
  | nil => exact ⟨f.cells, rfl, by simp⟩
  | cons a rest ih =>
    obtain ⟨ha, hrest⟩ := List.nodup_cons.1 hnodup
    have hfree : free a f = .ok () ⟨f.emitter, f.cells.erase a⟩ := by
      have hmem : f.cells.contains a = true := CellPool.contains_iff.2 (h a List.mem_cons_self)
      simp only [free, CellPool.free?, hmem, if_true]
    obtain ⟨q, hq, hmem⟩ := ih hrest (f := ⟨f.emitter, f.cells.erase a⟩) fun o ho => by
      refine CellPool.mem_erase.2 ⟨?_, h o (List.mem_cons_of_mem _ ho)⟩
      rintro rfl
      exact ha ho
    refine ⟨q, ?_, fun o => ?_⟩
    · rw [freeAll, bind_of_ok hfree]
      exact hq
    · rw [hmem, CellPool.mem_erase, List.mem_cons]
      tauto

/-- An allocated cell was free, and it is the only one that is taken. -/
theorem allocate_ok {f f' : Frame} {o : Int} (h : allocate f = .ok o f') :
    f'.emitter = f.emitter ∧ o ∉ f.cells.offsets ∧
      ∀ p, p ∈ f'.cells.offsets ↔ p = o ∨ p ∈ f.cells.offsets := by
  simp only [allocate] at h
  split at h
  · cases h
    exact ⟨rfl, f.cells.leastFree_notMem, fun p => CellPool.mem_insert⟩
  · cases h

theorem allocate_nonneg {f f' : Frame} {o : Int} (h : allocate f = .ok o f') : 0 ≤ o := by
  simp only [allocate] at h
  split at h
  · cases h
    exact f.cells.leastFree_nonneg
  · cases h

/-- The frame with a scratch cell taken and the operands reserved. -/
structure Lends (f : Frame) (operands : List Int) (scratch : Int) (f₁ : Frame) (taken : List Int) :
    Prop where
  emitter : f₁.emitter = f.emitter
  onTape : f.emitter.onTape (f.emitter.base + scratch) = true
  nonneg : 0 ≤ scratch
  free : scratch ∉ f.cells.offsets
  notOperand : scratch ∉ operands
  mem_cells (o : Int) : o ∈ f₁.cells.offsets ↔ o ∈ operands ∨ o = scratch ∨ o ∈ f.cells.offsets
  nodup : taken.Nodup
  mem_taken (o : Int) : o ∈ taken ↔ o ∈ f₁.cells.offsets ∧ o ∉ f.cells.offsets

/-- Giving back what was taken restores the pool. -/
theorem Lends.restore {f f₁ f₂ : Frame} {operands taken : List Int} {scratch : Int}
    (h : f.Lends operands scratch f₁ taken) (hcells : f₂.cells = f₁.cells) :
    freeAll taken f₂ = .ok () ⟨f₂.emitter, f.cells⟩ := by
  obtain ⟨q, hq, hmem⟩ := freeAll_occupied (f := f₂) h.nodup fun o ho => by
    rw [hcells]
    exact ((h.mem_taken o).1 ho).1
  have hcells' : q = f.cells := CellPool.eq_of_mem_iff fun o => by
    rw [hmem, hcells, h.mem_taken, h.mem_cells]
    tauto
  rw [hq, hcells']

theorem allocate_of_onTape {f : Frame}
    (h : f.emitter.onTape (f.emitter.base + f.cells.leastFree) = true) :
    allocate f = .ok f.cells.leastFree ⟨f.emitter, f.cells.insert f.cells.leastFree⟩ := by
  simp only [allocate, CellPool.allocate, h, if_true]

/-- With the least free cell taken, reserving the operands lends it. -/
theorem lends_leastFree {f : Frame} {operands fresh : List Int} {q : CellPool}
    (htape : f.emitter.onTape (f.emitter.base + f.cells.leastFree) = true)
    (hno : f.cells.leastFree ∉ operands)
    (h : (f.cells.insert f.cells.leastFree).reserveAll operands = (fresh, q)) :
    f.Lends operands f.cells.leastFree ⟨f.emitter, q⟩ (fresh ++ [f.cells.leastFree]) := by
  obtain ⟨hq, hnodup, hfresh⟩ := CellPool.reserveAll_spec h
  have hfree := f.cells.leastFree_notMem
  refine ⟨rfl, htape, f.cells.leastFree_nonneg, hfree, hno, fun o => ?_, ?_, fun o => ?_⟩
  · rw [hq, CellPool.mem_insert]
  · refine List.nodup_append.2 ⟨hnodup, List.nodup_singleton _, ?_⟩
    rintro a ha c hc rfl
    rw [List.mem_singleton.1 hc] at ha
    exact ((hfresh _).1 ha).2 (CellPool.mem_insert.2 (Or.inl rfl))
  · rw [List.mem_append, List.mem_singleton, hfresh, hq, CellPool.mem_insert]
    constructor
    · rintro (⟨ho, hnew⟩ | rfl)
      · exact ⟨Or.inl ho, fun hc => hnew (Or.inr hc)⟩
      · exact ⟨Or.inr (Or.inl rfl), hfree⟩
    · rintro ⟨ho | rfl | hc, hnew⟩
      · by_cases hs : o = f.cells.leastFree
        · exact Or.inr hs
        · exact Or.inl ⟨ho, by tauto⟩
      · exact Or.inr rfl
      · contradiction

/-- No scratch cell is to be had at the end of the tape. -/
theorem withScratch_of_full (b : Builtin) (operands : List Int) (body : Int → Action Unit)
    {f : Frame} (hfull : ¬ f.emitter.onTape (f.emitter.base + f.cells.leastFree) = true) :
    withScratch b operands body f =
      .error (.outOfRange (f.emitter.base + f.cells.leastFree) f.emitter.tapeSize) f := by
  have hallocate : allocate f =
      .error (.outOfRange (f.emitter.base + f.cells.leastFree) f.emitter.tapeSize) f := by
    simp only [allocate, CellPool.allocate, hfull]
    rfl
  rw [withScratch, bind_of_error hallocate]

/-- A scratch cell that falls on an operand is given back before the failure. -/
theorem withScratch_of_operand (b : Builtin) {operands : List Int} (body : Int → Action Unit)
    {f : Frame} (htape : f.emitter.onTape (f.emitter.base + f.cells.leastFree) = true)
    (hmem : f.cells.leastFree ∈ operands) :
    withScratch b operands body f = .error (.aliasing b f.cells.leastFree) f := by
  have hin : (f.cells.insert f.cells.leastFree).contains f.cells.leastFree = true :=
    CellPool.contains_iff.2 (CellPool.mem_insert.2 (Or.inl rfl))
  have hfree : free f.cells.leastFree ⟨f.emitter, f.cells.insert f.cells.leastFree⟩ = .ok () f := by
    simp only [free, CellPool.free?, hin, if_true, CellPool.erase_insert_leastFree]
  rw [withScratch, bind_of_ok (allocate_of_onTape htape), if_pos (List.contains_iff_mem.2 hmem),
    bind_of_ok hfree]
  rfl

/-- Otherwise the operation runs with the least free cell, and gives it back. -/
theorem withScratch_of_free (b : Builtin) {operands : List Int} (body : Int → Action Unit)
    {f : Frame} (htape : f.emitter.onTape (f.emitter.base + f.cells.leastFree) = true)
    (hno : f.cells.leastFree ∉ operands) :
    ∃ taken, f.Lends operands f.cells.leastFree ⟨f.emitter, f.cells.lend operands⟩ taken ∧
      withScratch b operands body f =
        andThen (body f.cells.leastFree) (freeAll taken) ⟨f.emitter, f.cells.lend operands⟩ := by
  refine ⟨_, lends_leastFree htape hno rfl, ?_⟩
  have hcontains : ¬ operands.contains f.cells.leastFree = true := fun hc =>
    hno (List.contains_iff_mem.1 hc)
  have hrun : reserveAll operands ⟨f.emitter, f.cells.insert f.cells.leastFree⟩ =
      .ok ((f.cells.insert f.cells.leastFree).reserveAll operands).1
        ⟨f.emitter, f.cells.lend operands⟩ := rfl
  rw [withScratch, bind_of_ok (allocate_of_onTape htape), if_neg hcontains, bind_of_ok hrun]

/-- The three ways of an operation with a scratch cell: there is no room for it, it falls on an
operand, or the operation runs on a frame that lends the cell. -/
theorem withScratch_cases (b : Builtin) (operands : List Int) (body : Int → Action Unit)
    (f : Frame) :
    (∃ c, c.StopsBuiltin ∧ withScratch b operands body f = .error c f) ∨
    ∃ scratch f₁ taken, f.Lends operands scratch f₁ taken ∧
      withScratch b operands body f = andThen (body scratch) (freeAll taken) f₁ := by
  by_cases htape : f.emitter.onTape (f.emitter.base + f.cells.leastFree) = true
  · by_cases hmem : f.cells.leastFree ∈ operands
    · exact Or.inl ⟨.aliasing .., trivial, withScratch_of_operand b body htape hmem⟩
    · obtain ⟨taken, hlends, hrun⟩ := withScratch_of_free b body htape hmem
      exact Or.inr ⟨_, _, taken, hlends, hrun⟩
  · exact Or.inl ⟨.outOfRange .., trivial, withScratch_of_full b operands body htape⟩

/-! ## Built-ins leave the pool as it was -/

/-- The action leaves the pool as it was, whether it succeeds or fails. -/
def Restores {α : Type} (x : Action α) : Prop :=
  (∀ f a f', x f = .ok a f' → f'.cells = f.cells) ∧ ∀ f c f', x f = .error c f' → f'.cells = f.cells

theorem Restores.withScratch (b : Builtin) (operands : List Int) {body : Int → Action Unit}
    (hbody : ∀ scratch, Restores (body scratch)) :
    Restores (Frame.withScratch b operands body) := by
  have key : ∀ f, (∃ c, Frame.withScratch b operands body f = .error c f) ∨
      ∃ f₂ : Frame, (Frame.withScratch b operands body f = .ok () ⟨f₂.emitter, f.cells⟩ ∨
        ∃ c, Frame.withScratch b operands body f = .error c ⟨f₂.emitter, f.cells⟩) := by
    intro f
    rcases withScratch_cases b operands body f with ⟨c, -, h⟩ | ⟨scratch, f₁, taken, hlends, h⟩
    · exact Or.inl ⟨c, h⟩
    · refine Or.inr ?_
      rw [h]
      cases hb : body scratch f₁ with
      | ok a f₂ =>
        have hback := hlends.restore ((hbody scratch).1 f₁ a f₂ hb)
        exact ⟨f₂, Or.inl (by simp only [andThen, hb, hback])⟩
      | error c f₂ =>
        have hback := hlends.restore ((hbody scratch).2 f₁ c f₂ hb)
        exact ⟨f₂, Or.inr ⟨c, by simp only [andThen, hb, hback]⟩⟩
  refine ⟨fun f a f' hf => ?_, fun f c f' hf => ?_⟩
  · rcases key f with ⟨c, h⟩ | ⟨f₂, h | ⟨c, h⟩⟩
    · rw [h] at hf; cases hf
    · rw [h] at hf; cases hf; rfl
    · rw [h] at hf; cases hf
  · rcases key f with ⟨c', h⟩ | ⟨f₂, h | ⟨c', h⟩⟩
    · rw [h] at hf; cases hf; rfl
    · rw [h] at hf; cases hf
    · rw [h] at hf; cases hf; rfl

theorem Restores.emit {α : Type} (x : Emitter.Action α) : Restores (Frame.emit x) := by
  refine ⟨fun f a f' hf => ?_, fun f c f' hf => ?_⟩
  · simp only [Frame.emit] at hf
    split at hf
    · cases hf; rfl
    · cases hf
  · simp only [Frame.emit] at hf
    split at hf
    · cases hf
    · cases hf; rfl

theorem cells_emit {α : Type} {x : Emitter.Action α} {a : α} {f f' : Frame}
    (h : Frame.emit x f = .ok a f') : f'.cells = f.cells :=
  (Restores.emit x).1 f a f' h

theorem Restores.bind {α β : Type} {x : Action α} {f : α → Action β} (hx : Restores x)
    (hf : ∀ a, Restores (f a)) : Restores (x >>= f) := by
  refine ⟨fun s b t h => ?_, fun s c t h => ?_⟩
  · obtain ⟨a, u, hu, ht⟩ := bind_eq_ok.1 h
    rw [(hf a).1 u b t ht, hx.1 s a u hu]
  · rcases bind_eq_error.1 h with hu | ⟨a, u, hu, ht⟩
    · exact hx.2 s c t hu
    · rw [(hf a).2 u c t ht, hx.1 s a u hu]

theorem restores_compositional : Compositional (fun _ _ => True) (fun _ x => Restores x) where
  skip _ := trivial
  seq _ _ := trivial
  moveTo _ := trivial
  add _ := trivial
  sub _ := trivial
  read := trivial
  write := trivial
  loopOn _ _ _ := trivial
  pure a := by
    refine ⟨fun f b f' hf => ?_, fun f c f' hf => ?_⟩
    · cases hf; rfl
    · cases hf
  throw _ := by
    refine ⟨fun f b f' hf => ?_, fun f c f' hf => ?_⟩
    · cases hf
    · cases hf; rfl
  bind := Restores.bind
  emit _ := Restores.emit _
  withScratch b operands := Restores.withScratch b operands
  occupied := by
    refine ⟨fun f b f' hf => ?_, fun f c f' hf => ?_⟩
    · cases hf; rfl
    · cases hf

/-- Every built-in leaves the pool as it was. -/
theorem restores_invoke (b : Builtin) (arguments : List Atom) : Restores (invoke b arguments) :=
  restores_compositional.invoke arguments
    (fun _ _ => ⟨Restores.emit _, Restores.emit _⟩) fun _ _ => trivial

end Frame

end TapeToolchain
