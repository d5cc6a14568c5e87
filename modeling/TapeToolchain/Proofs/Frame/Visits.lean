import TapeToolchain.Proofs.Frame.ArithmeticEffect

/-!
When operations succeed. An operation goes to certain cells of the frame and succeeds exactly if all
of them lie on the tape, wherever the cursor is and whatever has been written before (`Visits`). A
loop ends at the cell that it began at, so that closing it cannot fail; the end of the tape is the
only cause.
-/

namespace TapeToolchain

/-- The failure at the end of the tape. -/
def CompileError.IsOffTape (c : CompileError) : Prop :=
  ∃ position tapeSize, c = .outOfRange position tapeSize

namespace Emitter

theorem rebase_error {distance : Int} {e e' : Emitter} {c : CompileError}
    (h : rebase distance e = .error c e') : e' = e ∧ c.IsOffTape := by
  simp only [rebase] at h
  split at h
  · cases h
  · cases h
    exact ⟨rfl, _, _, rfl⟩

/-- The cells with these offsets lie on the tape. -/
def Covers (e : Emitter) (offsets : List Int) : Prop :=
  ∀ o ∈ offsets, e.onTape (e.base + o) = true

/-- The emitters differ in their code and cursor only. -/
structure Alike (e e' : Emitter) : Prop where
  tapeSize : e'.tapeSize = e.tapeSize
  base : e'.base = e.base
  loops : e'.loops = e.loops

namespace Alike

theorem refl (e : Emitter) : Alike e e := ⟨rfl, rfl, rfl⟩

theorem trans {e₁ e₂ e₃ : Emitter} (h₁ : Alike e₁ e₂) (h₂ : Alike e₂ e₃) : Alike e₁ e₃ :=
  ⟨h₂.tapeSize.trans h₁.tapeSize, h₂.base.trans h₁.base, h₂.loops.trans h₁.loops⟩

theorem limit {e e' : Emitter} (h : Alike e e') : e'.limit = e.limit := by
  rw [Emitter.limit, h.tapeSize, Emitter.limit]

end Alike

theorem covers_of_eq {e e' : Emitter} (hsize : e'.tapeSize = e.tapeSize) (hbase : e'.base = e.base)
    {offsets : List Int} : e'.Covers offsets ↔ e.Covers offsets := by
  have htape : ∀ p, e'.onTape p = e.onTape p := fun p => by rw [onTape, onTape, limit, limit, hsize]
  simp only [Covers, htape, hbase]

theorem Alike.covers {e e' : Emitter} (h : Alike e e') {offsets : List Int} :
    e'.Covers offsets ↔ e.Covers offsets :=
  covers_of_eq h.tapeSize h.base

@[simp] theorem covers_nil (e : Emitter) : e.Covers [] := nofun

@[simp] theorem covers_cons {e : Emitter} {o : Int} {offsets : List Int} :
    e.Covers (o :: offsets) ↔ e.onTape (e.base + o) = true ∧ e.Covers offsets :=
  List.forall_mem_cons

@[simp] theorem covers_append {e : Emitter} {as bs : List Int} :
    e.Covers (as ++ bs) ↔ e.Covers as ∧ e.Covers bs :=
  List.forall_mem_append

end Emitter

/-- In the states with a property, which stays, the action succeeds exactly if the cells lie on the
tape, and then it has written code and moved the cursor. If it fails, it has run into the end of the
tape. -/
structure CellVisits {σ : Type} (emitter : σ → Emitter) (P : σ → Prop)
    (x : EStateM CompileError σ Unit) (offsets : List Int) : Prop where
  ok : ∀ {s s'}, P s → x s = .ok () s' →
    (emitter s).Covers offsets ∧ (emitter s).Alike (emitter s') ∧ P s'
  succeeds : ∀ {s}, P s → (emitter s).Covers offsets → ∃ s', x s = .ok () s'
  fails : ∀ {s s' c}, P s → x s = .error c s' → c.IsOffTape ∧ P s'

namespace CellVisits

variable {σ : Type} {emitter : σ → Emitter} {P : σ → Prop} {x y : EStateM CompileError σ Unit}
variable {as bs : List Int}

theorem pure : CellVisits emitter P (pure ()) [] where
  ok hs h := by
    cases h
    exact ⟨Emitter.covers_nil _, .refl _, hs⟩
  succeeds _ _ := ⟨_, rfl⟩
  fails _ h := by cases h

theorem bind (hx : CellVisits emitter P x as) (hy : CellVisits emitter P y bs) :
    CellVisits emitter P (do x; y) (as ++ bs) where
  ok hs h := by
    obtain ⟨_, u, hu, ht⟩ := bind_eq_ok.1 h
    obtain ⟨has, hxu, hPu⟩ := hx.ok hs hu
    obtain ⟨hbs, huy, hPt⟩ := hy.ok hPu ht
    exact ⟨Emitter.covers_append.2 ⟨has, hxu.covers.1 hbs⟩, hxu.trans huy, hPt⟩
  succeeds hs h := by
    obtain ⟨has, hbs⟩ := Emitter.covers_append.1 h
    obtain ⟨u, hu⟩ := hx.succeeds hs has
    obtain ⟨-, halike, hPu⟩ := hx.ok hs hu
    obtain ⟨t, ht⟩ := hy.succeeds hPu (halike.covers.2 hbs)
    exact ⟨t, bind_eq_ok.2 ⟨(), u, hu, ht⟩⟩
  fails hs h := by
    rcases bind_eq_error.1 h with h | ⟨_, u, hu, h⟩
    · exact hx.fails hs h
    · exact hy.fails (hx.ok hs hu).2.2 h

/-- The order of the cells and how often each is visited do not matter. -/
theorem congr (h : CellVisits emitter P x as) (hmem : ∀ o, o ∈ as ↔ o ∈ bs) :
    CellVisits emitter P x bs := by
  have hcovers : ∀ e : Emitter, e.Covers as ↔ e.Covers bs := fun e => by
    simp only [Emitter.Covers, hmem]
  exact ⟨fun hs hx => ⟨(hcovers _).1 (h.ok hs hx).1, (h.ok hs hx).2⟩,
    fun hs hbs => h.succeeds hs ((hcovers _).2 hbs), h.fails⟩

end CellVisits

namespace Emitter

/-- The action goes to these cells, whatever the emitter. -/
abbrev Visits (x : Action Unit) (offsets : List Int) : Prop :=
  CellVisits (fun e : Emitter => e) (fun _ => True) x offsets

namespace Visits

theorem moveTo (o : Int) : Visits (moveTo o) [o] where
  ok _ h := by
    obtain ⟨rfl, ht⟩ := moveTo_ok h
    exact ⟨by simpa using ht, ⟨rfl, rfl, rfl⟩, trivial⟩
  succeeds := by
    intro e _ h
    have harith : e.cursor + (e.base + o - e.cursor) = e.base + o := by omega
    exact ⟨_, by rw [Emitter.moveTo, shift, harith, if_pos (by simpa using h)]⟩
  fails _ h := ⟨(moveTo_error h).2, trivial⟩

theorem repeated (i : Instruction) (n : Nat) : Visits (repeated i n) [] where
  ok _ h := by
    cases h
    exact ⟨covers_nil _, ⟨rfl, rfl, rfl⟩, trivial⟩
  succeeds _ _ := ⟨_, rfl⟩
  fails _ h := by cases h

theorem loopOn (o : Int) {body : Action Unit} {offsets : List Int} (hbody : Visits body offsets) :
    Visits (loopOn o body) (o :: offsets) where
  ok := by
    intro e e' _ h
    obtain ⟨u, v, w, hu, hv, hw, rfl⟩ :=
      (loopOn_eq_ok fun hb => (hbody.ok trivial hb).2.1.loops).1 h
    obtain ⟨hcover, halike, -⟩ := (moveTo o).ok trivial hu
    obtain ⟨hcovers, hinner, -⟩ := hbody.ok trivial hv
    obtain ⟨-, hback, -⟩ := (moveTo o).ok trivial hw
    have hall := (covers_of_eq (e := e) halike.tapeSize halike.base).1 hcovers
    refine ⟨covers_cons.2 ⟨by simpa using hcover, hall⟩, ⟨?_, ?_, rfl⟩, trivial⟩
    · exact (hback.tapeSize.trans hinner.tapeSize).trans halike.tapeSize
    · exact (hback.base.trans hinner.base).trans halike.base
  succeeds := by
    intro e _ h
    obtain ⟨ho, hrest⟩ := covers_cons.1 h
    obtain ⟨u, hu⟩ := (moveTo o).succeeds (s := e) trivial (by simpa using ho)
    obtain ⟨-, halike, -⟩ := (moveTo o).ok trivial hu
    obtain ⟨v, hv⟩ := hbody.succeeds (s := u.inLoop) trivial
      ((covers_of_eq halike.tapeSize halike.base).2 hrest)
    obtain ⟨-, hinner, -⟩ := hbody.ok trivial hv
    obtain ⟨w, hw⟩ := (moveTo o).succeeds (s := v) trivial
      ((covers_of_eq (hinner.tapeSize.trans halike.tapeSize) (hinner.base.trans halike.base)).2
        (by simpa using ho))
    exact ⟨_, (loopOn_eq_ok fun hb => (hbody.ok trivial hb).2.1.loops).2
      ⟨u, v, w, hu, hv, hw, rfl⟩⟩
  fails := by
    intro e e' c _ h
    rcases loopOn_error (fun hb => (hbody.ok trivial hb).2.1.loops) h with ⟨u, hm⟩ | ⟨u, hb⟩
    · exact (moveTo o).fails trivial hm
    · exact hbody.fails trivial hb

theorem atEach {step : Action Unit} (hstep : Visits step []) :
    ∀ targets, Visits (Frame.atEach targets step) targets
  | [] => .pure
  | target :: rest => ((moveTo target).bind (hstep.bind (atEach hstep rest))).congr fun o => by simp

theorem clearCell (o : Int) : Visits (clearCell o) [o] :=
  .loopOn o (repeated .decrement 1)

theorem putCodes : ∀ current codes, Visits (Frame.putCodes current codes) []
  | _, [] => .pure
  | current, code :: rest => by
    have hwrite := (repeated .write 1).bind (putCodes code rest)
    rw [Frame.putCodes]
    split
    · exact (repeated .increment _).bind hwrite
    · exact (repeated .decrement _).bind hwrite

end Visits

end Emitter

namespace Frame

/-- With these cells occupied, the action goes to the given cells, and the occupied cells are what
they were in any case. -/
abbrev Visits (p : CellPool) (x : Action Unit) (offsets : List Int) : Prop :=
  CellVisits (·.emitter) (fun f : Frame => f.cells = p) x offsets

namespace Visits

variable {p : CellPool}

theorem emit {x : Emitter.Action Unit} {offsets : List Int} (hx : Emitter.Visits x offsets) :
    Visits p (emit x) offsets where
  ok hp h := by
    obtain ⟨hcovers, halike, -⟩ := hx.ok trivial (emit_ok h)
    exact ⟨hcovers, halike, (cells_emit h).trans hp⟩
  succeeds := by
    intro f _ h
    obtain ⟨e', he'⟩ := hx.succeeds trivial h
    exact ⟨⟨e', f.cells⟩, by simp only [Frame.emit, he']⟩
  fails hp h := ⟨(hx.fails trivial (emit_error h)).1, ((Restores.emit x).2 _ _ _ h).trans hp⟩

/-! ## Built-ins without scratch cells -/

theorem distinct (b : Builtin) {src dst : Int} (hne : src ≠ dst) :
    Visits p (distinct b [src, dst]) [] := by
  have hrepeated : firstRepeated? [] [src, dst] = none := by
    simp [firstRepeated?, hne.symm]
  rw [Frame.distinct, hrepeated]
  exact .pure

theorem clear (dst : Int) : Visits p (clear dst) [dst] := by
  rw [clear_eq]
  exact emit (.clearCell dst)

theorem transfer (src : Int) (targets : List Int) {step : Emitter.Action Unit}
    (hstep : Emitter.Visits step []) : Visits p (transfer src targets step) (src :: targets) := by
  rw [transfer_eq]
  exact emit (.loopOn src ((Emitter.Visits.repeated .decrement 1).bind
    (Emitter.Visits.atEach hstep targets)))

theorem destructiveAdd {src dst : Int} (hne : src ≠ dst) :
    Visits p (destructiveAdd src dst) [src, dst] :=
  (distinct _ hne).bind (transfer src [dst] (.repeated .increment 1))

theorem destructiveSub {src dst : Int} (hne : src ≠ dst) :
    Visits p (destructiveSub src dst) [src, dst] :=
  (distinct _ hne).bind (transfer src [dst] (.repeated .decrement 1))

theorem move {src dst : Int} (hne : src ≠ dst) : Visits p (move src dst) [src, dst] :=
  ((distinct _ hne).bind ((clear dst).bind (destructiveAdd hne))).congr fun o => by simp; tauto

theorem moveAll {distance : Int} (hne : distance ≠ 0) :
    ∀ offsets, Visits p (moveAll distance offsets) (offsets.flatMap fun o => [o, o + distance])
  | [] => .pure
  | o :: rest => (move (by omega)).bind (moveAll hne rest)

theorem clearRange (first : Int) (count : Nat) :
    Visits p (clearRange first count) ((List.range count).map fun i : Nat => first + i) := by
  induction count generalizing first with
  | zero => exact .pure
  | succ count ih =>
    refine ((clear first).bind (ih (first + 1))).congr fun o => ?_
    have hshift : ∀ i : Nat, first + 1 + (i : Int) = first + (i + 1 : Nat) := fun i => by
      push_cast
      omega
    simp [List.range_succ_eq_map, hshift]

/-- A step at another cell that is taken if a cell is not zero. -/
theorem whenNonzero (o target : Int) {step : Emitter.Action Unit} (hstep : Emitter.Visits step []) :
    Visits p (Frame.emit (Emitter.whenNonzero o do Emitter.moveTo target; step)) [o, target] :=
  (emit (.loopOn o (((Emitter.Visits.moveTo target).bind hstep).bind
    (Emitter.Visits.clearCell o)))).congr fun q => by
      simp
      tauto

/-- A step at a cell. -/
theorem stepAt (o : Int) {step : Emitter.Action Unit} (hstep : Emitter.Visits step []) :
    Visits p (Frame.emit do Emitter.moveTo o; step) [o] :=
  emit ((Emitter.Visits.moveTo o).bind hstep)

end Visits

end Frame

end TapeToolchain
