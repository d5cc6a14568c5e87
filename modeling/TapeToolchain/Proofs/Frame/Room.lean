import TapeToolchain.Proofs.Emission.Operation
import TapeToolchain.Proofs.Frame.Resizing

/-!
When operations with scratch cells succeed. Which cells an operation goes to depends on the cells
that are occupied, since a scratch cell is the least free one; with these known, the operation
succeeds exactly if the cells that it goes to lie on the tape (`Visits`). So an operation on
occupied cells succeeds if there is room for its scratch cells above them.
-/

namespace TapeToolchain

namespace CellPool

/-- No free cell is below the least one. -/
theorem leastFreeFrom_le {candidate : Int} {offsets : List Int} {o : Int} (hle : candidate ≤ o)
    (ho : o ∉ offsets) : leastFreeFrom candidate offsets ≤ o := by
  induction offsets generalizing candidate with
  | nil => exact hle
  | cons x rest ih =>
    obtain ⟨hne, hrest⟩ : o ≠ x ∧ o ∉ rest := by simpa using ho
    rw [leastFreeFrom]
    split
    · exact ih hle hrest
    · split
      · exact ih (by omega) hrest
      · exact hle

theorem leastFree_le {p : CellPool} {o : Int} (hnonneg : 0 ≤ o) (ho : o ∉ p.offsets) :
    p.leastFree ≤ o :=
  leastFreeFrom_le hnonneg ho

@[simp] theorem mem_lend {p : CellPool} {operands : List Int} {o : Int} :
    o ∈ (p.lend operands).offsets ↔ o ∈ operands ∨ o = p.leastFree ∨ o ∈ p.offsets := by
  rw [lend, (reserveAll_spec (Prod.eta _).symm).1, mem_insert]

/-- Operands that are occupied need not be reserved. -/
theorem lend_of_mem {p : CellPool} {operands : List Int} (h : ∀ o ∈ operands, o ∈ p.offsets) :
    p.lend operands = p.insert p.leastFree :=
  eq_of_mem_iff fun o => by
    have := h o
    rw [mem_lend, mem_insert]
    tauto

end CellPool

namespace Frame

theorem byteCodes_of_bytes {chars : List Char} (h : ∀ c ∈ chars, c.toNat ≤ 0xff) :
    ∃ codes, byteCodes chars = .ok codes := by
  induction chars with
  | nil => exact ⟨[], rfl⟩
  | cons c rest ih =>
    obtain ⟨hc, hrest⟩ := List.forall_mem_cons.1 h
    obtain ⟨codes, hcodes⟩ := ih hrest
    exact ⟨c.toNat :: codes, by rw [byteCodes, if_pos hc, hcodes]; rfl⟩

namespace Visits

variable {p : CellPool} {x y : Action Unit} {as bs : List Int} {src dst : Int}

/-- The scratch cell must lie on the tape too, and in the body it is occupied like the operands. -/
theorem withScratch {b : Builtin} {operands : List Int} {body : Int → Action Unit}
    (hfree : p.leastFree ∉ operands) (hbody : Visits (p.lend operands) (body p.leastFree) as) :
    Visits p (Frame.withScratch b operands body) (p.leastFree :: as) where
  ok := by
    rintro f f' rfl h
    by_cases htape : f.emitter.onTape (f.emitter.base + f.cells.leastFree) = true
    · obtain ⟨taken, hlends, hrun⟩ := withScratch_of_free b body htape hfree
      rw [hrun, andThen] at h
      cases hb : body f.cells.leastFree ⟨f.emitter, f.cells.lend operands⟩ with
      | error c u =>
        simp only [hb] at h
        split at h <;> cases h
      | ok a u =>
        obtain ⟨hcovers, halike, hcells⟩ := hbody.ok rfl hb
        simp only [hb, hlends.restore hcells] at h
        cases h
        exact ⟨Emitter.covers_cons.2 ⟨htape, hcovers⟩, halike, rfl⟩
    · rw [withScratch_of_full b operands body htape] at h
      cases h
  succeeds := by
    rintro f rfl h
    obtain ⟨htape, hcovers⟩ := Emitter.covers_cons.1 h
    obtain ⟨taken, hlends, hrun⟩ := withScratch_of_free b body htape hfree
    obtain ⟨u, hu⟩ := hbody.succeeds (s := ⟨f.emitter, f.cells.lend operands⟩) rfl hcovers
    refine ⟨⟨u.emitter, f.cells⟩, ?_⟩
    rw [hrun, andThen, hu]
    exact hlends.restore (hbody.ok rfl hu).2.2
  fails := by
    rintro f f' c rfl h
    by_cases htape : f.emitter.onTape (f.emitter.base + f.cells.leastFree) = true
    · obtain ⟨taken, hlends, hrun⟩ := withScratch_of_free b body htape hfree
      rw [hrun, andThen] at h
      cases hb : body f.cells.leastFree ⟨f.emitter, f.cells.lend operands⟩ with
      | ok a u =>
        simp only [hb, hlends.restore (hbody.ok rfl hb).2.2] at h
        cases h
      | error c' u =>
        obtain ⟨hoff, hcells⟩ := hbody.fails rfl hb
        simp only [hb, hlends.restore hcells] at h
        cases h
        exact ⟨hoff, rfl⟩
    · rw [withScratch_of_full b operands body htape] at h
      cases h
      exact ⟨⟨_, _, rfl⟩, rfl⟩

/-! ## Built-ins with scratch cells -/

theorem copy (hne : src ≠ dst) (hfree : p.leastFree ∉ [src, dst]) :
    Visits p (Frame.copy src dst) [p.leastFree, src, dst] := by
  have hsrc : p.leastFree ≠ src := fun h => hfree (by simp [h])
  have hbody : Visits (p.lend [src, dst]) (do
      Frame.clear dst
      Frame.clear p.leastFree
      Frame.transfer src [dst, p.leastFree] (Emitter.add 1)
      Frame.destructiveAdd p.leastFree src)
      [dst, p.leastFree, src, dst, p.leastFree, p.leastFree, src] :=
    (clear dst).bind ((clear _).bind
      ((transfer src _ (Emitter.Visits.repeated .increment 1)).bind (destructiveAdd hsrc)))
  refine ((distinct _ hne).bind (withScratch hfree hbody)).congr fun o => ?_
  simp
  tauto

/-- A copy of the source is made, and the rest is done with the copy and the destination. -/
theorem byCopy {b : Builtin} {rest : Int → Action Unit}
    (hrest : ∀ {q s}, s ≠ dst → Visits q (rest s) [s, dst]) (hfree : p.leastFree ∉ [src, dst]) :
    Visits p (Frame.withScratch b [src, dst] fun scratch => do
      Frame.copy src scratch
      rest scratch) [p.leastFree, (p.lend [src, dst]).leastFree, src, dst] := by
  obtain ⟨hsrc, hdst⟩ : p.leastFree ≠ src ∧ p.leastFree ≠ dst := by simpa using hfree
  -- the operands of the copy are occupied, so its own scratch cell is another one
  have hinner : (p.lend [src, dst]).leastFree ∉ [src, p.leastFree] := fun hmem =>
    (p.lend [src, dst]).leastFree_notMem (CellPool.mem_lend.2 (by
      rcases List.mem_cons.1 hmem with h | h
      · simp [h]
      · simp [List.mem_singleton.1 h]))
  refine (withScratch hfree ((copy hsrc.symm hinner).bind (hrest hdst))).congr fun o => ?_
  simp
  tauto

theorem stackAdd (hfree : p.leastFree ∉ [src, dst]) :
    Visits p (Frame.stackAdd src dst) [p.leastFree, (p.lend [src, dst]).leastFree, src, dst] :=
  byCopy destructiveAdd hfree

theorem stackSub (hfree : p.leastFree ∉ [src, dst]) :
    Visits p (Frame.stackSub src dst) [p.leastFree, (p.lend [src, dst]).leastFree, src, dst] :=
  byCopy destructiveSub hfree

theorem asLogical (hne : src ≠ dst) (hfree : p.leastFree ∉ [src, dst]) :
    Visits p (Frame.asLogical src dst) [p.leastFree, (p.lend [src, dst]).leastFree, src, dst] := by
  rw [asLogical_eq]
  refine (distinct _ hne).bind (byCopy (fun {q s} _ => ?_) hfree)
  exact ((clear dst).bind (whenNonzero s dst (.repeated .increment 1))).congr fun o => by
    simp
    tauto

theorem logicalNot (hne : src ≠ dst) (hfree : p.leastFree ∉ [src, dst]) :
    Visits p (Frame.logicalNot src dst) [p.leastFree, (p.lend [src, dst]).leastFree, src, dst] := by
  rw [logicalNot_eq]
  refine (distinct _ hne).bind (byCopy (fun {q s} _ => ?_) hfree)
  have hone : Visits q (setOne dst) [dst] := (clear dst).bind (emit (.repeated .increment 1))
  exact (hone.bind (whenNonzero s dst (.repeated .decrement 1))).congr fun o => by
    simp
    tauto

/-- An operation on two different cells that are occupied goes to them and to two scratch cells. -/
def Unary (unary : Int → Int → Action Unit) : Prop :=
  ∀ {p : CellPool} {src dst : Int}, src ≠ dst → p.leastFree ∉ [src, dst] →
    Visits p (unary src dst) [p.leastFree, (p.lend [src, dst]).leastFree, src, dst]

/-- Operands that are occupied already need no reservation: only the scratch cell is taken. -/
theorem of_occupied {call : Int → Int → Action Unit} {x y : Int} (hx : x ∈ p.offsets)
    (hy : y ∈ p.offsets) (hcall : p.leastFree ∉ [x, y] →
      Visits p (call x y) [p.leastFree, (p.lend [x, y]).leastFree, x, y]) :
    Visits p (call x y) [p.leastFree, (p.insert p.leastFree).leastFree, x, y] := by
  have hall : ∀ o ∈ [x, y], o ∈ p.offsets := by simp [hx, hy]
  rw [← CellPool.lend_of_mem hall]
  exact hcall fun h => p.leastFree_notMem (hall _ h)

/-- Both connectives go to three scratch cells. -/
theorem connective {unary : Int → Int → Action Unit} (hunary : Unary unary) (b : Builtin)
    {a c dst : Int} (ha : a ≠ dst) (hc : c ≠ dst) (hfree : p.leastFree ∉ [a, c, dst]) :
    Visits p (do
      Frame.distinct b [a, dst]
      Frame.distinct b [c, dst]
      Frame.withScratch b [a, c, dst] fun scratch => do
        Frame.clear dst
        unary a scratch
        Frame.stackAdd scratch dst
        unary c scratch
        Frame.stackAdd scratch dst
        unary dst scratch
        Frame.move scratch dst)
      [p.leastFree, (p.lend [a, c, dst]).leastFree,
        ((p.lend [a, c, dst]).insert (p.lend [a, c, dst]).leastFree).leastFree, a, c, dst] := by
  obtain ⟨hsa, hsc, hsd⟩ : p.leastFree ≠ a ∧ p.leastFree ≠ c ∧ p.leastFree ≠ dst := by
    simpa using hfree
  generalize hq : p.lend [a, c, dst] = q
  have hmem : ∀ o ∈ [p.leastFree, a, c, dst], o ∈ q.offsets := fun o ho => by
    rw [← hq, CellPool.mem_lend]
    rcases List.mem_cons.1 ho with rfl | ho
    · exact Or.inr (Or.inl rfl)
    · exact Or.inl ho
  have hs := hmem p.leastFree (by simp)
  have hu : ∀ {x}, x ∈ [a, c, dst] → p.leastFree ≠ x →
      Visits q (unary x p.leastFree) [q.leastFree, (q.insert q.leastFree).leastFree, x,
        p.leastFree] :=
    fun hx hne => of_occupied (hmem _ (List.mem_cons_of_mem _ hx)) hs (hunary hne.symm)
  have hadd : Visits q (Frame.stackAdd p.leastFree dst)
      [q.leastFree, (q.insert q.leastFree).leastFree, p.leastFree, dst] :=
    of_occupied hs (hmem _ (by simp)) stackAdd
  have hbody := (clear dst).bind ((hu (by simp) hsa).bind (hadd.bind
    ((hu (by simp) hsc).bind (hadd.bind ((hu (by simp) hsd).bind (move hsd))))))
  subst hq
  refine ((distinct b ha).bind ((distinct b hc).bind (withScratch hfree hbody))).congr fun o => ?_
  grind

theorem logicalAnd {a c : Int} (ha : a ≠ dst) (hc : c ≠ dst) (hfree : p.leastFree ∉ [a, c, dst]) :
    Visits p (Frame.logicalAnd a c dst) [p.leastFree, (p.lend [a, c, dst]).leastFree,
      ((p.lend [a, c, dst]).insert (p.lend [a, c, dst]).leastFree).leastFree, a, c, dst] :=
  connective logicalNot _ ha hc hfree

theorem logicalOr {a c : Int} (ha : a ≠ dst) (hc : c ≠ dst) (hfree : p.leastFree ∉ [a, c, dst]) :
    Visits p (Frame.logicalOr a c dst) [p.leastFree, (p.lend [a, c, dst]).leastFree,
      ((p.lend [a, c, dst]).insert (p.lend [a, c, dst]).leastFree).leastFree, a, c, dst] :=
  connective asLogical _ ha hc hfree

/-- Bytes are written from a scratch cell. -/
theorem putCodes (codes : List Nat) :
    Visits p (Frame.withScratch .putStringConstant [] fun scratch => do
      Frame.clear scratch
      Frame.emit (Frame.putCodes 0 codes)) [p.leastFree] := by
  have hbody : Visits (p.lend []) (do
      Frame.clear p.leastFree
      Frame.emit (Frame.putCodes 0 codes)) ([p.leastFree] ++ []) :=
    (clear p.leastFree).bind (emit (.putCodes 0 codes))
  exact (withScratch List.not_mem_nil hbody).congr fun o => by simp

theorem putStringConstant {text : String} (hbytes : ∀ c ∈ text.toList, c.toNat ≤ 0xff) :
    Visits p (Frame.putStringConstant text) [p.leastFree] := by
  obtain ⟨codes, hcodes⟩ := byteCodes_of_bytes hbytes
  rw [Frame.putStringConstant, hcodes]
  exact putCodes codes

end Visits

/-! ## Room above the occupied cells -/

/-- The occupied cells have offsets below `k`, and on the tape there are `need` more cells above. -/
structure Room (f : Frame) (k need : Nat) : Prop where
  base : 0 ≤ f.emitter.base
  cells : ∀ o ∈ f.cells.offsets, 0 ≤ o ∧ o < k
  limit : f.emitter.base + k + need ≤ f.emitter.limit

/-- The second frame has the same cells on the same tape, its base moved by a distance. -/
structure MovedBy (f g : Frame) (distance : Int) : Prop where
  base : g.emitter.base = f.emitter.base + distance
  tapeSize : g.emitter.tapeSize = f.emitter.tapeSize
  cells : g.cells = f.cells

theorem MovedBy.limit {f g : Frame} {distance : Int} (h : f.MovedBy g distance) :
    g.emitter.limit = f.emitter.limit := by
  rw [Emitter.limit, h.tapeSize, Emitter.limit]

/-- A loop can be opened on a cell of the tape. -/
theorem beginLoop_of_onTape {f : Frame} {o : Int}
    (h : f.emitter.onTape (f.emitter.base + o) = true) :
    ∃ g, beginLoop o f = .ok () g ∧ f.MovedBy g 0 := by
  obtain ⟨e, he⟩ := (Emitter.Visits.moveTo o).succeeds (s := f.emitter) trivial (by simpa using h)
  obtain ⟨-, halike, -⟩ := (Emitter.Visits.moveTo o).ok trivial he
  refine ⟨⟨{ e with code := e.code.push .loopBegin, loops := e.relative :: e.loops }, f.cells⟩,
    ?_, ?_⟩
  · simp only [beginLoop, emit, bind_of_ok he]
    rfl
  · exact ⟨by rw [Int.add_zero]; exact halike.base, halike.tapeSize, rfl⟩

/-- A loop that is open on a cell of the tape can be closed there. -/
theorem endLoop_of_open {f : Frame} {o : Int} {rest : List Int}
    (h : f.emitter.onTape (f.emitter.base + o) = true) (hopen : f.emitter.loops = o :: rest) :
    ∃ g, endLoop o f = .ok () g ∧ f.MovedBy g 0 := by
  obtain ⟨e, he⟩ := (Emitter.Visits.moveTo o).succeeds (s := f.emitter) trivial (by simpa using h)
  obtain ⟨-, halike, -⟩ := (Emitter.Visits.moveTo o).ok trivial he
  have hrelative : o = e.relative := (Emitter.isAt_of_moveTo he).1.symm
  refine ⟨⟨{ e with code := e.code.push .loopEnd, loops := rest }, f.cells⟩, ?_, ?_⟩
  · have hloops : e.loops = o :: rest := halike.loops.trans hopen
    simp only [endLoop, emit, bind_of_ok he, Emitter.endLoop, hloops, if_pos hrelative]
  · exact ⟨by rw [Int.add_zero]; exact halike.base, halike.tapeSize, rfl⟩

namespace Room

variable {f : Frame} {k need : Nat}

theorem onTape (h : f.Room k need) {o : Int} (hnonneg : 0 ≤ o) (hlt : o < k + need) :
    f.emitter.onTape (f.emitter.base + o) = true := by
  have := h.base
  have := h.limit
  exact Emitter.onTape_iff.2 ⟨by omega, by omega⟩

/-- The least free cell is at most the first one above all that are occupied. -/
theorem leastFree_le {p : CellPool} {k : Nat} (h : ∀ o ∈ p.offsets, o < k) : p.leastFree ≤ k :=
  CellPool.leastFree_le (Int.natCast_nonneg k) fun hmem => Int.lt_irrefl _ (h _ hmem)

theorem lend_lt {p : CellPool} {operands : List Int} (h : ∀ o ∈ p.offsets, o < k)
    (hoperands : ∀ o ∈ operands, o < k) : ∀ o ∈ (p.lend operands).offsets, o < (k + 1 : Nat) := by
  intro o ho
  have := leastFree_le h
  rcases CellPool.mem_lend.1 ho with ho | rfl | ho
  · have := hoperands o ho
    omega
  · omega
  · have := h o ho
    omega

/-- The first scratch cell. -/
theorem covers_first (h : f.Room k need) (hneed : 1 ≤ need) :
    f.emitter.Covers [f.cells.leastFree] := by
  have := leastFree_le fun o ho => (h.cells o ho).2
  simpa using h.onTape f.cells.leastFree_nonneg (by omega)

/-- The scratch cell inside of an operation with one. -/
theorem covers_second (h : f.Room k need) (hneed : 2 ≤ need) {operands : List Int}
    (hoperands : ∀ o ∈ operands, o < k) :
    f.emitter.Covers [f.cells.leastFree, (f.cells.lend operands).leastFree] := by
  have := leastFree_le (lend_lt (fun o ho => (h.cells o ho).2) hoperands)
  refine Emitter.covers_append.2 ⟨h.covers_first (by omega), ?_⟩
  simpa using h.onTape (f.cells.lend operands).leastFree_nonneg (by omega)

/-- The scratch cells inside of a connective. -/
theorem covers_third (h : f.Room k need) (hneed : 3 ≤ need) {operands : List Int}
    (hoperands : ∀ o ∈ operands, o < k) :
    f.emitter.Covers [f.cells.leastFree, (f.cells.lend operands).leastFree,
      ((f.cells.lend operands).insert (f.cells.lend operands).leastFree).leastFree] := by
  have hlend := lend_lt (fun o ho => (h.cells o ho).2) hoperands
  have := leastFree_le (p := (f.cells.lend operands).insert (f.cells.lend operands).leastFree)
    (k := k + 2) fun o ho => by
      have := leastFree_le hlend
      rcases CellPool.mem_insert.1 ho with rfl | ho
      · omega
      · have := hlend o ho
        omega
  exact Emitter.covers_append.2 ⟨h.covers_second (by omega) hoperands,
    by simpa using h.onTape (CellPool.leastFree_nonneg _) (by omega)⟩

/-- An operation succeeds if its cells lie on the tape. -/
theorem run {x : Action Unit} {offsets : List Int} (hx : Visits f.cells x offsets)
    (hcovers : f.emitter.Covers offsets) : ∃ g, x f = .ok () g ∧ f.MovedBy g 0 := by
  obtain ⟨g, hg⟩ := hx.succeeds rfl hcovers
  obtain ⟨-, halike, hcells⟩ := hx.ok rfl hg
  exact ⟨g, hg, by rw [halike.base, Int.add_zero], halike.tapeSize, hcells⟩

/-- There is room for the frame to move up. -/
theorem growStack {n : Nat} (h : f.Room k n) : ∃ g, growStack n f = .ok () g ∧ f.MovedBy g n := by
  rcases Nat.eq_zero_or_pos n with rfl | hn
  · exact ⟨f, growStack_zero f, by simp, rfl, rfl⟩
  have hne : (n : Int) ≠ 0 := by omega
  have hvisits := (Visits.moveAll (p := f.cells) hne f.cells.offsets.reverse).bind
    (Visits.clearRange 0 n)
  obtain ⟨g, hg⟩ := hvisits.succeeds (s := f) rfl (by
    refine Emitter.covers_append.2 ⟨fun o ho => ?_, fun o ho => ?_⟩
    · obtain ⟨c, hc, ho⟩ := List.mem_flatMap.1 ho
      have := h.cells c (List.mem_reverse.1 hc)
      rcases List.mem_cons.1 ho with rfl | ho
      · exact h.onTape (by omega) (by omega)
      · rw [List.mem_singleton.1 ho]
        exact h.onTape (by omega) (by omega)
    · obtain ⟨i, hi, rfl⟩ := List.mem_map.1 ho
      have := List.mem_range.1 hi
      exact h.onTape (by omega) (by omega))
  obtain ⟨-, halike, hcells⟩ := hvisits.ok rfl hg
  have hrange : 0 ≤ g.emitter.base + n ∧ g.emitter.base + n ≤ g.emitter.limit := by
    have := h.base
    have := h.limit
    rw [halike.base, halike.limit]
    omega
  obtain ⟨_, u, hmove, hclear⟩ := bind_eq_ok.1 hg
  refine ⟨g.rebased n, ?_, congrArg (· + (n : Int)) halike.base, halike.tapeSize, hcells⟩
  rw [growStack_of_pos hn, bind_of_ok hmove, bind_of_ok hclear]
  exact emit_rebase_iff.2 ⟨rfl, hrange⟩

/-- A frame that has moved up may move down again. -/
theorem shrinkStack {n : Nat} (h : f.Room k need) (hn : (n : Int) ≤ f.emitter.base) :
    ∃ g, shrinkStack n f = .ok () g ∧ f.MovedBy g (-n) := by
  rcases Nat.eq_zero_or_pos n with rfl | hpos
  · exact ⟨f, shrinkStack_zero f, by simp, rfl, rfl⟩
  have hne : -(n : Int) ≠ 0 := by omega
  have hvisits := Visits.moveAll (p := f.cells) hne f.cells.offsets
  have hlimit := h.limit
  obtain ⟨g, hg⟩ := hvisits.succeeds (s := f) rfl (by
    intro o ho
    obtain ⟨c, hc, ho⟩ := List.mem_flatMap.1 ho
    have := h.cells c hc
    rcases List.mem_cons.1 ho with rfl | ho
    · exact h.onTape (by omega) (by omega)
    · rw [List.mem_singleton.1 ho]
      exact Emitter.onTape_iff.2 ⟨by omega, by omega⟩)
  obtain ⟨-, halike, hcells⟩ := hvisits.ok rfl hg
  have hrange : 0 ≤ g.emitter.base + -(n : Int) ∧
      g.emitter.base + -(n : Int) ≤ g.emitter.limit := by
    rw [halike.base, halike.limit]
    omega
  refine ⟨g.rebased (-n), ?_, congrArg (· + -(n : Int)) halike.base, halike.tapeSize, hcells⟩
  rw [shrinkStack_of_pos hpos, bind_of_ok hg]
  exact emit_rebase_iff.2 ⟨rfl, hrange⟩

end Room

end Frame

end TapeToolchain
