import TapeToolchain.Proofs.Frame.ArithmeticEffect

/-!
What the logical built-ins compute: zero or one, as the truth of their sources says. The two
connectives are put together in one way from a truth function of one operand, which is applied to
both sources and then to the sum of the results.
-/

namespace TapeToolchain.Frame

open Emitter (moveTo add sub whenNonzero)

/-- Changing the destination if the scratch cell is not zero, which is zero afterwards. -/
theorem updates_whenNonzero {dst s : Int} {change : Emitter.Action Unit} {g : UInt8 → UInt8}
    (hchange : ∀ u v, change u = .ok () v →
      u.Performs v fun m => m.set u.cursor (g (m.cells u.cursor)))
    {f f' : Frame} (h : emit (whenNonzero s do moveTo dst; change) f = .ok () f') :
    f.Updates f' dst s
      (fun m => if m.cells (f.position s) = 0 then m.cells (f.position dst) else
        g (m.cells (f.position dst))) fun _ => 0 := by
  refine .of_performs (cells_emit h) (Emitter.Performs.congr (Emitter.performs_whenNonzero
    (X := fun m => m.set (f.position dst) (g (m.cells (f.position dst)))) (emit_ok h) ?_)
    fun m => ?_)
  · intro u v hbase hrun
    obtain ⟨_, w, hmove, hrun⟩ := bind_eq_ok.1 hrun
    obtain ⟨hmoved, hcursor⟩ := Emitter.performs_moveTo hmove
    have hchanged := hchange w v hrun
    rw [hcursor, hbase] at hchanged
    exact hmoved.trans hchanged
  · show (if m.cells (f.position s) = 0 then m else _) = _
    by_cases hzero : m.cells (f.position s) = 0
    · refine Memory.ext_cells (fun p => ?_) (by rw [if_pos hzero]; rfl) (by rw [if_pos hzero]; rfl)
      by_cases hp : p = f.position s
      · simp [hp, hzero]
      · simp [hp, hzero, m.set_cells]
    · simp only [if_neg hzero]
      rfl

/-! ## Truth functions of one operand -/

/-- The truth of a source is found with a copy of it: the destination starts at `start` and is
changed once if the copy is not zero. -/
theorem truth_computes {b : Builtin} {src dst : Int} (start : UInt8) (g : UInt8 → UInt8)
    {prepare : Action Unit} {change : Emitter.Action Unit}
    (hcells : ∀ u v, prepare u = .ok () v → v.cells = u.cells)
    (hprepare : ∀ u v, prepare u = .ok () v → u.Performs v fun m => m.set (u.position dst) start)
    (hchange : ∀ u v, change u = .ok () v →
      u.Performs v fun m => m.set u.cursor (g (m.cells u.cursor)))
    {f f' : Frame}
    (h : withScratch b [src, dst] (fun s => do
      copy src s
      prepare
      emit (whenNonzero s do moveTo dst; change)) f = .ok () f') :
    f.Computes f' [src, dst] dst fun m => if m.cells (f.position src) = 0 then start
      else g start := by
  obtain ⟨s, f₁, taken, f₂, hlends, hbody, hend⟩ := withScratch_ok h
  obtain ⟨_, f₃, hcopy, hbody⟩ := bind_eq_ok.1 hbody
  obtain ⟨_, f₄, hprep, hwhen⟩ := bind_eq_ok.1 hbody
  obtain ⟨-, hdst⟩ : s ≠ src ∧ s ≠ dst := by simpa using hlends.notOperand
  have hdst₁ := hlends.mem_operand (o := dst) (by simp)
  have hcopied : f₁.Updates f₃ dst s (fun m => m.cells (f₁.position dst))
      fun m => m.cells (f₁.position src) :=
    .of_scratch dst ((restores_compositional.copy src s).1 _ _ _ hcopy) (copy_computes hcopy).2
  have hstarted := Updates.of_destination (hcells _ _ hprep) hdst
    (Computes.of_performs [] (hprepare _ _ hprep))
  rw [hcopied.position] at hstarted
  have hready : f₁.Updates f₄ dst s (fun _ => start) fun m => m.cells (f₁.position src) :=
    hcopied.andThen hstarted hdst₁ hlends.mem_scratch hdst fun m m' _ hs _ => ⟨rfl, hs⟩
  have hchanged := updates_whenNonzero hchange hwhen
  rw [hready.position] at hchanged
  refine Updates.computes hlends hend
    (hready.andThen hchanged hdst₁ hlends.mem_scratch hdst fun m m' hd hs _ => ⟨?_, rfl⟩)
  rw [hd, hs, hlends.position]

theorem asLogical_computes {src dst : Int} {f f' : Frame} (h : asLogical src dst f = .ok () f') :
    src ≠ dst ∧ f.Computes f' [src, dst] dst fun m => if m.cells (f.position src) = 0 then 0
      else 1 := by
  rw [asLogical_eq] at h
  obtain ⟨_, u, hu, hrun⟩ := bind_eq_ok.1 h
  obtain ⟨rfl, hne⟩ := distinct_ok hu
  refine ⟨hne, truth_computes 0 (· + 1) ?_ ?_ ?_ hrun⟩
  · intro u v hclear
    exact (restores_compositional.clear dst).1 _ _ _ hclear
  · intro u v hclear
    exact clear_performs hclear
  · intro u v hadd
    exact (Emitter.performs_add hadd).1

/-- After clearing a cell, the cursor is at it. -/
theorem setOne_performs {dst : Int} {f f' : Frame} (h : setOne dst f = .ok () f') :
    f.Performs f' fun m => m.set (f.position dst) 1 := by
  obtain ⟨_, u, hclear, hadd⟩ := bind_eq_ok.1 h
  rw [clear_eq] at hclear
  obtain ⟨hcleared, hcursor⟩ := Emitter.performs_clearCell (emit_ok hclear)
  have hadded := (Emitter.performs_add (emit_ok hadd)).1
  rw [hcursor] at hadded
  refine Emitter.Performs.congr (hcleared.trans hadded) fun m => ?_
  simp [position, Memory.set_set]

theorem logicalNot_computes {src dst : Int} {f f' : Frame} (h : logicalNot src dst f = .ok () f') :
    src ≠ dst ∧ f.Computes f' [src, dst] dst fun m => if m.cells (f.position src) = 0 then 1
      else 0 := by
  rw [logicalNot_eq] at h
  obtain ⟨_, u, hu, hrun⟩ := bind_eq_ok.1 h
  obtain ⟨rfl, hne⟩ := distinct_ok hu
  refine ⟨hne, ?_⟩
  rw [← UInt8.sub_self 1]
  refine truth_computes 1 (· - 1) ?_ ?_ ?_ hrun
  · intro u v hset
    exact (restores_compositional.setOne dst).1 _ _ _ hset
  · intro u v hset
    exact setOne_performs hset
  · intro u v hsub
    exact (Emitter.performs_sub hsub).1

/-! ## Connectives -/

section
variable {unary : Int → Int → Action Unit} (truth : UInt8 → UInt8)
  (hrestores : ∀ src dst, Restores (unary src dst))
  (hunary : ∀ {src dst : Int} {g g' : Frame}, unary src dst g = .ok () g' →
    g.Computes g' [src, dst] dst fun m => truth (m.cells (g.position src)))
include hrestores hunary

/-- The truth of a source, which goes through the scratch cell, is added to the destination. -/
theorem Updates.collect {f g g' h : Frame} {dst s x : Int} {v w : Memory → UInt8}
    (hupdates : f.Updates g dst s v w) (hdst : dst ∈ f.cells.offsets)
    (hscratch : s ∈ f.cells.offsets) (hne : s ≠ dst) (hmem : x ∈ f.cells.offsets) (hx : x ≠ dst)
    (hsx : s ≠ x) (htruth : unary x s g = .ok () g') (hadd : stackAdd s dst g' = .ok () h) :
    f.Updates h dst s (fun m => v m + truth (m.cells (f.position x)))
      fun m => truth (m.cells (f.position x)) := by
  have hfound : f.Updates g' dst s v fun m => truth (m.cells (f.position x)) := by
    have hstep := Updates.of_scratch dst ((hrestores x s).1 _ _ _ htruth) (hunary htruth)
    rw [hupdates.position] at hstep
    refine hupdates.andThen hstep hdst hscratch hne fun m m' hd _ ho => ⟨hd, ?_⟩
    rw [ho x hmem hx hsx.symm]
  have hstep := Updates.of_destination ((restores_compositional.stackAdd s dst).1 _ _ _ hadd) hne
    (stackAdd_computes hadd)
  rw [hfound.position] at hstep
  refine hfound.andThen hstep hdst hscratch hne fun m m' hd hs _ => ⟨?_, hs⟩
  rw [hd, hs]

/-- The truth function is applied to both sources, and then to the sum of the results. -/
theorem connective_computes {b : Builtin} {x y dst : Int} (hx : x ≠ dst) (hy : y ≠ dst)
    {f f' : Frame}
    (h : withScratch b [x, y, dst] (fun s => do
      clear dst
      unary x s
      stackAdd s dst
      unary y s
      stackAdd s dst
      unary dst s
      move s dst) f = .ok () f') :
    f.Computes f' [x, y, dst] dst fun m =>
      truth (truth (m.cells (f.position x)) + truth (m.cells (f.position y))) := by
  obtain ⟨s, f₁, taken, f₂, hlends, hbody, hend⟩ := withScratch_ok h
  obtain ⟨_, f₃, h₃, hbody⟩ := bind_eq_ok.1 hbody
  obtain ⟨_, f₄, h₄, hbody⟩ := bind_eq_ok.1 hbody
  obtain ⟨_, f₅, h₅, hbody⟩ := bind_eq_ok.1 hbody
  obtain ⟨_, f₆, h₆, hbody⟩ := bind_eq_ok.1 hbody
  obtain ⟨_, f₇, h₇, hbody⟩ := bind_eq_ok.1 hbody
  obtain ⟨_, f₈, h₈, h₉⟩ := bind_eq_ok.1 hbody
  obtain ⟨hsx, hsy, hs⟩ : s ≠ x ∧ s ≠ y ∧ s ≠ dst := by simpa using hlends.notOperand
  have hmem := hlends.mem_operand (o := dst) (by simp)
  have hmemx := hlends.mem_operand (o := x) (by simp)
  have hmemy := hlends.mem_operand (o := y) (by simp)
  have hclear : f₁.Updates f₃ dst s (fun _ => 0) fun m => m.cells (f₁.position s) :=
    .of_destination ((restores_compositional.clear dst).1 _ _ _ h₃) hs
      (.of_performs [] (clear_performs h₃))
  have hfirst := hclear.collect truth hrestores hunary hmem hlends.mem_scratch hs hmemx hx hsx h₄ h₅
  have htotal := hfirst.collect truth hrestores hunary hmem hlends.mem_scratch hs hmemy hy hsy h₆ h₇
  simp only [UInt8.zero_add] at htotal
  have hresult : f₁.Updates f₈ dst s
      (fun m => truth (m.cells (f₁.position x)) + truth (m.cells (f₁.position y)))
      fun m => truth (truth (m.cells (f₁.position x)) + truth (m.cells (f₁.position y))) := by
    have hstep := Updates.of_scratch dst ((hrestores dst s).1 _ _ _ h₈) (hunary h₈)
    rw [htotal.position] at hstep
    refine htotal.andThen hstep hmem hlends.mem_scratch hs fun m m' hd _ _ => ⟨hd, ?_⟩
    rw [hd]
  have hmove := Updates.of_performs ((restores_compositional.move s dst).1 _ _ _ h₉)
    (move_performs h₉).2
  rw [hresult.position] at hmove
  refine Updates.computes hlends hend
    (hresult.andThen hmove hmem hlends.mem_scratch hs fun m m' _ hs' _ => ⟨?_, rfl⟩)
  rw [hs', hlends.position]

end

theorem logicalAnd_computes {x y dst : Int} {f f' : Frame} (h : logicalAnd x y dst f = .ok () f') :
    (x ≠ dst ∧ y ≠ dst) ∧ f.Computes f' [x, y, dst] dst fun m =>
      if m.cells (f.position x) ≠ 0 ∧ m.cells (f.position y) ≠ 0 then 1 else 0 := by
  obtain ⟨_, u, hu, hrest⟩ := bind_eq_ok.1 h
  obtain ⟨rfl, hx⟩ := distinct_ok hu
  obtain ⟨_, v, hv, hrun⟩ := bind_eq_ok.1 hrest
  obtain ⟨rfl, hy⟩ := distinct_ok hv
  refine ⟨⟨hx, hy⟩, (connective_computes (if · = 0 then 1 else 0) restores_compositional.logicalNot
    (fun hnot => (logicalNot_computes hnot).2) hx hy hrun).congr fun m => ?_⟩
  -- both results are zero exactly if both sources are non-zero
  by_cases ha : m.cells (v.position x) = 0 <;> by_cases hb : m.cells (v.position y) = 0 <;>
    simp [ha, hb]

theorem logicalOr_computes {x y dst : Int} {f f' : Frame} (h : logicalOr x y dst f = .ok () f') :
    (x ≠ dst ∧ y ≠ dst) ∧ f.Computes f' [x, y, dst] dst fun m =>
      if m.cells (f.position x) ≠ 0 ∨ m.cells (f.position y) ≠ 0 then 1 else 0 := by
  obtain ⟨_, u, hu, hrest⟩ := bind_eq_ok.1 h
  obtain ⟨rfl, hx⟩ := distinct_ok hu
  obtain ⟨_, v, hv, hrun⟩ := bind_eq_ok.1 hrest
  obtain ⟨rfl, hy⟩ := distinct_ok hv
  refine ⟨⟨hx, hy⟩, (connective_computes (if · = 0 then 0 else 1) restores_compositional.asLogical
    (fun htruth => (asLogical_computes htruth).2) hx hy hrun).congr fun m => ?_⟩
  by_cases ha : m.cells (v.position x) = 0 <;> by_cases hb : m.cells (v.position y) = 0 <;>
    simp [ha, hb]

end TapeToolchain.Frame
