import TapeToolchain.Proofs.Frame.Effect

/-!
What the arithmetic built-ins compute. A built-in that keeps its source works with scratch cells;
they are free before, none of them is an operand, and they are zero in the end (`Computes`). Inside
of such a built-in two cells are at work, the destination and the scratch cell, and every step gives
new values to these two (`Updates`).
-/

namespace TapeToolchain

namespace Frame

open Emitter (moveTo add sub)

/-- Where a cell of the frame lies on the tape. -/
def position (f : Frame) (o : Int) : Int :=
  f.emitter.base + o

@[simp] theorem position_inj {f : Frame} {a b : Int} : f.position a = f.position b ↔ a = b := by
  simp [position]

/-- The code that was written between the two frames takes a memory to its image under `F`. -/
def Performs (f f' : Frame) (F : Memory → Memory) : Prop :=
  f.emitter.Performs f'.emitter F

theorem Performs.position {f f' : Frame} {F : Memory → Memory} (h : f.Performs f' F) :
    f'.position = f.position := by
  funext o
  rw [Frame.position, h.base, Frame.position]

theorem Performs.trans {f₁ f₂ f₃ : Frame} {F G : Memory → Memory} (h₁ : f₁.Performs f₂ F)
    (h₂ : f₂.Performs f₃ G) : f₁.Performs f₃ fun m => G (F m) :=
  Emitter.Performs.trans h₁ h₂

theorem Performs.congr {f f' : Frame} {F G : Memory → Memory} (h : f.Performs f' F)
    (hFG : ∀ m, F m = G m) : f.Performs f' G :=
  Emitter.Performs.congr h hFG

/-! ## Operations without scratch cells -/

theorem emit_ok {α : Type} {x : Emitter.Action α} {a : α} {f f' : Frame} (h : emit x f = .ok a f') :
    x f.emitter = .ok a f'.emitter := by
  simp only [emit] at h
  split at h
  · next hx => cases h; exact hx
  · cases h

theorem emit_error {α : Type} {x : Emitter.Action α} {c : CompileError} {f f' : Frame}
    (h : emit x f = .error c f') : x f.emitter = .error c f'.emitter := by
  simp only [emit] at h
  split at h
  · cases h
  · next hx => cases h; exact hx

theorem distinct_ok {b : Builtin} {src dst : Int} {f f' : Frame}
    (h : distinct b [src, dst] f = .ok () f') : f' = f ∧ src ≠ dst := by
  by_cases heq : src = dst
  · simp [distinct, firstRepeated?, heq] at h
  · have hne : ¬ dst = src := fun hd => heq hd.symm
    simp [distinct, firstRepeated?, hne] at h
    exact ⟨h.symm, heq⟩

theorem clear_performs {dst : Int} {f f' : Frame} (h : clear dst f = .ok () f') :
    f.Performs f' fun m => m.set (f.position dst) 0 := by
  rw [clear_eq] at h
  exact (Emitter.performs_clearCell (emit_ok h)).1

theorem transfer_performs {src : Int} {targets : List Int} (hsrc : src ∉ targets)
    {step : Emitter.Action Unit} (amount : UInt8)
    (hstep : ∀ u v, step u = .ok () v →
      u.Performs v fun m => m.set u.cursor (m.cells u.cursor + amount))
    {f f' : Frame} (h : transfer src targets step f = .ok () f') :
    f.Performs f' fun m =>
      (m.shiftAll (targets.map f.position) (amount * m.cells (f.position src))).set
        (f.position src) 0 := by
  rw [transfer_eq] at h
  exact (Emitter.performs_transfer hsrc hstep (emit_ok h)).1

theorem destructiveAdd_performs {src dst : Int} {f f' : Frame}
    (h : destructiveAdd src dst f = .ok () f') :
    src ≠ dst ∧ f.Performs f' fun m =>
      (m.set (f.position dst) (m.cells (f.position dst) + m.cells (f.position src))).set
        (f.position src) 0 := by
  obtain ⟨_, u, hu, htransfer⟩ := bind_eq_ok.1 h
  obtain ⟨rfl, hne⟩ := distinct_ok hu
  refine ⟨hne, (transfer_performs (by simpa using hne) 1 ?_ htransfer).congr fun m => ?_⟩
  · intro u v huv
    exact (Emitter.performs_add huv).1
  · rw [UInt8.one_mul, List.map_singleton, Memory.shiftAll_singleton]

theorem destructiveSub_performs {src dst : Int} {f f' : Frame}
    (h : destructiveSub src dst f = .ok () f') :
    src ≠ dst ∧ f.Performs f' fun m =>
      (m.set (f.position dst) (m.cells (f.position dst) - m.cells (f.position src))).set
        (f.position src) 0 := by
  obtain ⟨_, u, hu, htransfer⟩ := bind_eq_ok.1 h
  obtain ⟨rfl, hne⟩ := distinct_ok hu
  refine ⟨hne, (transfer_performs (by simpa using hne) (-1) ?_ htransfer).congr fun m => ?_⟩
  · intro u v huv
    refine (Emitter.performs_sub huv).1.congr fun m => ?_
    congr 1
    grind
  · rw [List.map_singleton, Memory.shiftAll_singleton]
    congr 2
    grind

theorem move_performs {src dst : Int} {f f' : Frame} (h : move src dst f = .ok () f') :
    src ≠ dst ∧ f.Performs f' fun m =>
      (m.set (f.position dst) (m.cells (f.position src))).set (f.position src) 0 := by
  obtain ⟨_, u, hu, hrun⟩ := bind_eq_ok.1 h
  obtain ⟨rfl, hne⟩ := distinct_ok hu
  obtain ⟨_, v, hclear, hadd⟩ := bind_eq_ok.1 hrun
  have hzero := clear_performs hclear
  have hsum := (destructiveAdd_performs hadd).2
  rw [hzero.position] at hsum
  refine ⟨hne, (hzero.trans hsum).congr fun m => ?_⟩
  simp [Memory.set_set, hne]

theorem naturalCount_ok {count : Int} {n : Nat} {f f' : Frame}
    (h : naturalCount count f = .ok n f') : f' = f ∧ count = n := by
  simp only [naturalCount] at h
  split at h
  · cases h
  · cases h; exact ⟨rfl, by omega⟩

/-- Going to a cell and doing something there. -/
theorem performs_at {dst : Int} {x : Emitter.Action Unit} {F : Int → Memory → Memory}
    (hx : ∀ u v, x u = .ok () v → u.Performs v (F u.cursor)) {f f' : Frame}
    (h : emit (do moveTo dst; x) f = .ok () f') : f.Performs f' (F (f.position dst)) := by
  obtain ⟨_, u, hmove, hrun⟩ := bind_eq_ok.1 (emit_ok h)
  obtain ⟨hmoved, hcursor⟩ := Emitter.performs_moveTo hmove
  have hdone := hx u _ hrun
  rw [hcursor] at hdone
  exact hmoved.trans hdone

theorem constantAdd_performs {constant dst : Int} {f f' : Frame}
    (h : constantAdd constant dst f = .ok () f') :
    ∃ n : Nat, constant = n ∧ f.Performs f' fun m =>
      m.set (f.position dst) (m.cells (f.position dst) + UInt8.ofNat n) := by
  obtain ⟨n, u, hn, hrun⟩ := bind_eq_ok.1 h
  obtain ⟨rfl, rfl⟩ := naturalCount_ok hn
  exact ⟨n, rfl, performs_at (F := fun p m => m.set p (m.cells p + UInt8.ofNat n))
    (fun _ _ hadd => (Emitter.performs_add hadd).1) hrun⟩

theorem constantSub_performs {constant dst : Int} {f f' : Frame}
    (h : constantSub constant dst f = .ok () f') :
    ∃ n : Nat, constant = n ∧ f.Performs f' fun m =>
      m.set (f.position dst) (m.cells (f.position dst) - UInt8.ofNat n) := by
  obtain ⟨n, u, hn, hrun⟩ := bind_eq_ok.1 h
  obtain ⟨rfl, rfl⟩ := naturalCount_ok hn
  exact ⟨n, rfl, performs_at (F := fun p m => m.set p (m.cells p - UInt8.ofNat n))
    (fun _ _ hsub => (Emitter.performs_sub hsub).1) hrun⟩

/-! ## Operations with scratch cells -/

theorem emitter_freeAll {offsets : List Int} {f f' : Frame} (h : freeAll offsets f = .ok () f') :
    f'.emitter = f.emitter := by
  induction offsets generalizing f with
  | nil => cases h; rfl
  | cons o rest ih =>
    obtain ⟨_, u, hu, hrest⟩ := bind_eq_ok.1 h
    rw [ih hrest]
    simp only [free] at hu
    split at hu
    · cases hu; rfl
    · cases hu

/-- An operation with a scratch cell that succeeds has run on a frame that lends the cell. -/
theorem withScratch_ok {b : Builtin} {operands : List Int} {body : Int → Action Unit} {f f' : Frame}
    (h : withScratch b operands body f = .ok () f') :
    ∃ scratch f₁ taken f₂, f.Lends operands scratch f₁ taken ∧ body scratch f₁ = .ok () f₂ ∧
      f'.emitter = f₂.emitter := by
  rcases withScratch_cases b operands body f
    with ⟨c, -, herror⟩ | ⟨scratch, f₁, taken, hlends, hrun⟩
  · rw [herror] at h; cases h
  · rw [hrun, andThen] at h
    cases hb : body scratch f₁ with
    | ok a f₂ =>
      rw [hb] at h
      exact ⟨scratch, f₁, taken, f₂, hlends, hb, emitter_freeAll h⟩
    | error c f₂ =>
      rw [hb] at h
      cases hfree : freeAll taken f₂ with
      | ok _ _ => simp only [hfree] at h; cases h
      | error _ _ => simp only [hfree] at h; cases h

theorem Lends.position {f f₁ : Frame} {operands taken : List Int} {scratch : Int}
    (h : f.Lends operands scratch f₁ taken) : f₁.position = f.position := by
  funext o
  rw [Frame.position, h.emitter, Frame.position]

theorem Lends.mem_scratch {f f₁ : Frame} {operands taken : List Int} {s : Int}
    (h : f.Lends operands s f₁ taken) : s ∈ f₁.cells.offsets :=
  (h.mem_cells s).2 (Or.inr (Or.inl rfl))

theorem Lends.mem_operand {f f₁ : Frame} {operands taken : List Int} {s : Int}
    (h : f.Lends operands s f₁ taken) {o : Int} (ho : o ∈ operands) :
    o ∈ f₁.cells.offsets :=
  (h.mem_cells o).2 (Or.inl ho)

/-- What is done on the frame that lends a cell is done on the frame. -/
theorem Lends.performs {f f₁ f₂ f' : Frame} {operands taken : List Int} {scratch : Int}
    (h : f.Lends operands scratch f₁ taken) (hend : f'.emitter = f₂.emitter) {F : Memory → Memory}
    (hF : f₁.Performs f₂ F) : f.Performs f' F := by
  rw [Performs, hend, ← h.emitter]
  exact hF

/-- The cells are free, none of them is an operand, and none is below the frame. -/
def Spares (f : Frame) (operands temps : List Int) : Prop :=
  ∀ t ∈ temps, t ∉ f.cells.offsets ∧ t ∉ operands ∧ 0 ≤ t

theorem Spares.weaken {f : Frame} {operands temps : List Int} (h : f.Spares operands temps) :
    f.Spares [] temps :=
  fun t ht => ⟨(h t ht).1, List.not_mem_nil, (h t ht).2.2⟩

theorem Spares.of_cells {f g : Frame} {operands temps : List Int} (h : f.Spares operands temps)
    (hcells : g.cells = f.cells) : g.Spares operands temps := by
  rw [Spares, hcells]
  exact h

/-- Between the frames, the destination is given a value. Cells that were free and are no operands
may have been used in between, and are zero in the end; all else is kept. -/
def Computes (f f' : Frame) (operands : List Int) (dst : Int) (value : Memory → UInt8) : Prop :=
  ∃ temps : List Int, f.Spares operands temps ∧
    f.Performs f' fun m => (m.set (f.position dst) (value m)).clearAll (temps.map f.position)

theorem Computes.of_performs {f f' : Frame} {dst : Int} {value : Memory → UInt8}
    (operands : List Int) (h : f.Performs f' fun m => m.set (f.position dst) (value m)) :
    f.Computes f' operands dst value := by
  refine ⟨[], nofun, h.congr fun m => ?_⟩
  refine Memory.ext_cells (fun p => ?_) rfl rfl
  simp

theorem Computes.congr {f f' : Frame} {operands : List Int} {dst : Int} {v w : Memory → UInt8}
    (h : f.Computes f' operands dst v) (hvw : ∀ m, v m = w m) : f.Computes f' operands dst w := by
  obtain rfl : v = w := funext hvw
  exact h

/-- A copy goes through one scratch cell. -/
theorem copy_performs {src dst : Int} {f f' : Frame} (h : copy src dst f = .ok () f') :
    src ≠ dst ∧ ∃ s, f.Spares [src, dst] [s] ∧ f.Performs f' fun m =>
      (m.set (f.position dst) (m.cells (f.position src))).clearAll [f.position s] := by
  obtain ⟨_, u, hu, hrun⟩ := bind_eq_ok.1 h
  obtain ⟨rfl, hne⟩ := distinct_ok hu
  obtain ⟨s, f₁, taken, f₂, hlends, hbody, hend⟩ := withScratch_ok hrun
  obtain ⟨_, f₃, hclear, hbody⟩ := bind_eq_ok.1 hbody
  obtain ⟨_, f₄, hclear', hbody⟩ := bind_eq_ok.1 hbody
  obtain ⟨_, f₅, htransfer, hadd⟩ := bind_eq_ok.1 hbody
  obtain ⟨hsrc, hdst⟩ : s ≠ src ∧ s ≠ dst := by simpa using hlends.notOperand
  -- `dst` and the scratch cell take the value of `src`, and `src` takes it back from the scratch
  -- cell
  have h₃ := clear_performs hclear
  have h₄ := clear_performs hclear'
  have h₅ := transfer_performs (by simp [hne, hsrc.symm]) 1
    (fun u v huv => (Emitter.performs_add huv).1) htransfer
  have h₂ := (destructiveAdd_performs hadd).2
  rw [h₅.position, h₄.position, h₃.position, hlends.position] at h₂
  rw [h₄.position, h₃.position, hlends.position] at h₅
  rw [h₃.position, hlends.position] at h₄
  rw [hlends.position] at h₃
  refine ⟨hne, s, ?_, hlends.performs hend ((((h₃.trans h₄).trans h₅).trans h₂).congr fun m => ?_)⟩
  · intro t ht
    obtain rfl := List.mem_singleton.1 ht
    exact ⟨hlends.free, hlends.notOperand, hlends.nonneg⟩
  · refine Memory.ext_cells (fun p => ?_) rfl rfl
    by_cases hs : p = u.position s
    · simp [hs]
    by_cases hd : p = u.position dst
    · subst hd
      simp [hdst, hdst.symm, hne, hne.symm, hsrc.symm]
    by_cases hc : p = u.position src
    · subst hc
      simp [hdst, hdst.symm, hne, hsrc, hsrc.symm]
    · simp [hs, hd, hc, Ne.symm hs, Ne.symm hd, List.count_cons]

theorem copy_computes {src dst : Int} {f f' : Frame} (h : copy src dst f = .ok () f') :
    src ≠ dst ∧ f.Computes f' [src, dst] dst fun m => m.cells (f.position src) := by
  obtain ⟨hne, s, hspares, hperforms⟩ := copy_performs h
  exact ⟨hne, [s], hspares, hperforms⟩

/-! ## A destination and a scratch cell -/

/-- Between the frames, two cells are given values. Cells that were free may have been used in
between, and are zero in the end; all else is kept. -/
structure Updates (f f' : Frame) (dst s : Int) (v w : Memory → UInt8) : Prop where
  cells : f'.cells = f.cells
  performs : ∃ temps : List Int, f.Spares [] temps ∧ f.Performs f' fun m =>
    ((m.set (f.position dst) (v m)).set (f.position s) (w m)).clearAll (temps.map f.position)

namespace Updates

theorem position {f f' : Frame} {dst s : Int} {v w : Memory → UInt8} (h : f.Updates f' dst s v w) :
    f'.position = f.position := by
  obtain ⟨-, temps, -, hperforms⟩ := h
  exact hperforms.position

theorem of_performs {f f' : Frame} {dst s : Int} {v w : Memory → UInt8}
    (hcells : f'.cells = f.cells)
    (h : f.Performs f' fun m => (m.set (f.position dst) (v m)).set (f.position s) (w m)) :
    f.Updates f' dst s v w := by
  refine ⟨hcells, [], nofun, h.congr fun m => ?_⟩
  refine Memory.ext_cells (fun p => ?_) rfl rfl
  simp

theorem of_destination {f f' : Frame} {operands : List Int} {dst s : Int} {value : Memory → UInt8}
    (hcells : f'.cells = f.cells) (hne : s ≠ dst) (h : f.Computes f' operands dst value) :
    f.Updates f' dst s value fun m => m.cells (f.position s) := by
  obtain ⟨temps, htemps, hperforms⟩ := h
  refine ⟨hcells, temps, htemps.weaken, hperforms.congr fun m => ?_⟩
  refine Memory.ext_cells (fun p => ?_) rfl rfl
  by_cases hs : p = f.position s
  · simp [hs, hne]
  · simp [hs]

theorem of_scratch {f f' : Frame} {operands : List Int} (dst : Int) {s : Int}
    {value : Memory → UInt8} (hcells : f'.cells = f.cells) (h : f.Computes f' operands s value) :
    f.Updates f' dst s (fun m => m.cells (f.position dst)) value := by
  obtain ⟨temps, htemps, hperforms⟩ := h
  refine ⟨hcells, temps, htemps.weaken, hperforms.congr fun m => ?_⟩
  rw [m.set_cells]

/-- One update after the other. The values of the second are computed from what the first has
left. -/
theorem andThen {f g h : Frame} {dst s : Int} {v w v' w' v'' w'' : Memory → UInt8}
    (h₁ : f.Updates g dst s v w) (h₂ : g.Updates h dst s v' w') (hdst : dst ∈ f.cells.offsets)
    (hs : s ∈ f.cells.offsets) (hne : s ≠ dst)
    (hvalues : ∀ m m' : Memory, m'.cells (f.position dst) = v m → m'.cells (f.position s) = w m →
      (∀ o ∈ f.cells.offsets, o ≠ dst → o ≠ s → m'.cells (f.position o) = m.cells (f.position o)) →
      v' m' = v'' m ∧ w' m' = w'' m) :
    f.Updates h dst s v'' w'' := by
  obtain ⟨hcells₁, temps₁, htemps₁, hperforms₁⟩ := h₁
  obtain ⟨hcells₂, temps₂, htemps₂, hperforms₂⟩ := h₂
  replace htemps₂ := htemps₂.of_cells hcells₁.symm
  rw [hperforms₁.position] at hperforms₂
  refine ⟨hcells₂.trans hcells₁, temps₁ ++ temps₂, ?_,
    (hperforms₁.trans hperforms₂).congr fun m => ?_⟩
  · intro t ht
    rcases List.mem_append.1 ht with ht | ht
    · exact htemps₁ t ht
    · exact htemps₂ t ht
  · -- neither update uses occupied cells in between, so the second reads what the first has left
    have hout : ∀ o ∈ f.cells.offsets, o ∉ temps₁ ∧ o ∉ temps₂ := fun o ho =>
      ⟨fun ht => (htemps₁ o ht).1 ho, fun ht => (htemps₂ o ht).1 ho⟩
    obtain ⟨hdst₁, hdst₂⟩ := hout dst hdst
    obtain ⟨hs₁, hs₂⟩ := hout s hs
    obtain ⟨hv, hw⟩ := hvalues m
      (((m.set (f.position dst) (v m)).set (f.position s) (w m)).clearAll (temps₁.map f.position))
      (by simp [hdst₁, hne.symm]) (by simp [hs₁])
      (fun o ho hod hos => by simp [(hout o ho).1, hod, hos])
    simp only [hv, hw]
    refine Memory.ext_cells (fun p => ?_) rfl rfl
    by_cases hp₂ : p ∈ temps₂.map f.position
    · simp [hp₂]
    by_cases hps : p = f.position s
    · simp [hps, hs₁, hs₂]
    by_cases hpd : p = f.position dst
    · simp [hpd, hdst₁, hdst₂, hne.symm]
    by_cases hp₁ : p ∈ temps₁.map f.position
    · simp [hp₁, hp₂, hps, hpd]
    · simp [hp₁, hp₂, hps, hpd]

/-- When the scratch cell is zero in the end, the operation computes the destination's value. -/
theorem computes {f f₁ f₂ f' : Frame} {operands taken : List Int} {dst s : Int} {v : Memory → UInt8}
    (hlends : f.Lends operands s f₁ taken) (hend : f'.emitter = f₂.emitter)
    (h : f₁.Updates f₂ dst s v fun _ => 0) : f.Computes f' operands dst v := by
  obtain ⟨-, temps, htemps, hperforms⟩ := h
  rw [hlends.position] at hperforms
  refine ⟨s :: temps, ?_, hlends.performs hend (hperforms.congr fun m => ?_)⟩
  · intro t ht
    rcases List.mem_cons.1 ht with rfl | ht
    · exact ⟨hlends.free, hlends.notOperand, hlends.nonneg⟩
    · obtain ⟨hfree, -, hnonneg⟩ := htemps t ht
      rw [hlends.mem_cells] at hfree
      exact ⟨fun hmem => hfree (Or.inr (Or.inr hmem)), fun hmem => hfree (Or.inl hmem), hnonneg⟩
  · refine Memory.ext_cells (fun p => ?_) rfl rfl
    by_cases hs : p = f.position s
    · simp [hs]
    · simp [hs]

end Updates

/-- A copy of the source is used up on the destination. The copy is in one scratch cell, and another
one is needed to make it. -/
theorem performs_by_copy {op : UInt8 → UInt8 → UInt8} {useUp : Int → Int → Action Unit}
    (huseUp : ∀ {s dst : Int} {g g' : Frame}, useUp s dst g = .ok () g' → g.Performs g' fun m =>
      (m.set (g.position dst) (op (m.cells (g.position dst)) (m.cells (g.position s)))).set
        (g.position s) 0)
    {b : Builtin} {src dst : Int} {f f' : Frame}
    (h : withScratch b [src, dst] (fun s => do copy src s; useUp s dst) f = .ok () f') :
    ∃ s t, s ≠ t ∧ f.Spares [src, dst] [s, t] ∧ f.Performs f' fun m =>
      (m.set (f.position dst) (op (m.cells (f.position dst)) (m.cells (f.position src)))).clearAll
        [f.position s, f.position t] := by
  obtain ⟨s, f₁, taken, f₂, hlends, hbody, hend⟩ := withScratch_ok h
  obtain ⟨_, f₃, hcopy, hrun⟩ := bind_eq_ok.1 hbody
  obtain ⟨hsrc, hdst⟩ : s ≠ src ∧ s ≠ dst := by simpa using hlends.notOperand
  obtain ⟨-, t, hspares, hcopied⟩ := copy_performs hcopy
  have hused := huseUp hrun
  rw [hcopied.position, hlends.position] at hused
  rw [hlends.position] at hcopied
  obtain ⟨hfree, -, hnonneg⟩ := hspares t List.mem_cons_self
  -- the second scratch cell is taken while the first is occupied and the operands are reserved
  obtain ⟨hts, htf, htsrc, htdst⟩ : t ≠ s ∧ t ∉ f.cells.offsets ∧ t ≠ src ∧ t ≠ dst := by
    rw [hlends.mem_cells] at hfree
    simp only [List.mem_cons, List.not_mem_nil, or_false, not_or] at hfree
    exact ⟨hfree.2.1, hfree.2.2, hfree.1.1, hfree.1.2⟩
  refine ⟨s, t, hts.symm, ?_, hlends.performs hend ((hcopied.trans hused).congr fun m => ?_)⟩
  · intro u hu
    rcases List.mem_cons.1 hu with rfl | hu
    · exact ⟨hlends.free, hlends.notOperand, hlends.nonneg⟩
    · obtain rfl := List.mem_singleton.1 hu
      exact ⟨htf, by simp [htsrc, htdst], hnonneg⟩
  · refine Memory.ext_cells (fun p => ?_) rfl rfl
    by_cases hps : p = f.position s
    · simp [hps]
    by_cases hpt : p = f.position t
    · simp [hpt, hts, htdst]
    by_cases hpd : p = f.position dst
    · simp [hpd, hdst.symm, htdst.symm, hts.symm]
    · simp [hps, hpt, hpd]

theorem stackAdd_performs {src dst : Int} {f f' : Frame} (h : stackAdd src dst f = .ok () f') :
    ∃ s t, s ≠ t ∧ f.Spares [src, dst] [s, t] ∧ f.Performs f' fun m =>
      (m.set (f.position dst) (m.cells (f.position dst) + m.cells (f.position src))).clearAll
        [f.position s, f.position t] :=
  performs_by_copy (fun hadd => (destructiveAdd_performs hadd).2) h

theorem stackSub_performs {src dst : Int} {f f' : Frame} (h : stackSub src dst f = .ok () f') :
    ∃ s t, s ≠ t ∧ f.Spares [src, dst] [s, t] ∧ f.Performs f' fun m =>
      (m.set (f.position dst) (m.cells (f.position dst) - m.cells (f.position src))).clearAll
        [f.position s, f.position t] :=
  performs_by_copy (fun hsub => (destructiveSub_performs hsub).2) h

theorem stackAdd_computes {src dst : Int} {f f' : Frame} (h : stackAdd src dst f = .ok () f') :
    f.Computes f' [src, dst] dst fun m => m.cells (f.position dst) + m.cells (f.position src) := by
  obtain ⟨s, t, -, hspares, hperforms⟩ := stackAdd_performs h
  exact ⟨[s, t], hspares, hperforms⟩

theorem stackSub_computes {src dst : Int} {f f' : Frame} (h : stackSub src dst f = .ok () f') :
    f.Computes f' [src, dst] dst fun m => m.cells (f.position dst) - m.cells (f.position src) := by
  obtain ⟨s, t, -, hspares, hperforms⟩ := stackSub_performs h
  exact ⟨[s, t], hspares, hperforms⟩

end Frame

end TapeToolchain
