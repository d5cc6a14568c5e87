import TapeToolchain.Proofs.Frame.Rejections

/-!
Live cells can always be reached. A cell is checked against the end of the tape when it is
allocated, with the base of that moment. The base moves later, but only at the end of a resizing
that has gone to the new place of every occupied cell; a resizing that fails on its way leaves the
base. So whatever is done to a frame, and whatever of it fails, each occupied cell stays on the tape
(`Addressable`).
-/

namespace TapeToolchain

section
variable {σ α β : Type} {R : σ → σ → Prop}

theorem stateAfter_bind {x : EStateM CompileError σ α} {s t : σ} {a : α} (h : x s = .ok a t)
    (f : α → EStateM CompileError σ β) : stateAfter (x >>= f) s = stateAfter (f a) t := by
  rw [stateAfter, bind_of_ok h, stateAfter]

/-- Whatever comes of the action, the states before and after it are related by `R`. -/
def Always (R : σ → σ → Prop) (x : EStateM CompileError σ α) : Prop :=
  ∀ s, R s (stateAfter x s)

theorem Always.bind (htrans : ∀ s t u, R s t → R t u → R s u) {x : EStateM CompileError σ α}
    {f : α → EStateM CompileError σ β} (hx : Always R x) (hf : ∀ a, Always R (f a)) :
    Always R (x >>= f) := by
  intro s
  have hfirst := hx s
  cases h : x s with
  | ok a t =>
    rw [stateAfter_of_ok h] at hfirst
    rw [stateAfter_bind h]
    exact htrans s t _ hfirst (hf a t)
  | error c t =>
    rw [stateAfter_of_error h] at hfirst
    rw [stateAfter_of_error (bind_of_error h)]
    exact hfirst

end

namespace Emitter

/-- The base has not moved, and the cursor has not left the tape. -/
structure Anchored (e e' : Emitter) : Prop where
  tapeSize : e'.tapeSize = e.tapeSize
  base : e'.base = e.base
  cursor : e.CursorInside → e'.CursorInside

namespace Anchored

theorem refl (e : Emitter) : Anchored e e := ⟨rfl, rfl, id⟩

theorem trans (e₁ e₂ e₃ : Emitter) (h₁ : Anchored e₁ e₂) (h₂ : Anchored e₂ e₃) : Anchored e₁ e₃ :=
  ⟨h₂.tapeSize.trans h₁.tapeSize, h₂.base.trans h₁.base, fun h => h₂.cursor (h₁.cursor h)⟩

theorem moveTo (o : Int) : Always Anchored (moveTo o) := by
  intro e
  cases h : Emitter.moveTo o e with
  | ok a e' =>
    rw [stateAfter_of_ok h]
    obtain ⟨rfl, htape⟩ := moveTo_ok h
    exact ⟨rfl, rfl, fun _ => Or.inr htape⟩
  | error c e' =>
    rw [stateAfter_of_error h]
    obtain ⟨rfl, -⟩ := moveTo_error h
    exact refl _

theorem repeated (i : Instruction) (n : Nat) : Always Anchored (repeated i n) :=
  fun _ => ⟨rfl, rfl, id⟩

theorem beginLoop : Always Anchored beginLoop :=
  fun _ => ⟨rfl, rfl, id⟩

theorem endLoop : Always Anchored endLoop := by
  intro e
  cases h : Emitter.endLoop e with
  | ok a e' =>
    rw [stateAfter_of_ok h]
    simp only [Emitter.endLoop] at h
    split at h
    · cases h
    · split at h
      · cases h; exact ⟨rfl, rfl, id⟩
      · cases h
  | error c e' =>
    rw [stateAfter_of_error h]
    obtain ⟨rfl, -⟩ := endLoop_error h
    exact ⟨rfl, rfl, id⟩

theorem bind {α β : Type} {x : Action α} {f : α → Action β} (hx : Always Anchored x)
    (hf : ∀ a, Always Anchored (f a)) : Always Anchored (x >>= f) :=
  Always.bind trans hx hf

theorem loopOn (o : Int) {body : Action Unit} (hbody : Always Anchored body) :
    Always Anchored (loopOn o body) :=
  bind (moveTo o) fun _ => bind beginLoop fun _ => bind hbody fun _ =>
    bind (moveTo o) fun _ => endLoop

end Anchored

end Emitter

namespace Frame

def Anchored (f f' : Frame) : Prop :=
  f.emitter.Anchored f'.emitter

namespace Anchored

theorem of_eq {f f' : Frame} (h : f'.emitter = f.emitter) : Anchored f f' := by
  rw [Anchored, h]
  exact .refl _

theorem emit {α : Type} {x : Emitter.Action α} (hx : Always Emitter.Anchored x) :
    Always Anchored (Frame.emit x) := by
  intro f
  have hafter : (stateAfter (Frame.emit x) f).emitter = stateAfter x f.emitter := by
    simp only [stateAfter, Frame.emit]
    cases x f.emitter <;> rfl
  rw [Anchored, hafter]
  exact hx f.emitter

theorem bind {α β : Type} {x : Action α} {k : α → Action β} (hx : Always Anchored x)
    (hk : ∀ a, Always Anchored (k a)) : Always Anchored (x >>= k) :=
  Always.bind (fun f₁ f₂ f₃ => Emitter.Anchored.trans f₁.emitter f₂.emitter f₃.emitter) hx hk

theorem pure {α : Type} (a : α) : Always Anchored (pure a : Action α) :=
  fun _ => of_eq rfl

theorem free (offset : Int) : Always Anchored (free offset) := by
  intro f
  refine of_eq ?_
  simp only [stateAfter, Frame.free]
  cases f.cells.free? offset <;> rfl

theorem freeAll : ∀ offsets, Always Anchored (freeAll offsets)
  | [] => pure ()
  | offset :: rest => bind (free offset) fun _ => freeAll rest

theorem andThen {action closing : Action Unit} (ha : Always Anchored action)
    (hc : Always Anchored closing) : Always Anchored (andThen action closing) := by
  intro f
  have hafter : stateAfter (Frame.andThen action closing) f =
      stateAfter closing (stateAfter action f) := by
    simp only [stateAfter, Frame.andThen]
    cases action f with
    | ok a g => rfl
    | error c g =>
      dsimp only
      cases closing g <;> rfl
  rw [hafter]
  exact Emitter.Anchored.trans _ _ _ (ha f) (hc _)

/-- Cells are taken and given back without touching the emitter. -/
theorem withScratch (b : Builtin) (operands : List Int) {body : Int → Action Unit}
    (hbody : ∀ scratch, Always Anchored (body scratch)) :
    Always Anchored (withScratch b operands body) := by
  intro f
  rcases withScratch_cases b operands body f with ⟨c, -, h⟩ | ⟨scratch, f₁, taken, hlends, h⟩
  · rw [stateAfter_of_error h]
    exact of_eq rfl
  · have hafter : stateAfter (Frame.withScratch b operands body) f =
        stateAfter (Frame.andThen (body scratch) (Frame.freeAll taken)) f₁ := by
      rw [stateAfter, h, stateAfter]
    have hanchored : Anchored f₁ (stateAfter (Frame.withScratch b operands body) f) := by
      rw [hafter]
      exact andThen (hbody scratch) (freeAll taken) f₁
    rwa [Anchored, hlends.emitter] at hanchored

theorem compositional :
    Compositional (fun _ x => Always Emitter.Anchored x) (fun _ x => Always Anchored x) where
  skip _ := fun _ => .refl _
  seq := Emitter.Anchored.bind
  moveTo := Emitter.Anchored.moveTo
  add n := Emitter.Anchored.repeated _ n
  sub n := Emitter.Anchored.repeated _ n
  read := Emitter.Anchored.repeated _ 1
  write := Emitter.Anchored.repeated _ 1
  loopOn o _ := Emitter.Anchored.loopOn o
  pure := pure
  throw _ := fun _ => of_eq rfl
  bind := bind
  emit := emit
  withScratch b operands _ := withScratch b operands
  occupied := fun _ => of_eq rfl

/-- A built-in that does not resize the frame. -/
theorem invoke {b : Builtin} (hb : b ≠ .growStack ∧ b ≠ .shrinkStack) (arguments : List Atom) :
    Always Anchored (invoke b arguments) := by
  refine compositional.invoke arguments (fun _ o => ⟨?_, ?_⟩) fun hresize => ?_
  · exact emit (Emitter.Anchored.bind (.moveTo o) fun _ => .beginLoop)
  · exact emit (Emitter.Anchored.bind (.moveTo o) fun _ => .endLoop)
  · rcases hresize with rfl | rfl
    · exact absurd rfl hb.1
    · exact absurd rfl hb.2

end Anchored

/-- All occupied cells of the frame lie on the tape, and so do its base, which may be at the end,
and its cursor. -/
structure Addressable (tapeSize : UInt64) (f : Frame) : Prop where
  tapeSize : f.emitter.tapeSize = tapeSize
  base : 0 ≤ f.emitter.base ∧ f.emitter.base ≤ f.emitter.limit
  cursor : f.emitter.CursorInside
  live : ∀ o ∈ f.cells.offsets, 0 ≤ o ∧ f.emitter.onTape (f.emitter.base + o) = true

namespace Addressable

variable {tapeSize : UInt64} {f f' : Frame}

theorem of_new (hsize : tapeSize.toNat < 2 ^ 63) : Addressable tapeSize (.new tapeSize) where
  tapeSize := rfl
  base := by
    refine ⟨Int.le_refl 0, ?_⟩
    rw [Emitter.limit_eq_toNat rfl hsize]
    exact Int.natCast_nonneg _
  cursor := Emitter.cursorInside_new tapeSize
  live := by simp [Frame.new, CellPool.empty]

theorem of_anchored (h : f.Addressable tapeSize) (hanchored : f.Anchored f')
    (hcells : f'.cells = f.cells) : f'.Addressable tapeSize := by
  have hlimit : f'.emitter.limit = f.emitter.limit := by
    rw [Emitter.limit, hanchored.tapeSize, Emitter.limit]
  refine ⟨hanchored.tapeSize.trans h.tapeSize, ?_, hanchored.cursor h.cursor, fun o ho => ?_⟩
  · rw [hlimit, hanchored.base]
    exact h.base
  · rw [Emitter.onTape_iff, hlimit, hanchored.base, ← Emitter.onTape_iff]
    exact h.live o (hcells ▸ ho)

/-! ## One operation -/

theorem allocate (h : f.Addressable tapeSize) : (stateAfter allocate f).Addressable tapeSize := by
  cases hrun : Frame.allocate f with
  | ok o f' =>
    rw [stateAfter_of_ok hrun]
    simp only [Frame.allocate] at hrun
    split at hrun
    · next htape =>
      cases hrun
      refine ⟨h.tapeSize, h.base, h.cursor, fun o ho => ?_⟩
      rcases CellPool.mem_insert.1 ho with rfl | ho
      · exact ⟨f.cells.leastFree_nonneg, htape⟩
      · exact h.live o ho
    · cases hrun
  | error c f' =>
    rw [stateAfter_of_error hrun]
    simp only [Frame.allocate] at hrun
    split at hrun
    · cases hrun
    · cases hrun
      exact h

theorem free (h : f.Addressable tapeSize) (offset : Int) :
    (stateAfter (free offset) f).Addressable tapeSize := by
  cases hrun : Frame.free offset f with
  | ok _ f' =>
    rw [stateAfter_of_ok hrun]
    simp only [Frame.free, CellPool.free?] at hrun
    split at hrun
    · next hfree =>
      split at hfree
      · cases hfree
        cases hrun
        exact ⟨h.tapeSize, h.base, h.cursor, fun o ho => h.live o (CellPool.mem_erase.1 ho).2⟩
      · cases hfree
    · cases hrun
  | error c f' =>
    rw [stateAfter_of_error hrun]
    simp only [Frame.free] at hrun
    split at hrun
    · cases hrun
    · cases hrun
      exact h

/-- The base is moved last, after the new place of every occupied cell was visited. -/
theorem rebase (h : f.Addressable tapeSize) {x : Action Unit} {offsets : List Int} {distance : Int}
    (hanchored : Always Anchored x) (hvisits : Visits f.cells x offsets)
    (hplaces : ∀ o ∈ f.cells.offsets, o + distance ∈ offsets) :
    (stateAfter (do x; emit (Emitter.rebase distance)) f).Addressable tapeSize := by
  have hafter := hanchored f
  cases hx : x f with
  | error c f₁ =>
    -- The tape has ended on the way, and the base is still where it was.
    rw [stateAfter_of_error (bind_of_error hx)]
    rw [stateAfter_of_error hx] at hafter
    exact h.of_anchored hafter (hvisits.fails rfl hx).2
  | ok _ f₁ =>
    rw [stateAfter_of_ok hx] at hafter
    obtain ⟨hcovers, halike, hcells⟩ := hvisits.ok rfl hx
    have h₁ : f₁.Addressable tapeSize := h.of_anchored hafter hcells
    rw [stateAfter_bind hx]
    cases hbase : emit (Emitter.rebase distance) f₁ with
    | error c f₂ =>
      rw [stateAfter_of_error hbase]
      obtain ⟨hemitter, -⟩ := Emitter.rebase_error (emit_error hbase)
      exact h₁.of_anchored (.of_eq hemitter) ((Restores.emit _).2 _ _ _ hbase)
    | ok _ f₂ =>
      rw [stateAfter_of_ok hbase]
      obtain ⟨rfl, hrange⟩ := emit_rebase_iff.1 hbase
      refine ⟨h₁.tapeSize, hrange, h₁.cursor, fun o ho => ⟨(h₁.live o ho).1, ?_⟩⟩
      -- With the new base, the cell at `o` is where `o + distance` was, and this was visited.
      have hplace := halike.covers.2 hcovers (o + distance) (hplaces o (hcells ▸ ho))
      rwa [Int.add_comm o, ← Int.add_assoc] at hplace

/-- A negative size is refused, and there is nothing to be done for the size zero. -/
theorem sized (h : f.Addressable tapeSize) (resize : Int → Action Unit)
    (hneg : ∀ size < 0, resize size f = .error (.negativeCount size) f)
    (hzero : resize 0 f = .ok () f)
    (hpos : ∀ n : Nat, 0 < n → (stateAfter (resize n) f).Addressable tapeSize) (size : Int) :
    (stateAfter (resize size) f).Addressable tapeSize := by
  rcases Int.lt_or_le size 0 with hsize | hsize
  · rw [stateAfter_of_error (hneg size hsize)]
    exact h
  · obtain ⟨n, rfl⟩ := Int.eq_ofNat_of_zero_le hsize
    rcases Nat.eq_zero_or_pos n with rfl | hn
    · exact (stateAfter_of_ok hzero).symm ▸ h
    · exact hpos n hn

theorem growStack (h : f.Addressable tapeSize) (size : Int) :
    (stateAfter (growStack size) f).Addressable tapeSize := by
  refine h.sized Frame.growStack (fun size hneg => bind_of_error (naturalCount_of_neg hneg f))
    (growStack_zero f) (fun n hn => ?_) size
  have hrun : stateAfter (Frame.growStack n) f = stateAfter (do
      (do moveAll n f.cells.offsets.reverse; clearRange 0 n)
      emit (Emitter.rebase n)) f := by
    rw [stateAfter, growStack_of_pos hn, stateAfter, bind_assoc]
  rw [hrun]
  have hanchored := Anchored.compositional
  refine h.rebase (hanchored.bind (hanchored.moveAll _ _) fun _ => hanchored.clearRange _ _)
    ((Visits.moveAll (by omega) _).bind (Visits.clearRange 0 n)) fun o ho => ?_
  refine List.mem_append_left _ (List.mem_flatMap.2 ⟨o, List.mem_reverse.2 ho, ?_⟩)
  simp

theorem shrinkStack (h : f.Addressable tapeSize) (size : Int) :
    (stateAfter (shrinkStack size) f).Addressable tapeSize := by
  refine h.sized Frame.shrinkStack (fun size hneg => bind_of_error (naturalCount_of_neg hneg f))
    (shrinkStack_zero f) (fun n hn => ?_) size
  have hrun : stateAfter (Frame.shrinkStack n) f = stateAfter (do
      moveAll (-n) f.cells.offsets
      emit (Emitter.rebase (-n))) f := by
    rw [stateAfter, shrinkStack_of_pos hn, stateAfter]
  rw [hrun]
  refine h.rebase (Anchored.compositional.moveAll _ _) (.moveAll (by omega) _) fun o ho => ?_
  exact List.mem_flatMap.2 ⟨o, ho, by simp⟩

theorem invoke (h : f.Addressable tapeSize) (b : Builtin) (arguments : List Atom) :
    (stateAfter (invoke b arguments) f).Addressable tapeSize := by
  by_cases hb : b = .growStack ∨ b = .shrinkStack
  · rcases invoke_resize_cases hb arguments f with ⟨n, rfl⟩ | ⟨c, -, hc⟩
    · rcases hb with rfl | rfl
      · exact h.growStack n
      · exact h.shrinkStack n
    · rw [stateAfter_of_error hc]
      exact h
  · -- The base stays, and the occupied cells are restored also by a call that fails.
    refine h.of_anchored (Anchored.invoke (not_or.1 hb) arguments f) ?_
    cases hrun : Frame.invoke b arguments f with
    | ok _ f' =>
      rw [stateAfter_of_ok hrun]
      exact (restores_invoke b arguments).1 _ _ _ hrun
    | error c f' =>
      rw [stateAfter_of_error hrun]
      exact (restores_invoke b arguments).2 _ _ _ hrun

end Addressable

/-! ## Any number of operations -/

/-- What may be done to a frame. -/
inductive Operation where
  | allocate
  | free (offset : Int)
  | invoke (b : Builtin) (arguments : List Atom)

def Operation.action : Operation → EStateM CompileError Frame Unit
  | allocate => (fun _ => ()) <$> Frame.allocate
  | free offset => Frame.free offset
  | invoke b arguments => Frame.invoke b arguments

theorem Addressable.after {tapeSize : UInt64} {f : Frame} (h : f.Addressable tapeSize)
    (operation : Operation) : (stateAfter operation.action f).Addressable tapeSize := by
  cases operation with
  | allocate =>
    rw [Operation.action, stateAfter_map]
    exact h.allocate
  | free offset => exact h.free offset
  | invoke b arguments => exact h.invoke b arguments

/-- **Every live cell stays addressable.** Whatever is done to a new frame, in any order and whether
it succeeds or fails, the occupied cells have offsets from zero on and lie on the tape, the base
lies on the tape or at its end, and the cursor lies on the tape or is still at its start. So the
cursor can be moved to every live cell. -/
theorem live_cells_stay_addressable (tapeSize : UInt64) (hsize : tapeSize.toNat < 2 ^ 63)
    (operations : List Operation) (f : Frame)
    (hf : f = afterRequests Operation.action operations (.new tapeSize)) :
    (∀ o ∈ f.cells.offsets, 0 ≤ o ∧ 0 ≤ f.emitter.base + o ∧ f.emitter.base + o < tapeSize.toNat) ∧
    (0 ≤ f.emitter.base ∧ f.emitter.base ≤ tapeSize.toNat) ∧
    (f.emitter.cursor = 0 ∨ 0 ≤ f.emitter.cursor ∧ f.emitter.cursor < tapeSize.toNat) ∧
    ∀ o ∈ f.cells.offsets, ∃ e, Emitter.moveTo o f.emitter = .ok () e := by
  have h : f.Addressable tapeSize := by
    rw [hf]
    exact afterRequests_keeps (fun operation f h => h.after operation) operations
      (Addressable.of_new hsize)
  have hlimit : f.emitter.limit = tapeSize.toNat := Emitter.limit_eq_toNat h.tapeSize hsize
  have htape : ∀ p, f.emitter.onTape p = true ↔ 0 ≤ p ∧ p < tapeSize.toNat := fun p => by
    rw [Emitter.onTape_iff, hlimit]
  refine ⟨fun o ho => ?_, hlimit ▸ h.base, ?_, fun o ho => ?_⟩
  · exact ⟨(h.live o ho).1, (htape _).1 (h.live o ho).2⟩
  · exact h.cursor.imp_right (htape _).1
  · exact (Emitter.Visits.moveTo o).succeeds trivial (by simpa using (h.live o ho).2)

/-- Two cells go up by two, a resizing beyond the tape's end fails half way, the cells go down by
one, and one of them is freed. -/
theorem live_cells_stay_addressable_resized : ∃ f : Frame,
    f = afterRequests Operation.action [.allocate, .allocate, .invoke .growStack [.int 2],
      .invoke .growStack [.int 3], .invoke .shrinkStack [.int 1], .free 0] (.new 5) ∧
    f.cells.offsets = [1] ∧ f.emitter.base = 1 ∧ ∃ e, Emitter.moveTo 1 f.emitter = .ok () e := by
  obtain ⟨-, -, -, hmove⟩ := live_cells_stay_addressable 5 (by decide)
    [.allocate, .allocate, .invoke .growStack [.int 2], .invoke .growStack [.int 3],
      .invoke .shrinkStack [.int 1], .free 0] _ rfl
  exact ⟨_, rfl, by decide +kernel, by decide +kernel, hmove 1 (by decide +kernel)⟩

end Frame

end TapeToolchain
