import TapeToolchain.Proofs.Frame.Contracts
import TapeToolchain.Proofs.Frame.Visits

/-!
Resizing the frame. The occupied cells are moved one by one, in the order that keeps a moved value
from being written over one that is still to be moved: the highest first when the frame goes up, and
the lowest first when it goes down. Whether the places overlap does not matter then
(`moveAll_performs`).
-/

namespace TapeToolchain

namespace Memory

/-- The values at some positions are moved by a distance, all at once, and zeros are left behind. -/
def relocate (positions : List Int) (distance : Int) (m : Memory) : Memory :=
  { m with cells := fun p =>
      if p - distance ∈ positions then m.cells (p - distance)
      else if p ∈ positions then 0 else m.cells p }

/-- Sets the cells from one position up to another to zero. -/
def clearBetween (first last : Int) (m : Memory) : Memory :=
  { m with cells := fun p => if first ≤ p ∧ p < last then 0 else m.cells p }

@[simp] theorem cells_relocate (positions : List Int) (distance : Int) (m : Memory) (p : Int) :
    (m.relocate positions distance).cells p =
      if p - distance ∈ positions then m.cells (p - distance)
      else if p ∈ positions then 0 else m.cells p := rfl

@[simp] theorem cells_clearBetween (first last : Int) (m : Memory) (p : Int) :
    (m.clearBetween first last).cells p = if first ≤ p ∧ p < last then 0 else m.cells p := rfl

/-- The first value is moved before the others, if its new place is none of theirs. -/
theorem relocate_cons {a distance : Int} {rest : List Int} (hdistance : distance ≠ 0)
    (ha : a ∉ rest) (htarget : a + distance ∉ rest) (m : Memory) :
    ((m.set (a + distance) (m.cells a)).set a 0).relocate rest distance =
      m.relocate (a :: rest) distance := by
  refine ext_cells (fun p => ?_) rfl rfl
  simp only [cells_relocate, cells_set, List.mem_cons]
  by_cases hmoved : p - distance ∈ rest
  · have hne : p - distance ≠ a := fun heq => ha (heq ▸ hmoved)
    have hne' : p - distance ≠ a + distance := fun heq => htarget (heq ▸ hmoved)
    simp [hmoved, hne, hne']
  by_cases hfirst : p - distance = a
  · obtain rfl : p = a + distance := by omega
    have hne : a + distance ≠ a := by omega
    simp [ha, htarget, hne]
  have hp : p ≠ a + distance := by omega
  by_cases hrest : p ∈ rest
  · simp [hmoved, hfirst, hrest]
  by_cases hpa : p = a
  · subst hpa
    simp [hmoved, hfirst, ha]
  · simp [hmoved, hfirst, hrest, hpa, hp]

theorem clearBetween_of_le {first last : Int} (hle : last ≤ first) (m : Memory) :
    m.clearBetween first last = m := by
  refine ext_cells (fun p => ?_) rfl rfl
  have hnone : ¬ (first ≤ p ∧ p < last) := by omega
  simp [hnone]

theorem clearBetween_succ {first last : Int} (hle : first < last) (m : Memory) :
    (m.set first 0).clearBetween (first + 1) last = m.clearBetween first last := by
  refine ext_cells (fun p => ?_) rfl rfl
  simp only [cells_clearBetween, cells_set]
  by_cases hp : p = first
  · simp [hp, hle]
  · have hiff : (first + 1 ≤ p ∧ p < last) ↔ (first ≤ p ∧ p < last) := by omega
    simp only [hp, hiff, if_false]

end Memory

namespace Frame

/-- Moving cells by a distance relocates them if none is moved to the place of a later one. -/
theorem moveAll_performs {distance : Int} {offsets : List Int}
    (horder : offsets.Pairwise fun a b => a ≠ b ∧ a + distance ≠ b) {f f' : Frame}
    (h : moveAll distance offsets f = .ok () f') :
    f.Performs f' (Memory.relocate (offsets.map f.position) distance) := by
  induction offsets generalizing f with
  | nil =>
    cases h
    refine (Emitter.Performs.refl _).congr fun m => Memory.ext_cells (fun p => ?_) rfl rfl
    simp
  | cons a rest ih =>
    obtain ⟨hfirst, hrest⟩ := List.pairwise_cons.1 horder
    obtain ⟨_, g, hmove, hmoves⟩ := bind_eq_ok.1 h
    obtain ⟨hne, hmoved⟩ := move_performs hmove
    have hmoved' := ih hrest hmoves
    rw [hmoved.position] at hmoved'
    refine (hmoved.trans hmoved').congr fun m => ?_
    have htarget : f.position (a + distance) = f.position a + distance := by
      simp only [position]
      omega
    rw [htarget, List.map_cons, Memory.relocate_cons (by omega)]
    · intro hmem
      obtain ⟨b, hb, heq⟩ := List.mem_map.1 hmem
      exact (hfirst b hb).1 (position_inj.1 heq).symm
    · intro hmem
      obtain ⟨b, hb, heq⟩ := List.mem_map.1 hmem
      rw [← htarget] at heq
      exact (hfirst b hb).2 (position_inj.1 heq).symm

theorem clearRange_performs {first : Int} {count : Nat} {f f' : Frame}
    (h : clearRange first count f = .ok () f') :
    f.Performs f' (Memory.clearBetween (f.position first) (f.position first + count)) := by
  induction count generalizing first f with
  | zero =>
    cases h
    exact (Emitter.Performs.refl _).congr fun m => (m.clearBetween_of_le (by simp)).symm
  | succ count ih =>
    obtain ⟨_, g, hclear, hrest⟩ := bind_eq_ok.1 h
    have hcleared := clear_performs hclear
    have hcleared' := ih hrest
    rw [hcleared.position] at hcleared'
    refine (hcleared.trans hcleared').congr fun m => ?_
    have hnext : f.position (first + 1) = f.position first + 1 := by
      simp only [position]
      omega
    have hlast : f.position first + 1 + (count : Int) = f.position first + (count + 1 : Nat) := by
      push_cast
      omega
    rw [hnext, hlast, Memory.clearBetween_succ (by omega)]

/-! ## Growing and shrinking -/

def rebased (f : Frame) (distance : Int) : Frame :=
  { f with emitter := { f.emitter with base := f.emitter.base + distance } }

theorem covers_rebased {f : Frame} {distance : Int} {offsets : List Int} :
    (f.rebased distance).emitter.Covers offsets ↔
      f.emitter.Covers (offsets.map (· + distance)) := by
  simp only [Emitter.Covers, List.forall_mem_map]
  refine forall₂_congr fun o _ => ?_
  rw [Int.add_comm o, ← Int.add_assoc]
  exact Iff.rfl

theorem emit_rebase_iff {distance : Int} {f g : Frame} :
    emit (Emitter.rebase distance) f = .ok () g ↔ g = f.rebased distance ∧
      0 ≤ f.emitter.base + distance ∧ f.emitter.base + distance ≤ f.emitter.limit := by
  simp only [emit, Emitter.rebase]
  split
  · next hrange =>
    split at hrange
    · next h => cases hrange; simp [rebased, h, eq_comm]
    · cases hrange
  · next hrange =>
    split at hrange
    · cases hrange
    · next h => simp [h]

theorem growStack_zero (f : Frame) : growStack 0 f = .ok () f := rfl

theorem shrinkStack_zero (f : Frame) : shrinkStack 0 f = .ok () f := rfl

theorem growStack_of_pos {n : Nat} (hn : 0 < n) (f : Frame) :
    growStack n f = (do
      moveAll n f.cells.offsets.reverse
      clearRange 0 n
      emit (Emitter.rebase n)) f := by
  have hcount : naturalCount n f = .ok n f := rfl
  rw [growStack, bind_of_ok hcount, if_neg (by omega)]
  rfl

theorem shrinkStack_of_pos {n : Nat} (hn : 0 < n) (f : Frame) :
    shrinkStack n f = (do
      moveAll (-n) f.cells.offsets
      emit (Emitter.rebase (-n))) f := by
  have hcount : naturalCount n f = .ok n f := rfl
  rw [shrinkStack, bind_of_ok hcount, if_neg (by omega)]
  rfl

/-- A frame whose base was moved by a distance. Every occupied cell has its value at its new place,
and the cells that the base went up past are zero; apart from these and the old places nothing is
changed. -/
structure Relocates (f g : Frame) (distance : Int) : Prop where
  base : g.emitter.base = f.emitter.base + distance
  occupied : g.cells = f.cells
  run : ∀ m, ∃ m', f.Transforms g m m' ∧ m'.input = m.input ∧ m'.output = m.output ∧
    (∀ o ∈ f.cells.offsets, m'.cells (g.position o) = m.cells (f.position o)) ∧
    (∀ p, f.emitter.base ≤ p → p < g.emitter.base → m'.cells p = 0) ∧
    ∀ p, ¬ (f.emitter.base ≤ p ∧ p < g.emitter.base) →
      (∀ o ∈ f.cells.offsets, p ≠ f.position o ∧ p ≠ g.position o) → m'.cells p = m.cells p

theorem Relocates.refl (f : Frame) : f.Relocates f 0 where
  base := by simp
  occupied := rfl
  run m := by
    refine ⟨m, ⟨[], by simp, .nil _ m⟩, rfl, rfl, fun _ _ => rfl, fun p h h' => ?_,
      fun _ _ _ => rfl⟩
    omega

theorem Performs.relocates {f f₁ : Frame} {distance : Int} {offsets : List Int}
    (hmem : ∀ o, o ∈ offsets ↔ o ∈ f.cells.offsets) (hnonneg : ∀ o ∈ f.cells.offsets, 0 ≤ o)
    (hcells : f₁.cells = f.cells)
    (h : f.Performs f₁ fun m => (m.relocate (offsets.map f.position) distance).clearBetween
      f.emitter.base (f.emitter.base + distance)) :
    f.Relocates (f₁.rebased distance) distance := by
  have hbase : (f₁.rebased distance).emitter.base = f.emitter.base + distance := by
    rw [rebased, h.base]
  have hposition : ∀ o, (f₁.rebased distance).position o = f.position o + distance := fun o => by
    rw [Frame.position, hbase, Frame.position]
    omega
  refine ⟨hbase, hcells, fun m => ⟨_, h.runs m, rfl, rfl, fun o ho => ?_, fun p hp hp' => ?_,
    fun p hp hp' => ?_⟩⟩
  · have habove : ¬ (f.emitter.base ≤ f.position o + distance ∧
        f.position o + distance < f.emitter.base + distance) := by
      have := hnonneg o ho
      simp only [Frame.position]
      omega
    rw [hposition, Memory.cells_clearBetween, if_neg habove]
    simp [hmem, ho]
  · rw [hbase] at hp'
    simp [hp, hp']
  · rw [hbase] at hp
    have hold : ∀ x ∈ offsets, f.position x ≠ p :=
      fun x hx heq => (hp' x ((hmem x).1 hx)).1 heq.symm
    have hnew : ∀ x ∈ offsets, f.position x ≠ p - distance := fun x hx heq =>
      (hp' x ((hmem x).1 hx)).2 (by rw [hposition, heq]; omega)
    simp only [Memory.cells_clearBetween, if_neg hp, Memory.cells_relocate]
    rw [if_neg (by simpa using hnew), if_neg (by simpa using hold)]

theorem growStack_relocates {n : Nat} {f g : Frame} (hnonneg : ∀ o ∈ f.cells.offsets, 0 ≤ o)
    (h : growStack n f = .ok () g) : f.Relocates g n := by
  rcases Nat.eq_zero_or_pos n with rfl | hn
  · cases (growStack_zero f).symm.trans h
    exact .refl f
  rw [growStack_of_pos hn] at h
  obtain ⟨_, f₁, hmove, h⟩ := bind_eq_ok.1 h
  obtain ⟨_, f₂, hclear, hrebase⟩ := bind_eq_ok.1 h
  obtain ⟨rfl, -⟩ := emit_rebase_iff.1 hrebase
  have hcells : f₂.cells = f.cells := ((restores_compositional.clearRange 0 n).1 _ _ _ hclear).trans
    ((restores_compositional.moveAll n _).1 _ _ _ hmove)
  -- the highest cell is moved first, to a place above all that are still to be moved
  have horder : f.cells.offsets.reverse.Pairwise fun a b => a ≠ b ∧ a + (n : Int) ≠ b :=
    List.pairwise_reverse.2 (f.cells.ascending.imp fun hlt => by omega)
  have hmoved := moveAll_performs horder hmove
  have hcleared := clearRange_performs hclear
  rw [hmoved.position] at hcleared
  refine Performs.relocates (fun o => List.mem_reverse) hnonneg hcells
    ((hmoved.trans hcleared).congr fun m => ?_)
  simp [position]

theorem shrinkStack_relocates {n : Nat} {f g : Frame} (hnonneg : ∀ o ∈ f.cells.offsets, 0 ≤ o)
    (h : shrinkStack n f = .ok () g) : f.Relocates g (-n) := by
  rcases Nat.eq_zero_or_pos n with rfl | hn
  · cases (shrinkStack_zero f).symm.trans h
    exact .refl f
  rw [shrinkStack_of_pos hn] at h
  obtain ⟨_, f₁, hmove, hrebase⟩ := bind_eq_ok.1 h
  obtain ⟨rfl, -⟩ := emit_rebase_iff.1 hrebase
  have horder : f.cells.offsets.Pairwise fun a b => a ≠ b ∧ a + -(n : Int) ≠ b :=
    f.cells.ascending.imp fun hlt => by omega
  refine Performs.relocates (fun o => Iff.rfl) hnonneg
    ((restores_compositional.moveAll (-n) _).1 _ _ _ hmove)
    ((moveAll_performs horder hmove).congr fun m => ?_)
  rw [Memory.clearBetween_of_le (by omega)]

/-- What growing has checked is what shrinking needs. -/
theorem shrinkStack_succeeds {n : Nat} {f g : Frame} (h : growStack n f = .ok () g) :
    ∃ f', shrinkStack n g = .ok () f' := by
  rcases Nat.eq_zero_or_pos n with rfl | hn
  · exact ⟨g, shrinkStack_zero g⟩
  rw [growStack_of_pos hn] at h
  obtain ⟨_, f₁, hmove, h⟩ := bind_eq_ok.1 h
  obtain ⟨_, f₂, hclear, hrebase⟩ := bind_eq_ok.1 h
  obtain ⟨rfl, -, hlimit⟩ := emit_rebase_iff.1 hrebase
  obtain ⟨hcovers, halike, hcells⟩ := (Visits.moveAll (by omega) _).ok rfl hmove
  obtain ⟨hcovers', halike', hcells'⟩ := (Visits.clearRange 0 n).ok rfl hclear
  replace hcovers := (halike.trans halike').covers.2 hcovers
  -- the cell at the old base is on the tape, since it was cleared
  have hzero : 0 ≤ f₂.emitter.base ∧ f₂.emitter.base < f₂.emitter.limit := by
    have hbase := halike'.covers.2 hcovers' 0 (List.mem_map.2 ⟨0, List.mem_range.2 hn, rfl⟩)
    simpa [Emitter.onTape] using hbase
  obtain ⟨f₃, hdown⟩ : ∃ f₃, moveAll (-n) f.cells.offsets (f₂.rebased n) = .ok () f₃ := by
    refine (Visits.moveAll (by omega) _).succeeds rfl (covers_rebased.2 fun p hp => hcovers p ?_)
    obtain ⟨q, hq, rfl⟩ := List.mem_map.1 hp
    obtain ⟨o, ho, hmem⟩ := List.mem_flatMap.1 hq
    refine List.mem_flatMap.2 ⟨o, List.mem_reverse.2 ho, ?_⟩
    rcases List.mem_pair.1 hmem with rfl | rfl
    · simp
    · simp
  obtain ⟨-, halike₃, -⟩ := (Visits.moveAll (by omega) _).ok rfl hdown
  have hback : emit (Emitter.rebase (-n)) f₃ = .ok () (f₃.rebased (-n)) := by
    refine emit_rebase_iff.2 ⟨rfl, ?_⟩
    rw [halike₃.limit, halike₃.base]
    simp only [rebased, Emitter.limit] at hzero ⊢
    omega
  refine ⟨f₃.rebased (-n), ?_⟩
  rw [shrinkStack_of_pos hn, show (f₂.rebased n).cells = f.cells from hcells'.trans hcells]
  exact bind_eq_ok.2 ⟨(), f₃, hdown, hback⟩

/-- Resizing the frame loses nothing. Growing and shrinking relocate the occupied cells, and a frame
that has grown can be shrunk again at once, which brings every occupied cell back. -/
theorem resizing_relocates_occupied_cells (f : Frame) (hnonneg : ∀ o ∈ f.cells.offsets, 0 ≤ o)
    (n : Nat) :
    (∀ g, growStack n f = .ok () g → f.Relocates g n) ∧
    (∀ g, shrinkStack n f = .ok () g → f.Relocates g (-n)) ∧
    ∀ g, growStack n f = .ok () g → ∃ f', shrinkStack n g = .ok () f' ∧
      f'.emitter.base = f.emitter.base ∧ f'.cells = f.cells ∧
      ∀ m, ∃ m' m'', f.Transforms g m m' ∧ g.Transforms f' m' m'' ∧ f.Transforms f' m m'' ∧
        ∀ o ∈ f.cells.offsets, m''.cells (f.position o) = m.cells (f.position o) := by
  refine ⟨fun g h => growStack_relocates hnonneg h, fun g h => shrinkStack_relocates hnonneg h,
    fun g h => ?_⟩
  obtain ⟨f', hf'⟩ := shrinkStack_succeeds h
  have hup := growStack_relocates hnonneg h
  have hdown := shrinkStack_relocates (by rw [hup.occupied]; exact hnonneg) hf'
  have hbase : f'.emitter.base = f.emitter.base := by
    rw [hdown.base, hup.base]
    omega
  refine ⟨f', hf', hbase, hdown.occupied.trans hup.occupied, fun m => ?_⟩
  obtain ⟨m', hrun, -, -, hmoved, -⟩ := hup.run m
  obtain ⟨m'', hrun', -, -, hmoved', -⟩ := hdown.run m'
  refine ⟨m', m'', hrun, hrun', hrun.trans hrun', fun o ho => ?_⟩
  have hposition : f'.position o = f.position o := by rw [position, hbase, position]
  calc m''.cells (f.position o) = m''.cells (f'.position o) := by rw [hposition]
    _ = m'.cells (g.position o) := hmoved' o (hup.occupied ▸ ho)
    _ = m.cells (f.position o) := hmoved o ho

/-- Two cells side by side and one apart are moved by two cells, so that places overlap. -/
theorem resizing_relocates_occupied_cells_overlapping : ∃ f g f' : Frame,
    f.cells.offsets = [0, 1, 3] ∧ growStack 2 f = .ok () g ∧ f.Relocates g 2 ∧
    shrinkStack 2 g = .ok () f' ∧ f'.emitter.base = f.emitter.base := by
  obtain ⟨hgrow, -, hback⟩ := resizing_relocates_occupied_cells ⟨.new 6, ⟨[0, 1, 3], by decide⟩⟩
    (by decide) 2
  obtain ⟨g, hg⟩ := exists_eq_ok_of_run' (x := growStack 2)
    (s := ⟨.new 6, ⟨[0, 1, 3], by decide⟩⟩) (a := ()) (by decide +kernel)
  obtain ⟨f', hf', hbase, -⟩ := hback g hg
  exact ⟨_, g, f', rfl, hg, hgrow g hg, hf', hbase⟩

end Frame

end TapeToolchain
