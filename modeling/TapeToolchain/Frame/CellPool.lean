/-!
The occupied cells of a frame, by their offsets from the frame's base. Allocation takes the least
non-negative offset that is free. The offsets are kept in ascending order.
-/

namespace TapeToolchain

/-- Puts an offset in its place among ascending ones, once. -/
def insertOffset (o : Int) : List Int → List Int
  | [] => [o]
  | x :: xs => if o < x then o :: x :: xs else if o = x then x :: xs else x :: insertOffset o xs

theorem mem_insertOffset {a o : Int} {xs : List Int} : a ∈ insertOffset o xs ↔ a = o ∨ a ∈ xs := by
  induction xs with
  | nil => simp [insertOffset]
  | cons x xs ih => grind [insertOffset]

theorem pairwise_insertOffset {o : Int} {xs : List Int} (h : xs.Pairwise (· < ·)) :
    (insertOffset o xs).Pairwise (· < ·) := by
  induction xs with
  | nil => simp [insertOffset]
  | cons x xs ih =>
    rw [List.pairwise_cons] at h
    unfold insertOffset
    split
    · simp only [List.pairwise_cons]
      grind
    · split
      · simpa [List.pairwise_cons] using h
      · rw [List.pairwise_cons]
        refine ⟨fun a ha => ?_, ih h.2⟩
        rcases mem_insertOffset.1 ha with rfl | ha
        · omega
        · exact h.1 a ha

/-- The least offset from `candidate` on that is not among the ascending ones. -/
def leastFreeFrom (candidate : Int) : List Int → Int
  | [] => candidate
  | o :: rest =>
    if o < candidate then leastFreeFrom candidate rest
    else if o = candidate then leastFreeFrom (candidate + 1) rest
    else candidate

/-- A set of occupied offsets. -/
structure CellPool where
  offsets : List Int
  ascending : offsets.Pairwise (· < ·)

namespace CellPool

def empty : CellPool :=
  ⟨[], .nil⟩

def contains (p : CellPool) (o : Int) : Bool :=
  p.offsets.contains o

def size (p : CellPool) : Nat :=
  p.offsets.length

def insert (p : CellPool) (o : Int) : CellPool :=
  ⟨insertOffset o p.offsets, pairwise_insertOffset p.ascending⟩

def erase (p : CellPool) (o : Int) : CellPool :=
  ⟨p.offsets.erase o, p.ascending.sublist List.erase_sublist⟩

/-- The least non-negative offset that is free. -/
def leastFree (p : CellPool) : Int :=
  leastFreeFrom 0 p.offsets

/-- Occupies the least non-negative free offset. -/
def allocate (p : CellPool) : Int × CellPool :=
  (p.leastFree, p.insert p.leastFree)

/-- Gives up an occupied offset; nothing when it is free already. -/
def free? (p : CellPool) (o : Int) : Option CellPool :=
  if p.contains o then some (p.erase o) else none

/-- Occupies an offset and says whether it was free. -/
def reserve (p : CellPool) (o : Int) : Bool × CellPool :=
  (!p.contains o, p.insert o)

/-- Occupies offsets from left to right and lists those that were free. -/
def reserveAll (p : CellPool) : List Int → List Int × CellPool
  | [] => ([], p)
  | o :: rest =>
    let (fresh, p) := p.reserve o
    let (others, p) := reserveAll p rest
    (if fresh then o :: others else others, p)

end CellPool

end TapeToolchain
