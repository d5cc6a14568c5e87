import TapeToolchain.Proofs.Frame.Guards
import Mathlib.Data.Finset.Card
import Mathlib.Data.Nat.Find

/-!
Cells are taken first fit. What a pool should answer is said by a finite set of integers, in which
the search for a free cell goes through all numbers from zero on. The search ends, since not all
numbers up to the size of the set can be members; so it finds a cell that is not above the number of
cells in use (`exists_le_card_notMem`). A pool walks along its ascending offsets instead and finds
the same cell (`Holds.leastFree_eq`). Requests to a pool are answered like requests to the set, and
a cell that is given back at once leaves no trace (`allocation_is_first_fit_and_reversible`).
-/

namespace TapeToolchain

/-! ## Requests to a pool -/

inductive PoolCall where
  | allocate
  | free (o : Int)
  | reserve (o : Int)

/-- What a request to a pool gives if it does not fail: the cell that is taken, or whether a
reserved one was free. -/
inductive PoolAnswer where
  | cell (o : Int)
  | freed
  | reserved (fresh : Bool)
deriving DecidableEq

namespace PoolCall

def onPool : PoolCall → EStateM CompileError CellPool PoolAnswer
  | allocate => fun p => .ok (.cell p.allocate.1) p.allocate.2
  | free o => fun p =>
    match p.free? o with
    | some q => .ok .freed q
    | none => .error (.notAllocated o) p
  | reserve o => fun p => .ok (.reserved (p.reserve o).1) (p.reserve o).2

theorem onPool_allocate (p : CellPool) :
    onPool allocate p = .ok (.cell p.leastFree) (p.insert p.leastFree) :=
  rfl

theorem onPool_free_of_mem {p : CellPool} {o : Int} (ho : o ∈ p.offsets) :
    onPool (free o) p = .ok .freed (p.erase o) := by
  have hc : p.contains o = true := CellPool.contains_iff.2 ho
  simp only [onPool, CellPool.free?, hc, if_true]

theorem onPool_free_of_notMem {p : CellPool} {o : Int} (ho : o ∉ p.offsets) :
    onPool (free o) p = .error (.notAllocated o) p := by
  have hc : ¬ p.contains o = true := fun hc => ho (CellPool.contains_iff.1 hc)
  simp only [onPool, CellPool.free?, hc]
  rfl

/-! ## A set of integers -/

/-- Not all numbers from zero up to the number of non-negative members are members. -/
theorem exists_le_card_notMem (s : Finset Int) :
    ∃ n : Nat, n ≤ (s.filter (0 ≤ ·)).card ∧ (n : Int) ∉ s := by
  by_contra hall
  push Not at hall
  have hsubset : (Finset.range ((s.filter (0 ≤ ·)).card + 1)).image Int.ofNat ⊆
      s.filter (0 ≤ ·) := by
    intro o ho
    obtain ⟨n, hn, rfl⟩ := Finset.mem_image.1 ho
    have hle := Nat.lt_succ_iff.1 (Finset.mem_range.1 hn)
    exact Finset.mem_filter.2 ⟨hall n hle, Int.natCast_nonneg n⟩
  have hcard := Finset.card_le_card hsubset
  rw [Finset.card_image_of_injective _ (fun _ _ => Int.ofNat.inj), Finset.card_range] at hcard
  omega

theorem exists_notMem (s : Finset Int) : ∃ n : Nat, (n : Int) ∉ s := by
  obtain ⟨n, -, hn⟩ := exists_le_card_notMem s
  exact ⟨n, hn⟩

/-- The first number from zero on that is not in the set. -/
def firstOutside (s : Finset Int) : Nat :=
  Nat.find (exists_notMem s)

theorem firstOutside_le_card (s : Finset Int) : firstOutside s ≤ (s.filter (0 ≤ ·)).card := by
  obtain ⟨n, hle, hn⟩ := exists_le_card_notMem s
  exact (Nat.find_min' (exists_notMem s) hn).trans hle

theorem isLeast_firstOutside (s : Finset Int) :
    IsLeast {o : Int | 0 ≤ o ∧ o ∉ s} (firstOutside s) := by
  refine ⟨⟨Int.natCast_nonneg _, Nat.find_spec (exists_notMem s)⟩, ?_⟩
  rintro o ⟨hnonneg, ho⟩
  obtain ⟨n, rfl⟩ := Int.eq_ofNat_of_zero_le hnonneg
  exact_mod_cast Nat.find_min' (exists_notMem s) ho

/-- Requests to a set of integers. -/
def onSet : PoolCall → EStateM CompileError (Finset Int) PoolAnswer
  | allocate => fun s => .ok (.cell (firstOutside s)) (insert (firstOutside s : Int) s)
  | free o => fun s => if o ∈ s then .ok .freed (s.erase o) else .error (.notAllocated o) s
  | reserve o => fun s => .ok (.reserved (o ∉ s)) (insert o s)

/-! ## A pool is the set of its offsets -/

/-- The offsets of the pool are the members of the set. -/
def Holds (p : CellPool) (s : Finset Int) : Prop :=
  ∀ o, o ∈ p.offsets ↔ o ∈ s

namespace Holds

variable {p : CellPool} {s : Finset Int}

theorem toFinset (p : CellPool) : Holds p p.offsets.toFinset :=
  fun _ => List.mem_toFinset.symm

theorem leastFree_eq (h : Holds p s) : p.leastFree = firstOutside s := by
  have hleast := p.isLeast_leastFree
  simp only [h _] at hleast
  exact hleast.unique (isLeast_firstOutside s)

theorem size_eq_card (h : Holds p s) : p.size = s.card := by
  have hset : p.offsets.toFinset = s := by
    ext o
    rw [List.mem_toFinset, h o]
  rw [CellPool.size, ← hset, List.toFinset_card_of_nodup p.nodup]

theorem insert (h : Holds p s) (o : Int) : Holds (p.insert o) (insert o s) := by
  intro a
  rw [CellPool.mem_insert, Finset.mem_insert, h a]

/-- A request to a pool is answered like the request to the set, and leaves the pool of the set that
is left. -/
theorem request (call : PoolCall) (h : Holds p s) :
    SameOutcome Holds (call.onPool p) (call.onSet s) := by
  cases call with
  | allocate =>
    have hset : onSet allocate s = .ok (.cell p.leastFree) (Insert.insert p.leastFree s) := by
      rw [onSet, h.leastFree_eq]
    rw [onPool_allocate, hset]
    exact .ok (h.insert _)
  | free o =>
    by_cases ho : o ∈ p.offsets
    · have hset : onSet (free o) s = .ok .freed (s.erase o) := if_pos ((h o).1 ho)
      rw [onPool_free_of_mem ho, hset]
      refine .ok fun a => ?_
      rw [CellPool.mem_erase, Finset.mem_erase, h a]
    · have hset : onSet (free o) s = .error (.notAllocated o) s :=
        if_neg fun hs => ho ((h o).2 hs)
      rw [onPool_free_of_notMem ho, hset]
      exact .error h
  | reserve o =>
    have hfresh : (!p.contains o) = decide (o ∉ s) := by
      rw [Bool.eq_iff_iff, Bool.not_eq_true', decide_eq_true_iff, ← h o, ← CellPool.contains_iff,
        Bool.not_eq_true]
    have hpool : onPool (reserve o) p = .ok (.reserved (o ∉ s)) (p.insert o) := by
      rw [← hfresh]
      rfl
    rw [hpool]
    exact .ok (h.insert o)

theorem requests (h : Holds p s) (calls : List PoolCall) :
    answersTo onPool calls p = answersTo onSet calls s ∧
      Holds (afterRequests onPool calls p) (afterRequests onSet calls s) :=
  SameOutcome.requests (fun call _ _ h => request call h) calls h

end Holds

/-! ## Taking cells and giving them back -/

variable (p : CellPool)

/-- The cell that is taken is not above the number of cells in use from zero on. -/
theorem leastFree_le_length : p.leastFree ≤ (p.offsets.filter (0 ≤ ·)).length := by
  have hcard : (p.offsets.toFinset.filter (0 ≤ ·)).card = (p.offsets.filter (0 ≤ ·)).length := by
    rw [← List.toFinset_card_of_nodup (p.nodup.filter _), List.toFinset_filter]
    simp only [decide_eq_true_eq]
  have hle := firstOutside_le_card p.offsets.toFinset
  rw [hcard] at hle
  rw [(Holds.toFinset p).leastFree_eq]
  exact_mod_cast hle

/-- A cell that is given back at once leaves the pool as it was. -/
theorem onPool_free_leastFree : onPool (free p.leastFree) p.allocate.2 = .ok .freed p := by
  have hmem : p.leastFree ∈ p.allocate.2.offsets := CellPool.mem_insert.2 (Or.inl rfl)
  rw [onPool_free_of_mem hmem, CellPool.allocate, CellPool.erase_insert_leastFree]

/-- Cells that are taken one after the other go up, and none of them was in use. -/
theorem answersTo_allocate (m : Nat) :
    ∃ cells : List Int, answersTo onPool (List.replicate m allocate) p =
      cells.map (fun o => .ok (.cell o)) ∧
      cells.length = m ∧ cells.Pairwise (· < ·) ∧ (∀ o ∈ cells, 0 ≤ o ∧ o ∉ p.offsets) ∧
      ∀ o, o ∈ (afterRequests onPool (List.replicate m allocate) p).offsets ↔ o ∈ cells ∨
        o ∈ p.offsets := by
  induction m generalizing p with
  | zero => exact ⟨[], rfl, rfl, .nil, by simp, by simp [afterRequests]⟩
  | succ m ih =>
    obtain ⟨cells, hanswers, hlength, hascending, hfree, hafter⟩ := ih p.allocate.2
    have hmem : ∀ o, o ∈ p.allocate.2.offsets ↔ o = p.leastFree ∨ o ∈ p.offsets :=
      fun o => CellPool.mem_insert
    simp only [hmem, not_or] at hfree hafter
    refine ⟨p.leastFree :: cells, ?_, by rw [List.length_cons, hlength], ?_, ?_, ?_⟩
    · rw [List.replicate_succ, List.map_cons, ← hanswers]
      rfl
    · -- the later cells were free already when the first was the least one
      refine List.pairwise_cons.2 ⟨fun o ho => ?_, hascending⟩
      obtain ⟨hnonneg, hne, hnot⟩ := hfree o ho
      have hle := CellPool.leastFree_le hnonneg hnot
      omega
    · intro o ho
      rcases List.mem_cons.1 ho with rfl | ho
      · exact ⟨p.leastFree_nonneg, p.leastFree_notMem⟩
      · exact ⟨(hfree o ho).1, (hfree o ho).2.2⟩
    · intro o
      rw [List.replicate_succ, List.mem_cons]
      exact (hafter o).trans (by tauto)

/-- **Allocation is first fit and can be undone.** Make any requests to a pool that starts empty,
and go on when some fail. All answers are those of a set of integers, and the pool lists the members
of this set in strictly ascending order, as many as it says. Then the cell that is taken next is the
least one from zero on that is not in use; it is not above the number of cells in use from zero on,
it is the only one that is taken, and giving it back leaves the pool as it was. To give back a cell
fails if it is not in use, and only then, and changes nothing. Cells that are taken one after the
other go strictly up, none of them was in use, and no others are taken. -/
theorem allocation_is_first_fit_and_reversible (calls : List PoolCall) {p : CellPool}
    (hp : afterRequests onPool calls .empty = p) :
    (answersTo onPool calls .empty = answersTo onSet calls ∅ ∧
      (∀ a, a ∈ p.offsets ↔ a ∈ afterRequests onSet calls ∅) ∧ p.offsets.Pairwise (· < ·) ∧
      p.size = (afterRequests onSet calls ∅).card) ∧
    (∃ o q, onPool allocate p = .ok (.cell o) q ∧ IsLeast {a | 0 ≤ a ∧ a ∉ p.offsets} o ∧
      o ≤ (p.offsets.filter (0 ≤ ·)).length ∧ (∀ a, a ∈ q.offsets ↔ a = o ∨ a ∈ p.offsets) ∧
      onPool (free o) q = .ok .freed p) ∧
    (∀ o, (o ∉ p.offsets ↔ ∃ c q, onPool (free o) p = .error c q) ∧
      ∀ c q, onPool (free o) p = .error c q → c = .notAllocated o ∧ q = p) ∧
    ∀ m, ∃ cells : List Int,
      answersTo onPool (List.replicate m allocate) p = cells.map (fun o => .ok (.cell o)) ∧
      cells.length = m ∧ cells.Pairwise (· < ·) ∧ (∀ o ∈ cells, 0 ≤ o ∧ o ∉ p.offsets) ∧
      ∀ o, o ∈ (afterRequests onPool (List.replicate m allocate) p).offsets ↔ o ∈ cells ∨
        o ∈ p.offsets := by
  obtain ⟨hanswers, hholds⟩ :=
    Holds.requests (p := .empty) (s := ∅) (by simp [Holds, CellPool.empty]) calls
  rw [hp] at hholds
  refine ⟨⟨hanswers, hholds, p.ascending, hholds.size_eq_card⟩, ?_, fun o => ?_,
    answersTo_allocate p⟩
  · exact ⟨p.leastFree, p.allocate.2, rfl, p.isLeast_leastFree, leastFree_le_length p,
      fun a => CellPool.mem_insert, onPool_free_leastFree p⟩
  · by_cases ho : o ∈ p.offsets
    · simp [onPool_free_of_mem ho, ho]
    · simp [onPool_free_of_notMem ho, ho, eq_comm]

/-- Cells below zero, gaps, a cell that is reserved twice and one that cannot be given back. -/
theorem allocation_is_first_fit_and_reversible_gaps : ∃ p : CellPool,
    afterRequests onPool [reserve (-3), allocate, reserve 2, free 5, allocate, allocate, reserve 2,
      free 1] .empty = p ∧
    p.offsets = [-3, 0, 2, 3] ∧
    answersTo onSet [reserve (-3), allocate, reserve 2, free 5, allocate, allocate, reserve 2,
      free 1] ∅ =
      [.ok (.reserved true), .ok (.cell 0), .ok (.reserved true), .error (.notAllocated 5),
        .ok (.cell 1), .ok (.cell 3), .ok (.reserved false), .ok .freed] ∧
    (∃ q, onPool allocate p = .ok (.cell 1) q ∧ onPool (free 1) q = .ok .freed p) ∧
    answersTo onPool [allocate, allocate, allocate] p =
      [.ok (.cell 1), .ok (.cell 4), .ok (.cell 5)] := by
  obtain ⟨⟨hanswers, -⟩, ⟨o, q, htaken, -, -, -, hback⟩, -⟩ :=
    allocation_is_first_fit_and_reversible
    [reserve (-3), allocate, reserve 2, free 5, allocate, allocate, reserve 2, free 1] rfl
  refine ⟨_, rfl, rfl, hanswers.symm.trans rfl, ⟨q, ?_⟩, rfl⟩
  obtain rfl : o = 1 := by
    have hfirst := (answerOf_of_ok htaken).symm
    exact PoolAnswer.cell.inj (Except.ok.inj hfirst)
  exact ⟨htaken, hback⟩

end PoolCall

end TapeToolchain
