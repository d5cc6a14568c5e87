import TapeToolchain.Proofs.Emission.OnTape
import TapeToolchain.Proofs.Frame.Room
import Mathlib.Order.Bounds.Basic

/-!
Which calls succeed. A built-in on cells looks at its operands before it writes anything: at the
sign of a constant, at cells that must differ, and at the first scratch cell, which must not be an
operand. If it refuses them, the frame is as it was; if it does not, it can only fail at the end of
the tape (`Guarded`). The scratch cells of the operations inside are none of the cells in use, so
that these operations refuse nothing. A call succeeds exactly if its operands are not refused and
all cells that it goes to lie on the tape (`cell_calls_succeed_iff`).
-/

namespace TapeToolchain

namespace CellPool

theorem isLeast_leastFree (p : CellPool) : IsLeast {o | 0 ≤ o ∧ o ∉ p.offsets} p.leastFree :=
  ⟨⟨p.leastFree_nonneg, p.leastFree_notMem⟩, fun _ ho => leastFree_le ho.1 ho.2⟩

/-- Cells for intermediate values, taken one after the other. Each is the least one that is not in
use; the first is taken before the operands are looked at, the others are none of these. -/
structure Temporaries (p : CellPool) (operands : List Int) (t₁ t₂ t₃ : Int) : Prop where
  first : IsLeast {o | 0 ≤ o ∧ o ∉ p.offsets} t₁
  second : IsLeast {o | 0 ≤ o ∧ o ∉ p.offsets ∧ o ∉ operands ∧ o ≠ t₁} t₂
  third : IsLeast {o | 0 ≤ o ∧ o ∉ p.offsets ∧ o ∉ operands ∧ o ≠ t₁ ∧ o ≠ t₂} t₃

/-- The scratch cell inside of an operation with one. -/
def secondFree (p : CellPool) (operands : List Int) : Int :=
  (p.lend operands).leastFree

/-- The scratch cell inside of two operations with one. -/
def thirdFree (p : CellPool) (operands : List Int) : Int :=
  ((p.lend operands).insert (p.secondFree operands)).leastFree

/-- The first `k` scratch cells, up to three. -/
def scratchCells (p : CellPool) (operands : List Int) (k : Nat) : List Int :=
  [p.leastFree, p.secondFree operands, p.thirdFree operands].take k

theorem temporaries (p : CellPool) (operands : List Int) :
    p.Temporaries operands p.leastFree (p.secondFree operands) (p.thirdFree operands) where
  first := p.isLeast_leastFree
  second := by
    show IsLeast _ (p.lend operands).leastFree
    convert (p.lend operands).isLeast_leastFree using 3 with o
    rw [mem_lend]
    tauto
  third := by
    show IsLeast _ ((p.lend operands).insert (p.secondFree operands)).leastFree
    convert ((p.lend operands).insert (p.secondFree operands)).isLeast_leastFree using 3 with o
    rw [mem_insert, mem_lend]
    tauto

end CellPool

namespace Frame

/-! ## Refusing operands -/

theorem naturalCount_of_neg {count : Int} (h : count < 0) (f : Frame) :
    naturalCount count f = .error (.negativeCount count) f := by
  rw [naturalCount, if_pos h]
  rfl

/-- The action fails and leaves the frame as it was. -/
def Refuses {α : Type} (x : Action α) (f : Frame) : Prop :=
  ∃ c, x f = .error c f

namespace Refuses

variable {f : Frame} {src dst : Int}

theorem bind {α β : Type} {x : Action α} (h : Refuses x f) (k : α → Action β) :
    Refuses (x >>= k) f := by
  obtain ⟨c, hc⟩ := h
  exact ⟨c, bind_of_error hc⟩

theorem after {α β : Type} {x : Action α} {a : α} (hx : x f = .ok a f) {k : α → Action β}
    (h : Refuses (k a) f) : Refuses (x >>= k) f := by
  obtain ⟨c, hc⟩ := h
  exact ⟨c, by rw [bind_of_ok hx, hc]⟩

/-- Two operands that must differ are looked at before the rest. -/
theorem distinct (b : Builtin) {rest : Action Unit} (h : src ≠ dst → Refuses rest f) :
    Refuses (do Frame.distinct b [src, dst]; rest) f := by
  by_cases heq : src = dst
  · have hcheck : Refuses (Frame.distinct b [src, dst]) f :=
      ⟨.aliasing b src, by simp [Frame.distinct, firstRepeated?, heq]⟩
    exact hcheck.bind _
  · obtain ⟨f', hcheck⟩ := (Visits.distinct b heq).succeeds (s := f) rfl (Emitter.covers_nil _)
    obtain ⟨rfl, -⟩ := distinct_ok hcheck
    exact after hcheck (h heq)

/-- The first scratch cell is none of the operands, or there is no scratch cell to be had. -/
theorem withScratch (b : Builtin) {operands : List Int} (body : Int → Action Unit)
    (h : f.cells.leastFree ∈ operands) : Refuses (Frame.withScratch b operands body) f := by
  by_cases htape : f.emitter.onTape (f.emitter.base + f.cells.leastFree) = true
  · exact ⟨_, withScratch_of_operand b body htape h⟩
  · exact ⟨_, withScratch_of_full b operands body htape⟩

end Refuses

/-- What an operation looks at before it writes anything: its constants must not be negative, its
operands must be different cells where the operation needs that, and its first scratch cell must be
none of them. -/
def Permits (constants : List Int) (apart : Prop) (operands : List Int) (k : Nat) (p : CellPool) :
    Prop :=
  (∀ n ∈ constants, 0 ≤ n) ∧ apart ∧ (1 ≤ k → p.leastFree ∉ operands)

/-- The action uses `k` scratch cells. It refuses operands that are not permitted. With permitted
ones it succeeds exactly if they and the scratch cells lie on the tape, and it can only fail at the
end of the tape. -/
structure Guarded (x : Action Unit) (constants : List Int) (apart : Prop) (operands : List Int)
    (k : Nat) : Prop where
  refuses : ∀ f, ¬ Permits constants apart operands k f.cells → Refuses x f
  visits : ∀ p, Permits constants apart operands k p →
    Visits p x (p.scratchCells operands k ++ operands)

namespace Guarded

variable {x : Action Unit} {b : Builtin} {src dst : Int} {operands : List Int} {k : Nat}

theorem succeeds_iff {constants : List Int} {apart : Prop}
    (h : Guarded x constants apart operands k) (f : Frame) :
    (∃ f', x f = .ok () f') ↔ Permits constants apart operands k f.cells ∧
      f.emitter.Covers (f.cells.scratchCells operands k ++ operands) := by
  constructor
  · rintro ⟨f', hf'⟩
    by_cases hpermits : Permits constants apart operands k f.cells
    · exact ⟨hpermits, ((h.visits _ hpermits).ok rfl hf').1⟩
    · obtain ⟨c, hc⟩ := h.refuses f hpermits
      rw [hc] at hf'
      cases hf'
  · rintro ⟨hpermits, hcovers⟩
    exact (h.visits _ hpermits).succeeds rfl hcovers

/-! ## Operations without scratch cells -/

theorem of_visits (h : ∀ p, Visits p x operands) : Guarded x [] True operands 0 where
  refuses _ hno := absurd (by simp [Permits]) hno
  visits p _ := h p

theorem clear (dst : Int) : Guarded (clear dst) [] True [dst] 0 :=
  of_visits fun _ => .clear dst

theorem getChar (dst : Int) : Guarded (getChar dst) [] True [dst] 0 :=
  of_visits fun _ => .stepAt dst (.repeated .read 1)

theorem putChar (src : Int) : Guarded (putChar src) [] True [src] 0 :=
  of_visits fun _ => .stepAt src (.repeated .write 1)

/-- An operation that looks only at whether its two operands differ. -/
theorem of_apart {rest : Action Unit}
    (h : ∀ p, src ≠ dst → Visits p (do distinct b [src, dst]; rest) operands) :
    Guarded (do distinct b [src, dst]; rest) [] (src ≠ dst) operands 0 where
  refuses _ hno := Refuses.distinct b fun hne => absurd (by simp [Permits, hne]) hno
  visits p hpermits := h p hpermits.2.1

theorem destructiveAdd (src dst : Int) :
    Guarded (destructiveAdd src dst) [] (src ≠ dst) [src, dst] 0 :=
  of_apart fun _ => .destructiveAdd

theorem destructiveSub (src dst : Int) :
    Guarded (destructiveSub src dst) [] (src ≠ dst) [src, dst] 0 :=
  of_apart fun _ => .destructiveSub

theorem move (src dst : Int) : Guarded (move src dst) [] (src ≠ dst) [src, dst] 0 :=
  of_apart fun _ => .move

/-- An operation that looks only at the sign of a constant. -/
theorem of_count {constant : Int} {rest : Nat → Action Unit}
    (h : ∀ p n, Visits p (rest n) operands) :
    Guarded (do let count ← naturalCount constant; rest count) [constant] True operands 0 where
  refuses f hno := by
    have hnegative : constant < 0 := by
      by_contra hnonneg
      exact hno (by simp [Permits]; omega)
    exact Refuses.bind ⟨_, naturalCount_of_neg hnegative f⟩ _
  visits p hpermits := by
    have hnonneg : 0 ≤ constant := hpermits.1 constant (List.mem_singleton_self _)
    rw [naturalCount, if_neg (by omega)]
    exact h p _

theorem constantAdd (constant dst : Int) :
    Guarded (constantAdd constant dst) [constant] True [dst] 0 :=
  of_count fun _ n => .stepAt dst (.repeated .increment n)

theorem constantSub (constant dst : Int) :
    Guarded (constantSub constant dst) [constant] True [dst] 0 :=
  of_count fun _ n => .stepAt dst (.repeated .decrement n)

/-! ## Operations with scratch cells -/

/-- An operation that looks only at its first scratch cell. -/
theorem of_scratch {body : Int → Action Unit} (hk : 1 ≤ k)
    (h : ∀ p : CellPool, p.leastFree ∉ operands →
      Visits p (withScratch b operands body) (p.scratchCells operands k ++ operands)) :
    Guarded (withScratch b operands body) [] True operands k where
  refuses _ hno :=
    Refuses.withScratch b body (by_contra fun hfree => hno (by simp [Permits, hfree]))
  visits p hpermits := h p (hpermits.2.2 hk)

theorem stackAdd (src dst : Int) : Guarded (stackAdd src dst) [] True [src, dst] 2 :=
  of_scratch (by decide) fun _ => .stackAdd

theorem stackSub (src dst : Int) : Guarded (stackSub src dst) [] True [src, dst] 2 :=
  of_scratch (by decide) fun _ => .stackSub

theorem putCodes (codes : List Nat) :
    Guarded (withScratch .putStringConstant [] fun scratch => do
      Frame.clear scratch
      emit (putCodes 0 codes)) [] True [] 1 :=
  of_scratch (by decide) fun _ _ => .putCodes codes

/-- An operation that looks at its two operands and at its first scratch cell. -/
theorem of_apart_scratch {body : Int → Action Unit} (hk : 1 ≤ k)
    (h : ∀ p : CellPool, src ≠ dst → p.leastFree ∉ [src, dst] → Visits p (do
      distinct b [src, dst]
      withScratch b [src, dst] body) (p.scratchCells [src, dst] k ++ [src, dst])) :
    Guarded (do
      distinct b [src, dst]
      withScratch b [src, dst] body) [] (src ≠ dst) [src, dst] k where
  refuses _ hno := Refuses.distinct b fun hne =>
    Refuses.withScratch b body (by_contra fun hfree => hno ⟨by simp, hne, fun _ => hfree⟩)
  visits p hpermits := h p hpermits.2.1 (hpermits.2.2 hk)

theorem copy (src dst : Int) : Guarded (copy src dst) [] (src ≠ dst) [src, dst] 1 :=
  of_apart_scratch (by decide) fun _ => .copy

theorem asLogical (src dst : Int) : Guarded (asLogical src dst) [] (src ≠ dst) [src, dst] 2 :=
  of_apart_scratch (by decide) fun _ => .asLogical

theorem logicalNot (src dst : Int) : Guarded (logicalNot src dst) [] (src ≠ dst) [src, dst] 2 :=
  of_apart_scratch (by decide) fun _ => .logicalNot

/-- A connective compares its destination with both sources, and then looks at its first scratch
cell. -/
theorem of_connective {a c : Int} {body : Int → Action Unit}
    (h : ∀ p : CellPool, a ≠ dst → c ≠ dst → p.leastFree ∉ [a, c, dst] → Visits p (do
      distinct b [a, dst]
      distinct b [c, dst]
      withScratch b [a, c, dst] body) (p.scratchCells [a, c, dst] 3 ++ [a, c, dst])) :
    Guarded (do
      distinct b [a, dst]
      distinct b [c, dst]
      withScratch b [a, c, dst] body) [] (a ≠ dst ∧ c ≠ dst) [a, c, dst] 3 where
  refuses _ hno := Refuses.distinct b fun ha => Refuses.distinct b fun hc =>
    Refuses.withScratch b body (by_contra fun hfree => hno ⟨by simp, ⟨ha, hc⟩, fun _ => hfree⟩)
  visits p hpermits := h p hpermits.2.1.1 hpermits.2.1.2 (hpermits.2.2 (by decide))

theorem logicalAnd (a c dst : Int) :
    Guarded (logicalAnd a c dst) [] (a ≠ dst ∧ c ≠ dst) [a, c, dst] 3 :=
  of_connective fun _ => .logicalAnd

theorem logicalOr (a c dst : Int) :
    Guarded (logicalOr a c dst) [] (a ≠ dst ∧ c ≠ dst) [a, c, dst] 3 :=
  of_connective fun _ => .logicalOr

end Guarded

/-! ## Calls on cells -/

namespace ArithmeticCall

def builtin : ArithmeticCall → Builtin
  | clear _ => .clear
  | destructiveAdd .. => .destructiveAdd
  | destructiveSub .. => .destructiveSub
  | move .. => .move
  | copy .. => .copy
  | stackAdd .. => .stackAdd
  | stackSub .. => .stackSub
  | constantAdd .. => .constantAdd
  | constantSub .. => .constantSub

def constants : ArithmeticCall → List Int
  | constantAdd constant _ | constantSub constant _ => [constant]
  | _ => []

/-- The operands are different cells where they must be. A cell may be added to itself with a
scratch cell. -/
def Apart : ArithmeticCall → Prop
  | destructiveAdd src dst | destructiveSub src dst | move src dst | copy src dst => src ≠ dst
  | clear _ | stackAdd .. | stackSub .. | constantAdd .. | constantSub .. => True

end ArithmeticCall

namespace LogicalCall

def builtin : LogicalCall → Builtin
  | asLogical .. => .asLogical
  | logicalNot .. => .logicalNot
  | logicalAnd .. => .logicalAnd
  | logicalOr .. => .logicalOr

/-- The destination is another cell than the sources. -/
def Apart : LogicalCall → Prop
  | asLogical src dst | logicalNot src dst => src ≠ dst
  | logicalAnd a b dst | logicalOr a b dst => a ≠ dst ∧ b ≠ dst

def scratchCells : LogicalCall → Nat
  | asLogical .. | logicalNot .. => 2
  | logicalAnd .. | logicalOr .. => 3

end LogicalCall

/-- The calls with operands of the right kinds that take cells, or a constant and a cell, and leave
the loops and the frame alone. -/
inductive CellCall where
  | arithmetic (call : ArithmeticCall)
  | logical (call : LogicalCall)
  | getChar (dst : Int)
  | putChar (src : Int)

namespace CellCall

def builtin : CellCall → Builtin
  | arithmetic call => call.builtin
  | logical call => call.builtin
  | getChar _ => .getChar
  | putChar _ => .putChar

def constants : CellCall → List Int
  | arithmetic call => call.constants
  | logical _ | getChar _ | putChar _ => []

def operands : CellCall → List Int
  | arithmetic call => call.operands
  | logical call => call.sources ++ [call.destination]
  | getChar o | putChar o => [o]

/-- The arguments as the call passes them, a constant before the cells. -/
def arguments (call : CellCall) : List Atom :=
  call.constants.map .int ++ call.operands.map .address

def scratchCells : CellCall → Nat
  | arithmetic call => call.scratchCells
  | logical call => call.scratchCells
  | getChar _ | putChar _ => 0

def Apart : CellCall → Prop
  | arithmetic call => call.Apart
  | logical call => call.Apart
  | getChar _ | putChar _ => True

def action : CellCall → Action Unit
  | arithmetic call => call.action
  | logical call => call.action
  | getChar dst => Frame.getChar dst
  | putChar src => Frame.putChar src

theorem invoke_eq (call : CellCall) : invoke call.builtin call.arguments = call.action := by
  rcases call with call | call | dst | src
  · cases call <;> rfl
  · cases call <;> rfl
  · rfl
  · rfl

theorem guarded (call : CellCall) :
    Guarded call.action call.constants call.Apart call.operands call.scratchCells := by
  cases call with
  | arithmetic call =>
    cases call with
    | clear dst => exact .clear dst
    | destructiveAdd src dst => exact .destructiveAdd src dst
    | destructiveSub src dst => exact .destructiveSub src dst
    | move src dst => exact .move src dst
    | copy src dst => exact .copy src dst
    | stackAdd src dst => exact .stackAdd src dst
    | stackSub src dst => exact .stackSub src dst
    | constantAdd constant dst => exact .constantAdd constant dst
    | constantSub constant dst => exact .constantSub constant dst
  | logical call =>
    cases call with
    | asLogical src dst => exact .asLogical src dst
    | logicalNot src dst => exact .logicalNot src dst
    | logicalAnd a b dst => exact .logicalAnd a b dst
    | logicalOr a b dst => exact .logicalOr a b dst
  | getChar dst => exact .getChar dst
  | putChar src => exact .putChar src

end CellCall

/-- **Exactly which calls on cells succeed.** A call succeeds if and only if its constant is not
negative, its operands are different cells where they must be, its first scratch cell is none of its
operands, and the operands and all its scratch cells lie on the tape. -/
theorem cell_calls_succeed_iff (f : Frame) (hsize : f.emitter.tapeSize.toNat < 2 ^ 63)
    (call : CellCall) :
    ∃ t₁ t₂ t₃, f.cells.Temporaries call.operands t₁ t₂ t₃ ∧
      ((∃ f', invoke call.builtin call.arguments f = .ok () f') ↔
        (∀ n ∈ call.constants, 0 ≤ n) ∧ call.Apart ∧
        (1 ≤ call.scratchCells → t₁ ∉ call.operands) ∧
        ∀ o ∈ [t₁, t₂, t₃].take call.scratchCells ++ call.operands,
          0 ≤ f.emitter.base + o ∧ f.emitter.base + o < f.emitter.tapeSize.toNat) := by
  refine ⟨_, _, _, f.cells.temporaries call.operands, ?_⟩
  have hcovers : ∀ offsets, f.emitter.Covers offsets ↔ ∀ o ∈ offsets,
      0 ≤ f.emitter.base + o ∧ f.emitter.base + o < f.emitter.tapeSize.toNat := by
    intro offsets
    simp only [Emitter.Covers, Emitter.onTape_iff, Emitter.limit_eq_toNat rfl hsize]
  rw [call.invoke_eq, call.guarded.succeeds_iff, hcovers, Permits, CellPool.scratchCells, and_assoc,
    and_assoc]

/-- A conjunction whose destination was not allocated, on a tape that ends after it. The cells in
use leave gaps for the scratch cells. -/
theorem cell_calls_succeed_iff_gaps :
    ∃ f f' : Frame, f.cells.offsets = [0, 2, 5] ∧ f.emitter.base = 1 ∧
    f.emitter.tapeSize.toNat = 8 ∧
    invoke .logicalAnd [.address 0, .address 2, .address 6] f = .ok () f' ∧
    ∃ t₁ t₂ t₃, f.cells.Temporaries [0, 2, 6] t₁ t₂ t₃ ∧ t₁ ∉ [0, 2, 6] ∧
      ∀ o ∈ [t₁, t₂, t₃, 0, 2, 6], 0 ≤ 1 + o ∧ 1 + o < 8 := by
  obtain ⟨t₁, t₂, t₃, htemporaries, hiff⟩ := cell_calls_succeed_iff
    ⟨⟨8, 0, 1, #[], []⟩, ⟨[0, 2, 5], by decide⟩⟩ (by decide) (.logical (.logicalAnd 0 2 6))
  obtain ⟨f', hf'⟩ :=
    exists_eq_ok_of_run' (x := invoke .logicalAnd [.address 0, .address 2, .address 6])
    (s := ⟨⟨8, 0, 1, #[], []⟩, ⟨[0, 2, 5], by decide⟩⟩) (a := ()) (by decide +kernel)
  obtain ⟨-, -, hfree, htape⟩ := hiff.1 ⟨f', hf'⟩
  exact ⟨_, f', rfl, rfl, rfl, hf', t₁, t₂, t₃, htemporaries, hfree (by decide), htape⟩

end Frame

end TapeToolchain
