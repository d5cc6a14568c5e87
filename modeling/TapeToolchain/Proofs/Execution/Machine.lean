import TapeToolchain.Listing
import TapeToolchain.Proofs.Execution.Brackets
import TapeToolchain.Proofs.Preliminaries
import Mathlib.Logic.Function.Basic

/-!
The tape machine at work. Its tape has a byte in each cell and no ends; it reads bytes from an input
and writes bytes to an output. Reading past the end of the input leaves the cell as it is. A loop
end looks for its partner to the left, a loop start to the right, and code without the partner has
no next step there.
-/

namespace TapeToolchain

/-- What instructions change apart from the cursor: the cells, the input that is left, and the
output so far. -/
@[ext] structure Memory where
  cells : Int → UInt8
  input : List UInt8
  output : List UInt8

/-- A machine between two instructions. -/
@[ext] structure Machine where
  next : Nat
  cursor : Int
  memory : Memory

namespace Memory

def set (m : Memory) (p : Int) (value : UInt8) : Memory :=
  { m with cells := Function.update m.cells p value }

/-- Reads the next byte of the input into a cell, if there is one. -/
def receive (m : Memory) (p : Int) : Memory :=
  match m.input with
  | [] => m
  | byte :: rest => { m.set p byte with input := rest }

def send (m : Memory) (bytes : List UInt8) : Memory :=
  { m with output := m.output ++ bytes }

end Memory

namespace Instruction

/-- How far an instruction moves the cursor. -/
def displacement : Instruction → Int
  | left => -1
  | right => 1
  | _ => 0

/-- What an instruction does to the memory, with the cursor at `p`. -/
def act (i : Instruction) (p : Int) (m : Memory) : Memory :=
  match i with
  | increment => m.set p (m.cells p + 1)
  | decrement => m.set p (m.cells p - 1)
  | read => m.receive p
  | write => m.send [m.cells p]
  | _ => m

end Instruction

namespace Machine

def start (cells : Int → UInt8) (input : List UInt8) : Machine :=
  ⟨0, 0, ⟨cells, input, []⟩⟩

def current (s : Machine) : UInt8 :=
  s.memory.cells s.cursor

/-- Where a loop start goes when its cell is zero: behind the loop's end. -/
def exitOf (code : List Instruction) (at_ : Nat) : Option Nat :=
  (closingDistance 0 (code.drop (at_ + 1))).map (at_ + 2 + ·)

/-- Where a loop end goes when its cell is not zero: behind the loop's start. -/
def entryOf (code : List Instruction) (at_ : Nat) : Option Nat :=
  (closingDistance 0 (mirrored (code.take at_))).map (at_ - ·)

/-- One step, unless the code is at its end or a loop has no partner. -/
def step (code : List Instruction) (s : Machine) : Option Machine :=
  match code[s.next]? with
  | none => none
  | some .loopBegin =>
    if s.current = 0 then (exitOf code s.next).map fun n => { s with next := n }
    else some { s with next := s.next + 1 }
  | some .loopEnd =>
    if s.current = 0 then some { s with next := s.next + 1 }
    else (entryOf code s.next).map fun n => { s with next := n }
  | some i => some ⟨s.next + 1, s.cursor + i.displacement, i.act s.cursor s.memory⟩

def runFor (code : List Instruction) : Nat → Machine → Option Machine
  | 0, s => some s
  | n + 1, s => (step code s).bind (runFor code n)

/-- The machine gets from one state to another in some number of steps. -/
def Reaches (code : List Instruction) (s t : Machine) : Prop :=
  ∃ n, runFor code n s = some t

/-- The code is at its end. -/
def Halted (code : List Instruction) (s : Machine) : Prop :=
  s.next = code.length

/-! ## Steps in sequence -/

theorem runFor_add (code : List Instruction) (m n : Nat) (s : Machine) :
    runFor code (m + n) s = (runFor code m s).bind (runFor code n) := by
  induction m generalizing s with
  | zero => simp [runFor]
  | succ m ih =>
    rw [Nat.add_right_comm, runFor, runFor]
    cases step code s with
    | none => rfl
    | some t => exact ih t

theorem runFor_trans {code : List Instruction} {m n : Nat} {s t u : Machine}
    (h₁ : runFor code m s = some t) (h₂ : runFor code n t = some u) :
    runFor code (m + n) s = some u := by
  rw [runFor_add, h₁]; exact h₂

theorem runFor_one (code : List Instruction) (s : Machine) : runFor code 1 s = step code s := by
  cases h : step code s <;> simp [runFor, h]

namespace Reaches

theorem refl (code : List Instruction) (s : Machine) : Reaches code s s := ⟨0, rfl⟩

theorem trans {code : List Instruction} {s t u : Machine} (h₁ : Reaches code s t)
    (h₂ : Reaches code t u) : Reaches code s u := by
  obtain ⟨m, h₁⟩ := h₁
  obtain ⟨n, h₂⟩ := h₂
  exact ⟨m + n, runFor_trans h₁ h₂⟩

theorem single {code : List Instruction} {s t : Machine} (h : step code s = some t) :
    Reaches code s t := ⟨1, by rw [runFor_one, h]⟩

/-- What holds at the start and is kept by each step holds in every state that is reached. -/
theorem invariant {code : List Instruction} {P : Machine → Prop}
    (hstep : ∀ s t, P s → step code s = some t → P t) {s t : Machine} (h : Reaches code s t)
    (hs : P s) : P t := by
  obtain ⟨n, hn⟩ := h
  induction n generalizing s with
  | zero => cases hn; exact hs
  | succ n ih =>
    obtain ⟨u, hu, hn⟩ := Option.bind_eq_some_iff.1 hn
    exact ih (hstep s u hs hu) hn

end Reaches

theorem step_halted {code : List Instruction} {s : Machine} (h : s.Halted code) :
    step code s = none := by
  rw [step, h, List.getElem?_eq_none (Nat.le_refl _)]

theorem runFor_le {code : List Instruction} {s t u : Machine} {j k : Nat} (h : j ≤ k)
    (ht : runFor code j s = some t) (hu : runFor code k s = some u) : Reaches code t u := by
  obtain ⟨d, rfl⟩ := Nat.exists_eq_add_of_le h
  rw [runFor_add, ht] at hu
  exact ⟨d, hu⟩

/-- A run cannot go on once the code is at its end. -/
theorem le_of_halted {code : List Instruction} {s t u : Machine} {m n : Nat}
    (ht : runFor code m s = some t) (halted : t.Halted code) (hu : runFor code n s = some u) :
    n ≤ m := by
  refine Nat.le_of_not_lt fun hlt => ?_
  obtain ⟨k, rfl⟩ : ∃ k, n = m + (k + 1) := ⟨n - m - 1, by omega⟩
  rw [runFor_add, ht, Option.bind_some, runFor, step_halted halted] at hu
  cases hu

/-- A machine halts in one state only. -/
theorem eq_of_halted {code : List Instruction} {s t u : Machine} (ht : Reaches code s t)
    (htend : t.Halted code) (hu : Reaches code s u) (huend : u.Halted code) : t = u := by
  obtain ⟨j, hj⟩ := ht
  obtain ⟨k, hk⟩ := hu
  obtain rfl : j = k := Nat.le_antisymm (le_of_halted hk huend hj) (le_of_halted hj htend hk)
  rw [hj] at hk
  exact Option.some.inj hk

/-! ## The output grows -/

theorem output_act (i : Instruction) (p : Int) (m : Memory) :
    m.output <+: (i.act p m).output := by
  cases i <;> simp [Instruction.act, Memory.set, Memory.send, Memory.receive]
  split <;> simp

theorem output_step {code : List Instruction} {s t : Machine} (h : step code s = some t) :
    s.memory.output <+: t.memory.output := by
  rw [step] at h
  split at h
  · cases h
  · split at h
    · obtain ⟨n, -, rfl⟩ := Option.map_eq_some_iff.1 h
      exact List.prefix_refl _
    · cases h; exact List.prefix_refl _
  · split at h
    · cases h; exact List.prefix_refl _
    · obtain ⟨n, -, rfl⟩ := Option.map_eq_some_iff.1 h
      exact List.prefix_refl _
  · cases h
    exact output_act _ _ _

theorem output_reaches {code : List Instruction} {s t : Machine} (h : Reaches code s t) :
    s.memory.output <+: t.memory.output :=
  h.invariant (P := fun u => s.memory.output <+: u.memory.output)
    (fun _ _ hs hu => hs.trans (output_step hu)) (List.prefix_refl _)

/-! ## Code with all loops closed -/

theorem getElem?_of_step {code : List Instruction} {s t : Machine} (h : step code s = some t) :
    ∃ i, code[s.next]? = some i := by
  cases hi : code[s.next]? with
  | none => rw [step, hi] at h; cases h
  | some i => exact ⟨i, rfl⟩

/-- Code with all loops closed has a next step everywhere before its end. -/
theorem exists_step {code : List Instruction} (h : Balanced code) {s : Machine}
    (hs : s.next < code.length) : ∃ t, step code s = some t := by
  obtain ⟨i, hi⟩ : ∃ i, code[s.next]? = some i := ⟨_, List.getElem?_eq_getElem hs⟩
  obtain ⟨before, after, rfl, hlen⟩ := List.eq_append_of_getElem? hi
  rw [Balanced, nesting_append] at h
  obtain ⟨d, hbefore, hafter⟩ := Option.bind_eq_some_iff.1 h
  rw [step, hi]
  rcases i.cases_plain with rfl | rfl | ⟨hb, he⟩
  · simp only
    split
    -- a loop that is skipped is closed later, since nothing is left open in the end
    · obtain ⟨n, hn⟩ := exists_closingDistance (k := 0) (d := d + 1) hafter (by omega)
      have hdrop : (before ++ .loopBegin :: after).drop (s.next + 1) = after := by
        rw [← hlen, ← List.drop_drop, List.drop_left]; rfl
      rw [exitOf, hdrop, hn]
      exact ⟨_, rfl⟩
    · exact ⟨_, rfl⟩
  · simp only
    split
    · exact ⟨_, rfl⟩
    -- a loop that is gone through again was opened before: read backwards, its begin closes it
    · have hd : 0 < d := by
        cases d with
        | zero => cases hafter
        | succ d => exact Nat.succ_pos d
      obtain ⟨n, hn⟩ := exists_closingDistance (k := 0) (nesting_mirrored hbefore) (by omega)
      have htake : (before ++ .loopEnd :: after).take s.next = before := by
        rw [← hlen, List.take_left]
      rw [entryOf, htake, hn]
      exact ⟨_, rfl⟩
  · cases i <;> first | contradiction | exact ⟨_, rfl⟩

/-! ## Steps at a known place in the code -/

section
variable {before body after : List Instruction} {p : Int} {m : Memory}

theorem step_plain {i : Instruction} (h : i.IsPlain) :
    step (before ++ i :: after) ⟨before.length, p, m⟩ =
      some ⟨before.length + 1, p + i.displacement, i.act p m⟩ := by
  obtain ⟨hb, he⟩ := h
  have hi : (before ++ i :: after)[before.length]? = some i := by simp
  rw [step, hi]
  cases i <;> first | contradiction | rfl

theorem exitOf_loop (h : Balanced body) :
    exitOf (before ++ .loopBegin :: (body ++ .loopEnd :: after)) before.length =
      some (before.length + body.length + 2) := by
  have hd : (before ++ .loopBegin :: (body ++ .loopEnd :: after)).drop (before.length + 1) =
      body ++ .loopEnd :: after := by
    rw [← List.drop_drop, List.drop_left]; rfl
  rw [exitOf, hd, closingDistance_balanced h, Option.map_some, Nat.add_right_comm]

theorem entryOf_loop (h : Balanced body) :
    entryOf (before ++ .loopBegin :: (body ++ .loopEnd :: after))
      (before.length + 1 + body.length) = some (before.length + 1) := by
  have ht : (before ++ .loopBegin :: (body ++ .loopEnd :: after)).take
      (before.length + 1 + body.length) = before ++ [.loopBegin] ++ body := by
    have : before ++ .loopBegin :: (body ++ .loopEnd :: after) =
        (before ++ [.loopBegin] ++ body) ++ .loopEnd :: after := by simp
    rw [this]
    exact List.take_left' (by simp only [List.length_append, List.length_singleton])
  rw [entryOf, ht, mirrored_append, mirrored_append]
  show (closingDistance 0 (mirrored body ++ .loopEnd :: mirrored before)).map _ = _
  rw [closingDistance_balanced h.mirrored, length_mirrored, Option.map_some, Nat.add_sub_cancel]

/-- Both ends of a loop test the cell under the cursor, and go on inside or behind the loop. -/
theorem step_loopBegin (h : Balanced body) :
    step (before ++ .loopBegin :: (body ++ .loopEnd :: after)) ⟨before.length, p, m⟩ =
      some ⟨if m.cells p = 0 then before.length + body.length + 2 else before.length + 1,
        p, m⟩ := by
  have hi : (before ++ .loopBegin :: (body ++ .loopEnd :: after))[before.length]? =
      some .loopBegin := by simp
  rw [step, hi]
  simp only [exitOf_loop h, current, Option.map_some]
  split <;> rfl

theorem step_loopEnd (h : Balanced body) :
    step (before ++ .loopBegin :: (body ++ .loopEnd :: after))
        ⟨before.length + 1 + body.length, p, m⟩ =
      some ⟨if m.cells p = 0 then before.length + body.length + 2 else before.length + 1,
        p, m⟩ := by
  have hi :
      (before ++ .loopBegin :: (body ++ .loopEnd :: after))[before.length + 1 + body.length]? =
      some .loopEnd := by
    rw [List.getElem?_append_right (by omega)]
    have hn : before.length + 1 + body.length - before.length = body.length + 1 := by omega
    rw [hn, List.getElem?_cons_succ, List.getElem?_append_right (Nat.le_refl _)]
    simp
  rw [step, hi]
  simp only [entryOf_loop h, current, Option.map_some]
  split
  · simp only [Option.some.injEq, mk.injEq, and_self, and_true]; omega
  · rfl

end

end Machine

/-! ## Listings that come to their end -/

/-- The code comes to its end, with this output and this rest of the input. -/
def Listing.Halts (l : Listing) (cells : Int → UInt8) (input out rest : List UInt8) : Prop :=
  ∃ t, Machine.Reaches l.code.toList (.start cells input) t ∧ t.Halted l.code.toList ∧
    t.memory.output = out ∧ t.memory.input = rest

theorem Listing.Halts.output_unique {l : Listing} {cells : Int → UInt8}
    {input out out' rest rest' : List UInt8} (h : l.Halts cells input out rest)
    (h' : l.Halts cells input out' rest') : out = out' := by
  obtain ⟨t, ht, htend, rfl, -⟩ := h
  obtain ⟨u, hu, huend, rfl, -⟩ := h'
  rw [Machine.eq_of_halted ht htend hu huend]

end TapeToolchain
