import TapeToolchain.Proofs.Evaluation.Nesting
import TapeToolchain.Proofs.Frame.Addressability

/-!
Brackets and open loops when requests fail. A loop that cannot be closed where the cursor is is
given up: the emitter no longer holds it open, but its opening bracket has been written and stays
without a partner. All other failures keep the open loops and the brackets in step. So the emitter's
code has as many opening brackets too many as loops are open or were given up, and finished code is
balanced if no loop was given up, and only then.
-/

namespace TapeToolchain

/-- A loop was to be closed at another offset than it was opened at. -/
def CompileError.isImbalance : CompileError → Bool
  | .loopImbalance _ _ => true
  | _ => false

namespace Emitter

/-- The failures of requests that are all made, in order. -/
def failures : List Operation → Emitter → List CompileError
  | [], _ => []
  | op :: rest, e =>
    match op.action e with
    | .ok () e' => failures rest e'
    | .error c e' => c :: failures rest e'

def givenUp (ops : List Operation) (e : Emitter) : Nat :=
  (failures ops e).countP (·.isImbalance)

/-! ## One request -/

theorem parseFragment_error {cs : List Char} {c : CompileError} (h : parseFragment cs = .error c) :
    ∃ char, c = .badInstruction char := by
  induction cs with
  | nil => cases h
  | cons char rest ih =>
    simp only [parseFragment] at h
    split at h
    · cases h
      exact ⟨char, rfl⟩
    · cases hrest : parseFragment rest with
      | ok code => rw [hrest] at h; cases h
      | error c' =>
        rw [hrest] at h
        cases h
        exact ih hrest

/-- The second emitter has written more code. Of the loops that are open behind it, the emitter has
lost `lost`, and still holds the others. -/
def Loses (lost : Nat) (e e' : Emitter) : Prop :=
  ∃ written, e'.code.toList = e.code.toList ++ written ∧
    nesting e.loops.length written = some (e'.loops.length + lost)

theorem Loses.refl (e : Emitter) : Loses 0 e e :=
  Nests.refl e

theorem Loses.trans {k l : Nat} {e₁ e₂ e₃ : Emitter} (h₁ : Loses k e₁ e₂) (h₂ : Loses l e₂ e₃) :
    Loses (k + l) e₁ e₃ := by
  obtain ⟨a, ha, hna⟩ := h₁
  obtain ⟨b, hb, hnb⟩ := h₂
  refine ⟨a ++ b, by rw [hb, ha, List.append_assoc], ?_⟩
  rw [nesting_append, hna, Option.bind_some, nesting_add hnb k]
  congr 1
  omega

/-- The loops that a failure costs. -/
def cost (c : CompileError) : Nat :=
  if c.isImbalance then 1 else 0

/-- What an action writes opens and closes the loops that it says, but for one that is given up when
it fails by an imbalance. -/
def Accounts (x : Action Unit) : Prop :=
  (∀ e e', x e = .ok () e' → Nests e e') ∧ ∀ e c e', x e = .error c e' → Loses (cost c) e e'

namespace Accounts

theorem of_meets {x : Action Unit} (hx : Meets Nests (fun _ => True) x)
    (herror : ∀ e c e', x e = .error c e' → Loses (cost c) e e') : Accounts x :=
  ⟨fun e => hx.1 e (), herror⟩

theorem bind {x : Action Unit} {y : Unit → Action Unit} (hx : Accounts x) (hy : Accounts (y ())) :
    Accounts (x >>= y) := by
  refine ⟨fun e e' h => ?_, fun e c e' h => ?_⟩
  · obtain ⟨_, u, hu, h⟩ := bind_eq_ok.1 h
    exact Nests.trans e u e' (hx.1 e u hu) (hy.1 u e' h)
  · rcases bind_eq_error.1 h with hfirst | ⟨_, u, hu, h⟩
    · exact hx.2 e c e' hfirst
    · have := Loses.trans (k := 0) (hx.1 e u hu) (hy.2 u c e' h)
      rwa [Nat.zero_add] at this

theorem repeated {i : Instruction} (hi : i.IsPlain) (n : Nat) : Accounts (Emitter.repeated i n) :=
  .of_meets (meets_repeated hi n) fun e c e' h => by cases h

theorem shift (distance : Int) : Accounts (Emitter.shift distance) := by
  refine ⟨fun e e' h => ?_, fun e c e' h => ?_⟩
  · simp only [Emitter.shift] at h
    split at h
    · cases h
      refine nests_replicate ?_ _ rfl rfl
      split <;> decide
    · cases h
  · simp only [Emitter.shift] at h
    split at h
    · cases h
    · cases h
      exact .refl e

theorem moveTo (offset : Int) : Accounts (Emitter.moveTo offset) :=
  ⟨fun e => (shift _).1 e, fun e => (shift _).2 e⟩

theorem beginLoop : Accounts Emitter.beginLoop :=
  .of_meets meets_beginLoop fun e c e' h => by cases h

/-- The only place where a loop is lost. -/
theorem endLoop : Accounts Emitter.endLoop := by
  refine .of_meets meets_endLoop fun e c e' h => ?_
  simp only [Emitter.endLoop] at h
  split at h
  · cases h
    exact .refl e
  · next opened rest hloops =>
    split at h
    · cases h
    · cases h
      exact ⟨[], (List.append_nil _).symm, by rw [hloops]; rfl⟩

theorem step (i : Instruction) : Accounts (Emitter.step i) := by
  cases i with
  | left | right => exact shift _
  | loopBegin => exact beginLoop
  | loopEnd => exact endLoop
  | increment | decrement | read | write => exact repeated (by decide) 1

theorem replay (code : List Instruction) : Accounts (Emitter.replay code) := by
  induction code with
  | nil => exact ⟨fun e e' h => by cases h; exact .refl e, fun e c e' h => by cases h⟩
  | cons i rest ih => exact (step i).bind ih

theorem raw (fragment : String) : Accounts (Emitter.raw fragment) := by
  cases hparse : parseFragment fragment.toList with
  | ok code =>
    have hraw : Emitter.raw fragment = Emitter.replay code := by
      rw [Emitter.raw, hparse]
      rfl
    rw [hraw]
    exact replay code
  | error c =>
    -- the text is refused as a whole, and nothing is written
    obtain ⟨char, rfl⟩ := parseFragment_error hparse
    have hraw : ∀ e, Emitter.raw fragment e = .error (.badInstruction char) e := by
      intro e
      rw [Emitter.raw, hparse]
      rfl
    refine ⟨fun e e' h => ?_, fun e c e' h => ?_⟩
    · rw [hraw] at h
      cases h
    · rw [hraw] at h
      cases h
      exact .refl e

theorem rebase (distance : Int) : Accounts (Emitter.rebase distance) := by
  refine .of_meets (meets_rebase distance) fun e c e' h => ?_
  simp only [Emitter.rebase] at h
  split at h
  · cases h
  · cases h
    exact .refl e

theorem operation (op : Operation) : Accounts op.action := by
  cases op with
  | shift distance => exact shift distance
  | moveTo offset => exact moveTo offset
  | add count | sub count => exact repeated (by decide) count
  | beginLoop => exact beginLoop
  | endLoop => exact endLoop
  | read | write => exact repeated (by decide) 1
  | raw fragment => exact raw fragment
  | step i => exact step i
  | rebase distance => exact rebase distance

end Accounts

/-! ## Any number of requests -/

/-- The loops that requests lose are those that their failures give up. -/
theorem loses_afterRequests (ops : List Operation) (e : Emitter) :
    Loses (givenUp ops e) e (afterRequests Operation.action ops e) := by
  induction ops generalizing e with
  | nil => exact .refl e
  | cons op rest ih =>
    rw [afterRequests_cons]
    cases hop : op.action e with
    | ok _ e' =>
      have hlost : givenUp (op :: rest) e = givenUp rest e' := by simp only [givenUp, failures, hop]
      have hfirst : Loses 0 e e' := (Accounts.operation op).1 e e' hop
      rw [stateAfter_of_ok hop, hlost, ← Nat.zero_add (givenUp rest e')]
      exact hfirst.trans (ih e')
    | error c e' =>
      have hlost : givenUp (op :: rest) e = cost c + givenUp rest e' := by
        simp only [givenUp, failures, hop, List.countP_cons, cost]
        exact Nat.add_comm _ _
      rw [stateAfter_of_error hop, hlost]
      exact ((Accounts.operation op).2 e c e' hop).trans (ih e')

/-- The depth of the code is the number of loops that are open or were given up. -/
theorem nesting_afterRequests (ops : List Operation) (n : UInt64) :
    nesting 0 (afterRequests Operation.action ops (new n)).code.toList =
      some ((afterRequests Operation.action ops (new n)).openLoops + givenUp ops (new n)) := by
  obtain ⟨written, hcode, hnesting⟩ := loses_afterRequests ops (new n)
  rw [hcode]
  exact hnesting

theorem finish_eq_ok_iff {e : Emitter} {width : Nat} {l : Listing} :
    e.finish width = .ok l ↔ e.openLoops = 0 ∧ l = ⟨e.code, width⟩ := by
  rw [finish, openLoops]
  cases e.loops with
  | nil => simp [eq_comm]
  | cons opened rest => simp

/-- **Brackets without a partner are open loops or loops that were given up.** Make any requests to
a new emitter, and go on when one fails. No part at the start of the code closes more loops than it
opens, and the code has as many opening brackets too many as loops are open and as loops were given
up, which are those that were to be closed at another offset than they were opened at. The emitter
can be finished if no loop is open; what it gives then is balanced if no loop was given up, and only
then. -/
theorem unpartnered_brackets_are_open_or_given_up (n : UInt64) (ops : List Operation) (e : Emitter)
    (he : e = afterRequests Operation.action ops (new n)) :
    (∀ start, start <+: e.code.toList → start.count .loopEnd ≤ start.count .loopBegin) ∧
    (e.code.toList.count .loopBegin : Int) - e.code.toList.count .loopEnd = e.openLoops +
      givenUp ops (new n) ∧
    ∀ width, (e.openLoops = 0 ↔ e.finish width = .ok ⟨e.code, width⟩) ∧
      ∀ l, e.finish width = .ok l → (Balanced l.code.toList ↔ givenUp ops (new n) = 0) := by
  subst he
  have hnesting := nesting_afterRequests ops n
  refine ⟨fun start hs => ?_, ?_, fun width => ⟨?_, fun l hl => ?_⟩⟩
  · obtain ⟨rest, hrest⟩ := hs
    rw [← hrest, nesting_append] at hnesting
    obtain ⟨d, hd, -⟩ := Option.bind_eq_some_iff.1 hnesting
    have := count_of_nesting hd
    omega
  · have := count_of_nesting hnesting
    omega
  · rw [finish_eq_ok_iff, and_iff_left rfl]
  · obtain ⟨hopen, rfl⟩ := finish_eq_ok_iff.1 hl
    show nesting 0 (afterRequests Operation.action ops (new n)).code.toList = some 0 ↔ _
    rw [hnesting, hopen, Nat.zero_add, Option.some.injEq]

/-- A loop is given up, two requests fail otherwise, and a loop is closed. -/
theorem unpartnered_brackets_are_open_or_given_up_mixed :
    ∃ (ops : List Operation) (e : Emitter) (l : Listing),
    ops = [.beginLoop, .shift 1, .endLoop, .endLoop, .raw "+x", .beginLoop, .shift (-2), .endLoop] ∧
    e = afterRequests Operation.action ops (new 10) ∧
    e.code.toList = [.loopBegin, .right, .loopBegin, .loopEnd] ∧
    e.finish 70 = .ok l ∧ givenUp ops (new 10) = 1 ∧ ¬ Balanced l.code.toList := by
  obtain ⟨-, -, hfinish⟩ := unpartnered_brackets_are_open_or_given_up 10
    [.beginLoop, .shift 1, .endLoop, .endLoop, .raw "+x", .beginLoop, .shift (-2), .endLoop] _ rfl
  have hok := (hfinish 70).1.1 (by decide)
  have hlost : givenUp [.beginLoop, .shift 1, .endLoop, .endLoop, .raw "+x", .beginLoop,
      .shift (-2), .endLoop]
    (new 10) = 1 := by decide
  refine ⟨_, _, _, rfl, rfl, by decide, hok, hlost, fun hbalanced => ?_⟩
  exact absurd ((hfinish 70).2 _ hok |>.1 hbalanced) (by rw [hlost]; decide)

/-- After a loop that could not be closed no loop is open, although the code has an opening bracket
without a partner; and the code can be finished. -/
theorem given_up_loop_leaves_bracket :
    ∃ e : Emitter, e = afterRequests Operation.action [.beginLoop, .shift 1, .endLoop] (new 10) ∧
    e.openLoops = 0 ∧ e.code.toList.count .loopBegin = 1 ∧ e.code.toList.count .loopEnd = 0 ∧
    ∃ l, e.finish 70 = .ok l ∧ l.text = "[>" ∧ ¬ Balanced l.code.toList :=
  ⟨_, rfl, by decide, by decide, by decide, _, rfl, by decide, by decide⟩

end Emitter

end TapeToolchain
