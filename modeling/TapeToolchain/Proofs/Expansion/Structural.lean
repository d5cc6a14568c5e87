import TapeToolchain.Proofs.Expansion.Rules
import TapeToolchain.Proofs.Expansion.Settling

/-!
The number of rounds that desugaring takes. Rounds come to rest after at most two more than blocks
are nested: each round takes a layer of blocks away, one more takes the cells that the innermost
conditionals declare, and the last one finds nothing to do. What they make by then is what the
recursion over the blocks makes.
-/

namespace TapeToolchain

open Desugaring (localStatements ifStatements whileStatements)

mutual

/-- How deep the blocks of a statement are nested. A block is a conditional or a loop with one
condition and a body. -/
def Node.blockDepth : Node → Nat
  | .compound .ifBlock [.compound .arguments [_], .compound .body body] =>
    Node.blockDepthAll body + 1
  | .compound .whileBlock [.compound .arguments [_], .compound .body body] =>
    Node.blockDepthAll body + 1
  | _ => 0

def Node.blockDepthAll : List Node → Nat
  | [] => 0
  | n :: rest => max n.blockDepth (Node.blockDepthAll rest)

end

mutual

/-- The conditions of all blocks of a statement are literals. -/
def Node.literalConditions : Node → Bool
  | .compound .ifBlock [.compound .arguments [c], .compound .body body] =>
    c.atom?.isSome && Node.literalConditionsAll body
  | .compound .whileBlock [.compound .arguments [c], .compound .body body] =>
    c.atom?.isSome && Node.literalConditionsAll body
  | _ => true

def Node.literalConditionsAll : List Node → Bool
  | [] => true
  | n :: rest => n.literalConditions && Node.literalConditionsAll rest

end

namespace Node

theorem literalConditionsAll_eq (body : List Node) :
    literalConditionsAll body = body.all literalConditions := by
  induction body with
  | nil => rfl
  | cons n rest ih => rw [literalConditionsAll, ih, List.all_cons]

theorem blockDepth_le_of_mem {body : List Node} {n : Node} (hn : n ∈ body) :
    n.blockDepth ≤ blockDepthAll body := by
  induction body with
  | nil => cases hn
  | cons m rest ih =>
    rw [blockDepthAll]
    rcases List.mem_cons.1 hn with rfl | hn
    · exact Nat.le_max_left _ _
    · exact Nat.le_trans (ih hn) (Nat.le_max_right _ _)

end Node

/-! ## The number of rounds -/

namespace Node

theorem literalConditions_block {tag : Tag} (htag : tag = .ifBlock ∨ tag = .whileBlock)
    {condition : Node} {body : List Node}
    (h : (Node.compound tag [.compound .arguments [condition],
      .compound .body body]).literalConditions = true) :
    condition.atom?.isSome = true ∧ ∀ n ∈ body, n.literalConditions = true := by
  rcases htag with rfl | rfl <;>
    simpa [literalConditions, literalConditionsAll_eq] using h

/-- No step fails on a statement whose conditions are literals. -/
theorem step_ok {n : Node} (hn : n.literalConditions = true) {f : Replacement}
    (hf : f ∈ desugaringSteps) : f n = .ok none ∨ ∃ new, f n = .ok (some new) := by
  have hblock : ∀ {tag : Tag} {statements : Atom → List Node → List Node}, tag = .ifBlock ∨
      tag = .whileBlock → Desugaring.blockReplacement? tag statements n = .ok none ∨
        ∃ new, Desugaring.blockReplacement? tag statements n = .ok (some new) := by
    intro tag statements htag
    unfold Desugaring.blockReplacement?
    split
    · exact Or.inl rfl
    · next condition body h =>
      rw [block?_eq_some.1 h] at hn
      obtain ⟨c, hc⟩ := Option.isSome_iff_exists.1 (literalConditions_block htag hn).1
      rw [hc]
      exact Or.inr ⟨_, rfl⟩
  simp only [desugaringSteps, Desugaring.rules, List.map_cons, List.map_nil, List.mem_cons,
    List.not_mem_nil, or_false] at hf
  rcases hf with rfl | rfl | rfl
  · rw [Desugaring.allocateLocals_replacement?]
    cases n.only? .localCell with
    | none => exact Or.inl rfl
    | some name => exact Or.inr ⟨_, rfl⟩
  · rw [Desugaring.expandIfBlock_replacement?]
    exact hblock (Or.inl rfl)
  · rw [Desugaring.expandWhileBlock_replacement?]
    exact hblock (Or.inr rfl)

/-- A statement settles in one round more than its blocks are nested. -/
theorem settles_of_blockDepth {d : Nat} {n : Node} (hd : n.blockDepth ≤ d)
    (hn : n.literalConditions = true) : Settles desugaringSteps (d + 1) n := by
  induction d using Nat.strongRecOn generalizing n with
  | ind d ih =>
    -- the statements inside of a block settle in the rounds that are left when the block is
    -- replaced
    have hinner : ∀ {body : List Node}, blockDepthAll body + 1 ≤ d →
        (∀ k ∈ body, k.literalConditions = true) → ∀ k ∈ body, Settles desugaringSteps d k := by
      intro body hbody hliteral k hk
      obtain ⟨e, rfl⟩ := Nat.exists_eq_add_one_of_ne_zero (show d ≠ 0 by omega)
      have hle := blockDepth_le_of_mem hk
      exact ih e (Nat.lt_succ_self e) (by omega) (hliteral k hk)
    intro f hf
    refine (step_ok hn hf).imp_right ?_
    intro ⟨new, hnew⟩
    refine ⟨new, hnew, ?_⟩
    rcases cases_of_step hf hnew with ⟨name, rfl, rfl⟩ | ⟨c, body, rfl, rfl⟩ | ⟨c, body, rfl, rfl⟩
    · exact desugaringSteps_leavesPrimitives.localStatements name
    · have hbody : blockDepthAll body + 1 ≤ d := by
        simpa [Statement.ifNonzero, Statement.arguments, blockDepth] using hd
      have hliteral := literalConditions_block (Or.inl rfl) hn
      exact Block.settles_ifStatements c (by omega) (hinner hbody hliteral.2)
    · have hbody : blockDepthAll body + 1 ≤ d := by
        simpa [Statement.whileNonzero, Statement.arguments, blockDepth] using hd
      have hliteral := literalConditions_block (Or.inr rfl) hn
      exact desugaringSteps_leavesPrimitives.whileStatements c (hinner hbody hliteral.2)

end Node

/-! ## Rounds and the recursion -/

namespace Desugaring

/-- A round over the body that rounds have led to changes nothing. -/
theorem round_of_roundsFrom {done limit k : Nat} {body out : List Node}
    (h : roundsFrom done limit body = .ok (some (out, k))) : round out = .ok (out, false) := by
  induction limit generalizing done body with
  | zero => cases h
  | succ limit ih =>
    rw [roundsFrom] at h
    obtain ⟨⟨next, changed⟩, hround, h⟩ := except_bind_eq_ok.1 h
    cases changed with
    | true => exact ih h
    | false =>
      cases h
      obtain ⟨rfl, -⟩ := Rewrites.applyRules_unchanged hround
      exact hround

/-- **Rounds of desugaring make what one recursion over the blocks makes.** If the conditions of all
blocks of a body are literals, the rounds never fail, and there is a number of rounds, at most two
more than the blocks are nested, such that every limit from that number on leads to the same: the
statements that the recursion makes, after just that many rounds. A lower limit leads to nothing.
One more round over the result changes nothing. -/
theorem rounds_reach_structural_desugaring (body : List Node)
    (h : Node.literalConditionsAll body = true) :
    ∃ rounds, rounds ≤ Node.blockDepthAll body + 2 ∧
      (∀ limit, fixedPoint limit body =
        .ok (if rounds ≤ limit then some (Node.desugaredAll body, rounds) else none)) ∧
      round (Node.desugaredAll body) = .ok (Node.desugaredAll body, false) := by
  have hsettles : ∀ n ∈ body, Settles desugaringSteps (Node.blockDepthAll body + 1) n := by
    intro n hn
    rw [Node.literalConditionsAll_eq, List.all_eq_true] at h
    exact Node.settles_of_blockDepth (Node.blockDepth_le_of_mem hn) (h n hn)
  obtain ⟨out, rounds, -, hle, heq⟩ := roundsFrom_eq_of_settles hsettles 0
  simp only [Nat.zero_add] at hle heq
  have hlast : roundsFrom 0 rounds body = .ok (some (out, rounds)) := by
    rw [heq, if_pos (Nat.le_refl rounds)]
  obtain ⟨d, hrewrites⟩ := rewrites_of_roundsFrom hlast
  obtain rfl := hrewrites.eq_desugaredAll
  exact ⟨rounds, hle, heq, round_of_roundsFrom hlast⟩

/-- A conditional in a loop, beside a conditional without parts, which is no block: all four rounds
are needed. -/
theorem rounds_reach_structural_desugaring_loop :
    ∃ body out, body =
        [Statement.whileNonzero "x" [Statement.ifNonzero "y" [Statement.localCell "z"]],
         .compound .ifBlock []] ∧
      out =
        [.compound .envBegin [],
         directCall "begin_loop" [.literal "x"],
         .compound .envBegin [],
         .compound .envDeclare [hiddenCell],
         .compound .envSet [hiddenCell, .compound .allocateLocal []],
         .compound .freeLocalOnEnvExit [.compound .envGet [hiddenCell]],
         directCall "copy" [.literal "y", hiddenCell],
         directCall "begin_loop" [hiddenCell],
         .compound .envDeclare [.literal "z"],
         .compound .envSet [.literal "z", .compound .allocateLocal []],
         .compound .freeLocalOnEnvExit [.compound .envGet [.literal "z"]],
         directCall "clear" [hiddenCell],
         directCall "end_loop" [hiddenCell],
         .compound .envEnd [],
         directCall "end_loop" [.literal "x"],
         .compound .envEnd [],
         .compound .ifBlock []] ∧
      Node.literalConditionsAll body = true ∧ Node.blockDepthAll body = 2 ∧
      fixedPoint 3 body = .ok none ∧
      (∀ limit, 4 ≤ limit → fixedPoint limit body = .ok (some (out, 4))) ∧
      round out = .ok (out, false) := by
  refine ⟨_, _, rfl, rfl, rfl, rfl, rfl, ?_⟩
  obtain ⟨rounds, hle, heq, hround⟩ := rounds_reach_structural_desugaring
    [Statement.whileNonzero "x" [Statement.ifNonzero "y" [Statement.localCell "z"]],
     .compound .ifBlock []] rfl
  have hthree : ¬ rounds ≤ 3 := by
    intro h
    have hsome := heq 3
    rw [if_pos h] at hsome
    cases hsome
  obtain rfl : rounds = 4 := Nat.le_antisymm hle (Nat.lt_of_not_le hthree)
  refine ⟨fun limit hlimit => ?_, hround⟩
  have hlimited := heq limit
  rw [if_pos hlimit] at hlimited
  exact hlimited

end Desugaring

end TapeToolchain
