import TapeToolchain.Proofs.Expansion.Rewriting
import TapeToolchain.Proofs.Expansion.Rules

/-!
Desugaring as one recursion. Rounds replace statements at the top level of a body, so that the
statements of a block wait until the block is replaced; `Node.desugared` goes into the blocks at
once. A step of a round does not change what the recursion makes of a body
(`Node.desugaredAll_of_step`), so rounds that come to rest have made just that.
-/

namespace TapeToolchain

open Desugaring (localStatements conditionCopy whileStatements ifStatements)

/-! ## The recursion -/

def directCall (builtin : String) (operands : List Node) : Node :=
  .compound .callBuiltin [.compound .name [.literal builtin], .compound .arguments operands]

/-- The hidden cell of a conditional. -/
def hiddenCell : Node :=
  .literal (.name (.concealed "if_tmp"))

mutual

/-- The statements that a statement is desugared to, those of blocks inside of it included. Whatever
is neither a local cell nor a block stays as it is. -/
def Node.desugared : Node → List Node
  | .compound .localCell [name] =>
    [.compound .envDeclare [name],
     .compound .envSet [name, .compound .allocateLocal []],
     .compound .freeLocalOnEnvExit [.compound .envGet [name]]]
  | .compound .ifBlock [.compound .arguments [.literal c], .compound .body body] =>
    [.compound .envBegin [],
     .compound .envDeclare [hiddenCell],
     .compound .envSet [hiddenCell, .compound .allocateLocal []],
     .compound .freeLocalOnEnvExit [.compound .envGet [hiddenCell]],
     directCall "copy" [.literal c, hiddenCell],
     directCall "begin_loop" [hiddenCell]] ++ Node.desugaredAll body ++
    [directCall "clear" [hiddenCell],
     directCall "end_loop" [hiddenCell],
     .compound .envEnd []]
  | .compound .whileBlock [.compound .arguments [.literal c], .compound .body body] =>
    [.compound .envBegin [], directCall "begin_loop" [.literal c]] ++ Node.desugaredAll body ++
    [directCall "end_loop" [.literal c], .compound .envEnd []]
  | n => [n]

def Node.desugaredAll : List Node → List Node
  | [] => []
  | n :: rest => n.desugared ++ Node.desugaredAll rest

end

/-! ## The recursion and the statements of the rules -/

/-- The name of the hidden copy of a condition, as an operand. -/
def conditionOperand : Atom :=
  .name conditionCopy

/-- A conditional whose body is expanded already. -/
def expandedIf (condition : Atom) (inner : List Node) : List Node :=
  Statement.inScope <|
    localStatements (.literal conditionOperand) ++
    [Statement.invoke .copy [condition, conditionOperand],
     Statement.invoke .beginLoop [conditionOperand]] ++ inner ++
    [Statement.invoke .clear [conditionOperand], Statement.invoke .endLoop [conditionOperand]]

namespace Node

theorem desugared_ifNonzero (c : Atom) (body : List Node) :
    (Statement.ifNonzero c body).desugared = expandedIf c (desugaredAll body) := by
  show _ ++ desugaredAll body ++ _ = Statement.envBegin :: (_ ++ desugaredAll body ++ _ ++ _)
  rw [List.append_assoc (_ ++ desugaredAll body)]
  rfl

theorem desugared_whileNonzero (c : Atom) (body : List Node) :
    (Statement.whileNonzero c body).desugared = whileStatements c (desugaredAll body) := by
  show _ ++ desugaredAll body ++ _ = Statement.envBegin :: (_ ++ desugaredAll body ++ _ ++ _)
  rw [List.append_assoc (_ ++ desugaredAll body)]
  rfl

end Node

/-! ## Which statements are replaced -/

theorem match?_compound {head tag : Tag} (h : head ≠ tag) (items : List Pattern)
    (children : List Node) :
    (Pattern.compound head items).match? (.node (.compound tag children)) = none := by
  simp only [Pattern.match?, Pattern.compound, Pattern.matchInto]
  split
  · simp [Pattern.matchItems, Subject.uncons?, Pattern.matchInto, h]
  · rfl

/-- Only local cells, conditionals and loops are desugared. -/
theorem desugaringSteps_none {tag : Tag}
    (h : .localCell ≠ tag ∧ .ifBlock ≠ tag ∧ .whileBlock ≠ tag) (children : List Node) :
    ∀ f ∈ desugaringSteps, f (.compound tag children) = .ok none := by
  intro f hf
  obtain ⟨hl, hi, hw⟩ := h
  simp only [desugaringSteps, Desugaring.rules, List.map_cons, List.map_nil, List.mem_cons,
    List.not_mem_nil, or_false] at hf
  rcases hf with rfl | rfl | rfl
  · simp only [Rule.replacement?, Desugaring.allocateLocals, match?_compound hl]
  · simp only [Rule.replacement?, Desugaring.expandIfBlock, Desugaring.blockPattern,
      match?_compound hi]
  · simp only [Rule.replacement?, Desugaring.expandWhileBlock, Desugaring.blockPattern,
      match?_compound hw]

theorem desugaringSteps_localCell (name : Node) :
    (∀ f ∈ desugaringSteps, f (.compound .localCell [name]) = .ok none ∨
      f (.compound .localCell [name]) = .ok (some (localStatements name))) ∧
    ∃ f ∈ desugaringSteps, f (.compound .localCell [name]) = .ok (some (localStatements name)) := by
  refine ⟨?_, _, List.mem_cons_self, rfl⟩
  simp only [desugaringSteps, Desugaring.rules, List.map_cons, List.map_nil, List.forall_mem_cons]
  exact ⟨Or.inr rfl, Or.inl rfl, Or.inl rfl, nofun⟩

theorem desugaringSteps_ifNonzero (c : Atom) (body : List Node) :
    (∀ f ∈ desugaringSteps, f (Statement.ifNonzero c body) = .ok none ∨
      f (Statement.ifNonzero c body) = .ok (some (ifStatements c body))) ∧
    ∃ f ∈ desugaringSteps, f (Statement.ifNonzero c body) = .ok (some (ifStatements c body)) := by
  refine ⟨?_, _, List.mem_cons_of_mem _ List.mem_cons_self, rfl⟩
  simp only [desugaringSteps, Desugaring.rules, List.map_cons, List.map_nil, List.forall_mem_cons]
  exact ⟨Or.inl rfl, Or.inr rfl, Or.inl rfl, nofun⟩

theorem desugaringSteps_whileNonzero (c : Atom) (body : List Node) :
    (∀ f ∈ desugaringSteps, f (Statement.whileNonzero c body) = .ok none ∨
      f (Statement.whileNonzero c body) = .ok (some (whileStatements c body))) ∧
    ∃ f ∈ desugaringSteps, f (Statement.whileNonzero c body) =
      .ok (some (whileStatements c body)) := by
  refine ⟨?_, _, List.mem_cons_of_mem _ (List.mem_cons_of_mem _ List.mem_cons_self), rfl⟩
  simp only [desugaringSteps, Desugaring.rules, List.map_cons, List.map_nil, List.forall_mem_cons]
  exact ⟨Or.inl rfl, Or.inl rfl, Or.inr rfl, nofun⟩

namespace Node

theorem desugaredAll_eq (body : List Node) : desugaredAll body = body.flatMap desugared := by
  induction body with
  | nil => rfl
  | cons n rest ih => rw [desugaredAll, ih, List.flatMap_cons]

/-- What a step replaces, and by what. -/
theorem cases_of_step {f : Replacement} (hf : f ∈ desugaringSteps) {n : Node} {new : List Node}
    (h : f n = .ok (some new)) :
    (∃ name, n = .compound .localCell [name] ∧ new = localStatements name) ∨
      (∃ c body, n = Statement.ifNonzero c body ∧ new = ifStatements c body) ∨
      ∃ c body, n = Statement.whileNonzero c body ∧ new = whileStatements c body := by
  simp only [desugaringSteps, Desugaring.rules, List.map_cons, List.map_nil, List.mem_cons,
    List.not_mem_nil, or_false] at hf
  rcases hf with rfl | rfl | rfl
  · rw [Desugaring.allocateLocals_replacement?] at h
    obtain ⟨name, hname, rfl⟩ := Option.map_eq_some_iff.1 (Except.ok.inj h)
    exact Or.inl ⟨name, only?_eq_some.1 hname, rfl⟩
  · rw [Desugaring.expandIfBlock_replacement?] at h
    obtain ⟨c, body, hn, rfl⟩ := Desugaring.blockReplacement?_eq_some h
    exact Or.inr (Or.inl ⟨c, body, hn, rfl⟩)
  · rw [Desugaring.expandWhileBlock_replacement?] at h
    obtain ⟨c, body, hn, rfl⟩ := Desugaring.blockReplacement?_eq_some h
    exact Or.inr (Or.inr ⟨c, body, hn, rfl⟩)

/-- A step does not change what the recursion leads to. -/
theorem desugaredAll_of_step {f : Replacement} (hf : f ∈ desugaringSteps) {n : Node}
    {new : List Node} (h : f n = .ok (some new)) : desugaredAll new = n.desugared := by
  rcases cases_of_step hf h with ⟨name, rfl, rfl⟩ | ⟨c, body, rfl, rfl⟩ | ⟨c, body, rfl, rfl⟩
  · simp [localStatements, desugared, desugaredAll]
  · rw [desugared_ifNonzero]
    simp [ifStatements, expandedIf, conditionOperand, Statement.inScope, Statement.envBegin,
      Statement.envEnd, Statement.invoke, localStatements, desugaredAll_eq, desugared]
  · rw [desugared_whileNonzero]
    simp [whileStatements, Statement.inScope, Statement.envBegin, Statement.envEnd,
      Statement.invoke, desugaredAll_eq, desugared]

theorem desugared_of_kept {n : Node} (h : ∀ f ∈ desugaringSteps, f n = .ok none) :
    n.desugared = [n] := by
  have hreplaced : ∀ {new : List Node}, (∃ f ∈ desugaringSteps, f n = .ok (some new)) →
      n.desugared = [n] := by
    intro new ⟨f, hf, hnew⟩
    rw [h f hf] at hnew
    cases hnew
  unfold desugared
  split
  · exact hreplaced (desugaringSteps_localCell _).2
  · exact hreplaced (desugaringSteps_ifNonzero _ _).2
  · exact hreplaced (desugaringSteps_whileNonzero _ _).2
  · rfl

end Node

/-- What the steps of desugaring lead to is what the recursion makes. -/
theorem Rewrites.eq_desugaredAll {d : Nat} {body out : List Node}
    (h : Rewrites desugaringSteps d body out) : out = Node.desugaredAll body := by
  induction h with
  | nil => rfl
  | keep hn _ ih => rw [Node.desugaredAll, Node.desugared_of_kept hn, ih]; rfl
  | replace hf hn _ _ ih₁ ih₂ => rw [Node.desugaredAll, ← Node.desugaredAll_of_step hf hn, ih₁, ih₂]

end TapeToolchain
