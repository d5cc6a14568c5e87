import TapeToolchain.Expansion.Inlining

/-!
What the steps of expansion do, without patterns and captures. Each pattern matches terms of one
shape only and captures all that its action asks for; so a step is a function of the parts of that
shape, and no capture is ever missing.
-/

namespace TapeToolchain

open Desugaring (localStatements ifStatements whileStatements blockPattern)

/-! ## Shapes -/

namespace Node

/-- The only child of a term with the given tag. -/
def only? (tag : Tag) : Node → Option Node
  | .compound found [child] => if tag = found then some child else none
  | _ => none

/-- The children of a term with the given tag. -/
def childrenOf? (tag : Tag) : Node → Option (List Node)
  | .compound found children => if tag = found then some children else none
  | .literal _ => none

/-- The parts of a term with the given tag and two children: the only child of the first, which has
the tag `first`, and the children of the second, which has the tag `second`. -/
def parts? (tag first second : Tag) : Node → Option (Node × List Node)
  | .compound found [a, b] =>
    if tag = found then (a.only? first).bind fun x => (b.childrenOf? second).map (x, ·) else none
  | _ => none

/-- The condition and the statements of a block with the given tag. -/
def block? (tag : Tag) : Node → Option (Node × List Node) :=
  parts? tag .arguments .body

def call? : Node → Option (Node × List Node) :=
  parts? .callMacro .name .arguments

theorem only?_eq_some {tag : Tag} {n child : Node} :
    n.only? tag = some child ↔ n = .compound tag [child] := by
  unfold only?
  split
  · simp [eq_comm]
  · next h => simpa using h tag child

theorem childrenOf?_eq_some {tag : Tag} {n : Node} {children : List Node} :
    n.childrenOf? tag = some children ↔ n = .compound tag children := by
  cases n with
  | literal a => simp [childrenOf?]
  | compound found children => simp [childrenOf?, eq_comm]

theorem parts?_eq_some {tag first second : Tag} {n x : Node} {ys : List Node} :
    n.parts? tag first second = some (x, ys) ↔
      n = .compound tag [.compound first [x], .compound second ys] := by
  unfold parts?
  split
  · next found a b =>
    by_cases htag : tag = found
    · simp [htag, Option.bind_eq_some_iff, only?_eq_some, childrenOf?_eq_some]
    · simp [htag, Ne.symm htag]
  · next h => simpa using h tag (.compound first [x]) (.compound second ys)

theorem block?_eq_some {tag : Tag} {n condition : Node} {body : List Node} :
    n.block? tag = some (condition, body) ↔
      n = .compound tag [.compound .arguments [condition], .compound .body body] :=
  parts?_eq_some

theorem call?_eq_some {n callee : Node} {arguments : List Node} :
    n.call? = some (callee, arguments) ↔
      n = .compound .callMacro [.compound .name [callee], .compound .arguments arguments] :=
  parts?_eq_some

end Node

/-! ## Matching -/

namespace Pattern

theorem matchInto_bind (name : String) (subject : Subject) (b : Bindings) :
    (bind name).matchInto subject b = some (b.insert name subject) := by
  simp [matchInto]

theorem matchInto_compound (head tag : Tag) (items : List Pattern) (children : List Node)
    (b : Bindings) :
    (compound head items).matchInto (.node (.compound tag children)) b =
      if head = tag ∧ children.length = items.length then matchItems items (.seq children) b
        else none := by
  by_cases htag : head = tag <;> by_cases hlength : children.length = items.length <;>
    simp [compound, matchInto, matchItems, Subject.length?, Subject.uncons?, htag, hlength]

theorem matchInto_literal (head : Tag) (items : List Pattern) (a : Atom) (b : Bindings) :
    (compound head items).matchInto (.node (.literal a)) b = none := by
  simp [compound, matchInto, Subject.length?]

theorem matchItems_seq (item : Pattern) (items : List Pattern) (n : Node) (rest : List Node)
    (b : Bindings) :
    matchItems (item :: items) (.seq (n :: rest)) b =
      (item.matchInto (.node n) b).bind fun b => matchItems items (.seq rest) b := by
  simp [matchItems, Subject.uncons?]

theorem matchItems_nil (subject : Subject) (b : Bindings) : matchItems [] subject b = some b := by
  simp [matchItems]

theorem matchInto_only (tag : Tag) (name : String) (n : Node) (b : Bindings) :
    (compound tag [.bind name]).matchInto (.node n) b =
      (n.only? tag).map fun child => b.insert name (.node child) := by
  match n with
  | .literal a => exact matchInto_literal ..
  | .compound found [] => simp [matchInto_compound, Node.only?]
  | .compound found [child] =>
    by_cases h : tag = found <;>
      simp [matchInto_compound, matchItems_seq, matchItems_nil, matchInto_bind, Node.only?, h]
  | .compound found (_ :: _ :: _) => simp [matchInto_compound, Node.only?]

theorem matchInto_children (tag : Tag) (name : String) (n : Node) (b : Bindings) :
    (cons (.tag tag) (.bind name)).matchInto (.node n) b =
      (n.childrenOf? tag).map fun children => b.insert name (.seq children) := by
  cases n with
  | literal a => rfl
  | compound found children =>
    by_cases h : tag = found <;> simp [matchInto, Subject.uncons?, Node.childrenOf?, h]

theorem match?_parts (tag first second : Tag) (x y : String) (n : Node) :
    (compound tag [compound first [.bind x], cons (.tag second) (.bind y)]).match? (.node n) =
      (n.parts? tag first second).map fun parts =>
        (Bindings.empty.insert x (.node parts.1)).insert y (.seq parts.2) := by
  rw [match?]
  match n with
  | .literal a => exact matchInto_literal ..
  | .compound found [] | .compound found [_] => simp [matchInto_compound, Node.parts?]
  | .compound found (_ :: _ :: _ :: _) => simp [matchInto_compound, Node.parts?]
  | .compound found [a, b] =>
    by_cases h : tag = found
    · rw [matchInto_compound, if_pos ⟨h, rfl⟩, matchItems_seq, matchInto_only, Node.parts?,
        if_pos h]
      cases a.only? first with
      | none => rfl
      | some child =>
        simp only [Option.map_some, Option.bind_some, matchItems_seq, matchItems_nil,
          matchInto_children]
        cases b.childrenOf? second <;> rfl
    · simp [matchInto_compound, Node.parts?, h]

end Pattern

/-! ## Desugaring -/

namespace Desugaring

theorem allocateLocals_replacement? (n : Node) :
    allocateLocals.replacement? n = .ok ((n.only? .localCell).map localStatements) := by
  rw [Rule.replacement?, allocateLocals, Pattern.match?, Pattern.matchInto_only]
  cases n.only? .localCell <;> rfl

/-- The replacement of a block whose condition is a literal. -/
def blockReplacement? (tag : Tag) (statements : Atom → List Node → List Node) (n : Node) :
    Except CompileError (Option (List Node)) :=
  match n.block? tag with
  | none => .ok none
  | some (condition, body) =>
    match condition.atom? with
    | some a => .ok (some (statements a body))
    | none => .error (.typeMismatch .literalCondition condition.render)

theorem blockReplacement?_eq_some {tag : Tag} {statements : Atom → List Node → List Node} {n : Node}
    {new : List Node} (h : blockReplacement? tag statements n = .ok (some new)) :
    ∃ c body, n = .compound tag [Statement.arguments [c], .compound .body body] ∧
      new = statements c body := by
  rw [blockReplacement?] at h
  split at h
  · cases h
  · next condition body hblock =>
    split at h
    · next c hc =>
      cases h
      cases condition with
      | literal a =>
        obtain rfl : a = c := Option.some.inj hc
        exact ⟨a, body, Node.block?_eq_some.1 hblock, rfl⟩
      | compound _ _ => cases hc
    · cases h

theorem expandIfBlock_replacement? (n : Node) :
    expandIfBlock.replacement? n = blockReplacement? .ifBlock ifStatements n := by
  rw [Rule.replacement?, expandIfBlock, blockPattern, Pattern.match?_parts, blockReplacement?,
    Node.block?]
  cases n.parts? .ifBlock .arguments .body with
  | none => rfl
  | some parts =>
    obtain ⟨condition, body⟩ := parts
    cases condition <;> rfl

theorem expandWhileBlock_replacement? (n : Node) :
    expandWhileBlock.replacement? n = blockReplacement? .whileBlock whileStatements n := by
  rw [Rule.replacement?, expandWhileBlock, blockPattern, Pattern.match?_parts, blockReplacement?,
    Node.block?]
  cases n.parts? .whileBlock .arguments .body with
  | none => rfl
  | some parts =>
    obtain ⟨condition, body⟩ := parts
    cases condition <;> rfl

end Desugaring

/-! ## Inlining -/

namespace Inlining

/-- The replacement of a call whose callee is a name. -/
theorem inline?_eq (t : MacroTable) (desugar : String → Except CompileError Definition) (n : Node) :
    inline? t desugar n =
      match n.call? with
      | none => .ok none
      | some (callee, arguments) =>
        match callee.atom? with
        | some (.name symbol) => (expandCall t desugar symbol.text arguments).map some
        | _ => .error (.typeMismatch .macroName callee.render) := by
  rw [inline?, callPattern, Pattern.match?_parts, Node.call?]
  cases n.parts? .callMacro .name .arguments with
  | none => rfl
  | some parts =>
    obtain ⟨callee, arguments⟩ := parts
    match callee with
    | .literal (.name symbol) => rfl
    | .literal (.int _) | .literal (.text _) | .literal (.address _) | .compound _ _ => rfl

end Inlining

end TapeToolchain
