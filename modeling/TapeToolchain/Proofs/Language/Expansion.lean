import TapeToolchain.Proofs.Expansion.Desugared
import TapeToolchain.Proofs.Language.Syntax

/-!
What expansion makes of a block. Desugaring turns each local cell into three primitives and each
conditional and loop into a scope of its own (`Block.desugared`); inlining puts the body of the
callee in the place of a call, in a scope that binds the parameters (`Expands`).
-/

namespace TapeToolchain

open Desugaring (localStatements conditionCopy whileStatements ifStatements)

/-- The declarations of parameters, each bound to what its argument means outside. -/
def bindParameters (params : List String) (arguments : List Atom) : List Node :=
  (List.zipWith Inlining.bindParameter (params.map .visible) (arguments.map .literal)).flatten

/-- A call whose callee's body is expanded already. -/
def expandedCall (params : List String) (arguments : List Atom) (inner : List Node) : List Node :=
  Statement.inScope (bindParameters params arguments ++ Statement.inScope inner)

/-- The block with everything desugared and no call inlined. -/
def Block.desugared : Block → List Node
  | done => []
  | localCell x rest => localStatements (.literal x) ++ rest.desugared
  | ifNonzero c body rest => expandedIf c body.desugared ++ rest.desugared
  | whileNonzero c body rest => whileStatements c body.desugared ++ rest.desugared
  | call f args rest => Statement.call f args :: rest.desugared
  | builtin b args rest => Statement.invoke b args :: rest.desugared

/-- The terms are the block with everything desugared and every call inlined. -/
inductive Expands (p : MacroProgram) : Block → List Node → Prop where
  | done : Expands p .done []
  | localCell {x : String} {rest : Block} {out : List Node} :
      Expands p rest out → Expands p (.localCell x rest) (localStatements (.literal x) ++ out)
  | ifNonzero {c : Atom} {body rest : Block} {inner out : List Node} :
      Expands p body inner → Expands p rest out →
      Expands p (.ifNonzero c body rest) (expandedIf c inner ++ out)
  | whileNonzero {c : Atom} {body rest : Block} {inner out : List Node} :
      Expands p body inner → Expands p rest out →
      Expands p (.whileNonzero c body rest) (whileStatements c inner ++ out)
  | callMacro {f : String} {args : List Atom} {m : Macro} {rest : Block} {inner out : List Node} :
      p.find? f = some m → m.params.length = args.length → Expands p m.body inner →
      Expands p rest out → Expands p (.call f args rest) (expandedCall m.params args inner ++ out)
  | callBuiltin {f : String} {args : List Atom} {b : Builtin} {rest : Block} {out : List Node} :
      p.find? f = none → Builtin.ofName? f = some b → Expands p rest out →
      Expands p (.call f args rest) (Statement.invoke b args :: out)
  | builtin {b : Builtin} {args : List Atom} {rest : Block} {out : List Node} :
      Expands p rest out → Expands p (.builtin b args rest) (Statement.invoke b args :: out)

/-! ## Desugaring a block -/

theorem Block.desugaredAll_nodes (block : Block) :
    Node.desugaredAll block.nodes = block.desugared := by
  induction block with
  | done => rfl
  | localCell x rest ih =>
    rw [desugared, ← ih]
    rfl
  | ifNonzero c body rest ihbody ihrest =>
    rw [nodes, Node.desugaredAll, Node.desugared_ifNonzero, ihbody, ihrest, desugared]
  | whileNonzero c body rest ihbody ihrest =>
    rw [nodes, Node.desugaredAll, Node.desugared_whileNonzero, ihbody, ihrest, desugared]
  | call f args rest ih | builtin b args rest ih =>
    rw [desugared, ← ih]
    rfl

/-- Whatever the rounds were, a desugared block is its desugared form. -/
theorem Block.desugared_of_rewrites (block : Block) {d : Nat} {out : List Node}
    (h : Rewrites desugaringSteps d block.nodes out) : out = block.desugared := by
  rw [h.eq_desugaredAll, block.desugaredAll_nodes]

/-- The desugared form of a macro of the program. -/
theorem desugar_eq_ok {p : MacroProgram} {limit : Nat} {name : String} {d : Definition}
    (h : p.table.desugar limit name = .ok d) :
    ∃ m, p.find? name = some m ∧
      d = ⟨m.name, m.params.map .visible, Statement.inScope m.body.desugared⟩ := by
  obtain ⟨source, body, rounds, hsource, hfix, rfl⟩ := MacroTable.desugar_ok_iff.1 h
  rw [p.find?_table] at hsource
  obtain ⟨m, hm, rfl⟩ := Option.map_eq_some_iff.1 hsource
  obtain ⟨depth, hdepth⟩ := rewrites_of_roundsFrom hfix
  exact ⟨m, hm, by rw [m.body.desugared_of_rewrites hdepth]; rfl⟩

/-! ## Inlining a block -/

section
variable {t : MacroTable} {desugar : String → Except CompileError Definition}

theorem inline?_none {tag : Tag} (h : .callMacro ≠ tag) (children : List Node) :
    ∀ f ∈ [Inlining.inline? t desugar], f (.compound tag children) = .ok none := by
  intro f hf
  rw [List.mem_singleton.1 hf, Inlining.inline?, Inlining.callPattern, match?_compound h]
  rfl

theorem inline?_call (f : String) (args : List Atom) :
    Inlining.inline? t desugar (Statement.call f args) =
      (Inlining.expandCall t desugar f (args.map .literal)).map some := rfl

theorem inlines_inScope {d : Nat} {body rest out : List Node}
    (h : Rewrites [Inlining.inline? t desugar] d (Statement.inScope body ++ rest) out) :
    ∃ inner out', out = Statement.inScope inner ++ out' ∧
      Rewrites [Inlining.inline? t desugar] d body inner ∧
      Rewrites [Inlining.inline? t desugar] d rest out' := by
  rw [Statement.inScope, List.cons_append] at h
  obtain ⟨u, rfl, hbody⟩ := h.kept (inline?_none (by decide) [])
  rw [List.append_assoc] at hbody
  obtain ⟨inner, v, rfl, hinner, hend⟩ := hbody.split
  obtain ⟨out', rfl, hrest⟩ := hend.kept (inline?_none (by decide) [])
  exact ⟨inner, out', by simp [Statement.inScope], hinner, hrest⟩

theorem inlines_localStatements {d : Nat} {name : Node} {rest out : List Node}
    (h : Rewrites [Inlining.inline? t desugar] d (localStatements name ++ rest) out) :
    ∃ out', out = localStatements name ++ out' ∧
      Rewrites [Inlining.inline? t desugar] d rest out' := by
  refine h.keptAll fun n hn => ?_
  simp only [localStatements, List.mem_cons, List.not_mem_nil, or_false] at hn
  rcases hn with rfl | rfl | rfl
  · exact inline?_none (by decide) _
  · exact inline?_none (by decide) _
  · exact inline?_none (by decide) _

theorem bindParameters_kept (params : List Symbol) (args : List Node) :
    ∀ n ∈ (List.zipWith Inlining.bindParameter params args).flatten,
      ∀ f ∈ [Inlining.inline? t desugar], f n = .ok none := by
  intro n hn
  obtain ⟨group, hgroup, hn⟩ := List.mem_flatten.1 hn
  obtain ⟨param, argument, rfl⟩ : ∃ param argument,
      Inlining.bindParameter param argument = group := by
    obtain ⟨i, hi, rfl⟩ := List.mem_iff_getElem.1 hgroup
    exact ⟨_, _, List.getElem_zipWith.symm⟩
  simp only [Inlining.bindParameter, List.mem_cons, List.not_mem_nil, or_false] at hn
  rcases hn with rfl | rfl
  · exact inline?_none (by decide) _
  · exact inline?_none (by decide) _

/-- What a call of a macro was replaced by keeps its bindings, with the body of the macro
inlined. -/
theorem inlines_callBody {k : Nat} {d : Definition} {args body out : List Node}
    (hd : d.body = Statement.inScope body)
    (h : Rewrites [Inlining.inline? t desugar] k (Inlining.callBody d args) out) :
    ∃ inner, out = Inlining.callBody { d with body := Statement.inScope inner } args ∧
      Rewrites [Inlining.inline? t desugar] k body inner := by
  rw [Inlining.callBody, hd, ← List.append_nil (Statement.inScope _)] at h
  obtain ⟨u₁, out', rfl, hbinds, hnil⟩ := inlines_inScope h
  cases hnil
  obtain ⟨u₂, rfl, hscope⟩ := hbinds.keptAll (bindParameters_kept d.params args)
  rw [← List.append_nil (Statement.inScope body)] at hscope
  obtain ⟨inner, out', rfl, hinner, hnil⟩ := inlines_inScope hscope
  cases hnil
  exact ⟨inner, by simp [Inlining.callBody], hinner⟩

/-- A conditional stays one, with its body inlined. -/
theorem inlines_expandedIf {d : Nat} {c : Atom} {body rest out : List Node}
    (h : Rewrites [Inlining.inline? t desugar] d (expandedIf c body ++ rest) out) :
    ∃ inner out', out = expandedIf c inner ++ out' ∧
      Rewrites [Inlining.inline? t desugar] d body inner ∧
      Rewrites [Inlining.inline? t desugar] d rest out' := by
  rw [expandedIf] at h
  obtain ⟨inner, out', rfl, hinner, hrest⟩ := inlines_inScope h
  simp only [List.append_assoc, List.cons_append, List.nil_append] at hinner
  obtain ⟨u₁, rfl, hcopy⟩ := inlines_localStatements hinner
  obtain ⟨u₂, rfl, hbegin⟩ := hcopy.kept (inline?_none (by decide) _)
  obtain ⟨u₃, rfl, hloop⟩ := hbegin.kept (inline?_none (by decide) _)
  obtain ⟨o, u₄, rfl, hbody, hclear⟩ := hloop.split
  obtain ⟨u₅, rfl, hend⟩ := hclear.kept (inline?_none (by decide) _)
  obtain ⟨u₆, rfl, hnil⟩ := hend.kept (inline?_none (by decide) _)
  cases hnil
  exact ⟨o, out', by simp [expandedIf], hbody, hrest⟩

/-- A loop stays one, with its body inlined. -/
theorem inlines_whileStatements {d : Nat} {c : Atom} {body rest out : List Node}
    (h : Rewrites [Inlining.inline? t desugar] d (whileStatements c body ++ rest) out) :
    ∃ inner out', out = whileStatements c inner ++ out' ∧
      Rewrites [Inlining.inline? t desugar] d body inner ∧
      Rewrites [Inlining.inline? t desugar] d rest out' := by
  rw [whileStatements] at h
  obtain ⟨inner, out', rfl, hinner, hrest⟩ := inlines_inScope h
  simp only [List.cons_append, List.nil_append] at hinner
  obtain ⟨u₁, rfl, hloop⟩ := hinner.kept (inline?_none (by decide) _)
  obtain ⟨o, u₂, rfl, hbody, hend⟩ := hloop.split
  obtain ⟨u₃, rfl, hnil⟩ := hend.kept (inline?_none (by decide) _)
  cases hnil
  exact ⟨o, out', by simp [whileStatements], hbody, hrest⟩

theorem inlines_expandedCall {d : Nat} {params : List String} {args : List Atom}
    {body out : List Node}
    (h : Rewrites [Inlining.inline? t desugar] d (expandedCall params args body) out) :
    ∃ inner, out = expandedCall params args inner ∧
      Rewrites [Inlining.inline? t desugar] d body inner :=
  @inlines_callBody t desugar d ⟨"", params.map .visible, Statement.inScope body⟩
    (args.map .literal) body out rfl h

/-- A call does not stay: the rounds go on in what it is replaced by. -/
theorem inlines_call {d : Nat} {f : String} {args : List Atom} {rest out : List Node}
    (h : Rewrites [Inlining.inline? t desugar] d (Statement.call f args :: rest) out) :
    ∃ d' new out₁ out₂, d' < d ∧ Inlining.expandCall t desugar f (args.map .literal) = .ok new ∧
      out = out₁ ++ out₂ ∧ Rewrites [Inlining.inline? t desugar] d' new out₁ ∧
      Rewrites [Inlining.inline? t desugar] d rest out₂ := by
  cases h with
  | keep hnone h =>
    have hcall := hnone _ List.mem_cons_self
    rw [inline?_call] at hcall
    cases hc : Inlining.expandCall t desugar f (args.map .literal) with
    | error c => rw [hc] at hcall; cases hcall
    | ok new => rw [hc] at hcall; cases hcall
  | @replace d' g _ new _ out₁ out₂ hg hcall hnew h =>
    rw [List.mem_singleton.1 hg, inline?_call] at hcall
    cases hc : Inlining.expandCall t desugar f (args.map .literal) with
    | error c => rw [hc] at hcall; cases hcall
    | ok new' =>
      rw [hc] at hcall
      cases hcall
      exact ⟨d', new, out₁, out₂, Nat.lt_succ_self d', rfl, rfl, hnew, h⟩

end

theorem builtinCall_eq (b : Builtin) (args : List Atom) :
    Inlining.builtinCall b (args.map .literal) = Statement.invoke b args := rfl

/-- What a call is replaced by. -/
theorem expandCall_eq_ok {p : MacroProgram} {limit : Nat} {f : String} {args : List Atom}
    {new : List Node}
    (h : Inlining.expandCall p.table (p.table.desugar limit) f (args.map .literal) = .ok new) :
    (∃ m, p.find? f = some m ∧ m.params.length = args.length ∧
      new = expandedCall m.params args m.body.desugared) ∨
    ∃ b, p.find? f = none ∧ Builtin.ofName? f = some b ∧ new = [Statement.invoke b args] := by
  rw [Inlining.expandCall, p.find?_table] at h
  cases hm : p.find? f with
  | none =>
    rw [hm] at h
    cases hb : Builtin.ofName? f with
    | none => simp only [Option.map_none, hb] at h; cases h
    | some b =>
      simp only [Option.map_none, hb] at h
      cases h
      exact Or.inr ⟨b, rfl, rfl, by rw [builtinCall_eq]⟩
  | some m =>
    rw [hm] at h
    obtain ⟨d, hd, h⟩ := except_bind_eq_ok.1 h
    obtain ⟨m', hm', rfl⟩ := desugar_eq_ok hd
    obtain rfl : m = m' := by rw [hm] at hm'; cases hm'; rfl
    simp only [List.length_map] at h
    split at h
    · next hlen =>
      cases h
      exact Or.inl ⟨m, rfl, hlen, rfl⟩
    · cases h

/-- A desugared block with its calls inlined is an expansion of the block. The outer induction is on
how often calls are replaced in a row, since the body of a callee is no part of the block. -/
theorem Expands.of_rewrites {p : MacroProgram} {limit : Nat} (d : Nat) :
    ∀ {block : Block} {out : List Node},
      Rewrites [Inlining.inline? p.table (p.table.desugar limit)] d block.desugared out →
      Expands p block out := by
  induction d using Nat.strongRecOn with
  | ind d ihd =>
    intro block
    induction block with
    | done => intro out h; cases h; exact .done
    | localCell x rest ih =>
      intro out h
      obtain ⟨out', rfl, hrest⟩ := inlines_localStatements h
      exact .localCell (ih hrest)
    | ifNonzero c body rest ihbody ihrest =>
      intro out h
      obtain ⟨inner, out', rfl, hbody, hrest⟩ := inlines_expandedIf h
      exact .ifNonzero (ihbody hbody) (ihrest hrest)
    | whileNonzero c body rest ihbody ihrest =>
      intro out h
      obtain ⟨inner, out', rfl, hbody, hrest⟩ := inlines_whileStatements h
      exact .whileNonzero (ihbody hbody) (ihrest hrest)
    | call f args rest ih =>
      intro out h
      obtain ⟨d', new, out₁, out₂, hlt, hcall, rfl, hnew, hrest⟩ := inlines_call h
      rcases expandCall_eq_ok hcall with ⟨m, hm, hlen, rfl⟩ | ⟨b, hm, hb, rfl⟩
      · obtain ⟨inner, rfl, hinner⟩ := inlines_expandedCall hnew
        exact .callMacro hm hlen (ihd d' hlt hinner) (ih hrest)
      · obtain ⟨u, rfl, hnil⟩ := hnew.kept (inline?_none (by decide) _)
        cases hnil
        exact .callBuiltin hm hb (ih hrest)
    | builtin b args rest ih =>
      intro out h
      obtain ⟨out', rfl, hrest⟩ := h.kept (inline?_none (by decide) _)
      exact .builtin (ih hrest)

/-- The expanded body of an entry macro is its expanded block in a scope of its own. -/
theorem expand_eq_ok {p : MacroProgram} {limits : RoundLimits} {entry : String} {body : List Node}
    (h : p.table.expand limits entry = .ok body) :
    ∃ m inner, p.find? entry = some m ∧ Expands p m.body inner ∧
      body = Statement.inScope inner := by
  obtain ⟨d, hd, hrounds⟩ := MacroTable.expand_ok_iff.1 h
  obtain ⟨m, hm, rfl⟩ := desugar_eq_ok hd
  obtain ⟨depth, hdepth⟩ := rewrites_of_rounds hrounds
  rw [← List.append_nil (Statement.inScope _)] at hdepth
  obtain ⟨inner, out', rfl, hinner, hnil⟩ := inlines_inScope hdepth
  cases hnil
  exact ⟨m, inner, hm, Expands.of_rewrites depth hinner, List.append_nil _⟩

end TapeToolchain
