import TapeToolchain.Proofs.Actions
import TapeToolchain.Proofs.Expansion.Rules
import TapeToolchain.Proofs.Preliminaries

/-!
Expansion does not look at variables. It reads the tags of terms, the names of callees and the
number of arguments; which variable stands in an operand, a declaration or a parameter list makes no
difference to whether it succeeds, nor to the shape of what it makes (`expand_agree`).
-/

namespace TapeToolchain

/-! ## Shapes -/

/-- The atom without the name of a variable. -/
def Atom.shape : Atom → Atom
  | .name _ => .name (.visible "")
  | a => a

mutual

/-- The term without the names of its variables. The name of a macro or a built-in is none. -/
def Node.shape : Node → Node
  | .literal a => .literal a.shape
  | .compound .name children => .compound .name children
  | .compound tag children => .compound tag (Node.shapeAll children)

def Node.shapeAll : List Node → List Node
  | [] => []
  | n :: rest => n.shape :: Node.shapeAll rest

end

def shapes (body : List Node) : List Node :=
  body.map Node.shape

/-- What expansion sees of a definition. -/
def Definition.shape (d : Definition) : String × Nat × List Node :=
  (d.name, d.params.length, shapes d.body)

/-- What expansion sees of a table. -/
def MacroTable.shape (t : MacroTable) : List (String × Nat × List Node) :=
  t.definitions.map Definition.shape

theorem Definition.shape_eq {d d' : Definition} (h : d.shape = d'.shape) :
    d.name = d'.name ∧ d.params.length = d'.params.length ∧ shapes d.body = shapes d'.body := by
  simpa [shape] using h

theorem Node.shapeAll_eq (nodes : List Node) : Node.shapeAll nodes = shapes nodes := by
  induction nodes with
  | nil => rfl
  | cons n rest ih => rw [Node.shapeAll, ih]; rfl

theorem Node.shape_compound {tag : Tag} (h : tag ≠ .name) (children : List Node) :
    (Node.compound tag children).shape = .compound tag (shapes children) := by
  rw [← shapeAll_eq]
  cases tag <;> first | contradiction | rfl

@[simp] theorem shapes_nil : shapes [] = [] := rfl

@[simp] theorem shapes_cons (n : Node) (rest : List Node) :
    shapes (n :: rest) = n.shape :: shapes rest := rfl

@[simp] theorem shapes_append (a b : List Node) : shapes (a ++ b) = shapes a ++ shapes b :=
  List.map_append

theorem Node.atom?_shape (n : Node) : n.shape.atom? = n.atom?.map Atom.shape := by
  cases n with
  | literal a => rfl
  | compound tag children => cases tag <;> rfl

/-! ## Parts -/

namespace Node

theorem only?_shape {tag : Tag} (h : tag ≠ .name) (n : Node) :
    n.shape.only? tag = (n.only? tag).map Node.shape := by
  cases n with
  | literal a => rfl
  | compound found children =>
    by_cases hname : found = .name
    · subst hname
      rcases children with _ | ⟨child, _ | ⟨second, rest⟩⟩
      · rfl
      · simp [Node.shape, only?, h]
      · rfl
    · rw [shape_compound hname]
      rcases children with _ | ⟨child, _ | ⟨second, rest⟩⟩
      · rfl
      · by_cases hf : tag = found <;> simp [only?, hf]
      · rfl

theorem only?_name_shape (n : Node) : n.shape.only? .name = n.only? .name := by
  cases n with
  | literal a => rfl
  | compound found children =>
    by_cases hname : found = .name
    · subst hname
      rfl
    · rw [shape_compound hname]
      rcases children with _ | ⟨child, _ | ⟨second, rest⟩⟩
      · rfl
      · simp [only?, Ne.symm hname]
      · rfl

theorem childrenOf?_shape {tag : Tag} (h : tag ≠ .name) (n : Node) :
    n.shape.childrenOf? tag = (n.childrenOf? tag).map shapes := by
  cases n with
  | literal a => rfl
  | compound found children =>
    by_cases hname : found = .name
    · subst hname
      simp [Node.shape, childrenOf?, h]
    · rw [shape_compound hname]
      by_cases hf : tag = found <;> simp [childrenOf?, hf]

theorem parts?_shape {tag first second : Tag} (h : tag ≠ .name) (hsecond : second ≠ .name)
    (view : Node → Node) (hfirst : ∀ n : Node, n.shape.only? first = (n.only? first).map view)
    (n : Node) :
    n.shape.parts? tag first second =
      (n.parts? tag first second).map fun parts => (view parts.1, shapes parts.2) := by
  cases n with
  | literal a => rfl
  | compound found children =>
    by_cases hname : found = .name
    · subst hname
      rcases children with _ | ⟨a, _ | ⟨b, _ | ⟨third, rest⟩⟩⟩
      · rfl
      · rfl
      · simp [Node.shape, parts?, h]
      · rfl
    · rw [shape_compound hname]
      rcases children with _ | ⟨a, _ | ⟨b, _ | ⟨third, rest⟩⟩⟩
      · rfl
      · rfl
      · by_cases hf : tag = found
        · simp only [shapes_cons, shapes_nil, parts?, if_pos hf, hfirst, childrenOf?_shape hsecond]
          cases a.only? first with
          | none => rfl
          | some x => cases b.childrenOf? second <;> rfl
        · simp [parts?, hf]
      · rfl

theorem block?_shape {tag : Tag} (h : tag ≠ .name) (n : Node) :
    n.shape.block? tag = (n.block? tag).map fun parts => (parts.1.shape, shapes parts.2) :=
  parts?_shape h (by decide) Node.shape (only?_shape (by decide)) n

theorem call?_shape (n : Node) :
    n.shape.call? = n.call?.map fun parts => (parts.1, shapes parts.2) := by
  refine parts?_shape (by decide) (by decide) id (fun m => ?_) n
  rw [only?_name_shape, Option.map_id, id]

end Node

/-! ## Agreement -/

/-- Both computations fail, or both succeed with results that look the same. -/
def Agree {α β : Type} (view : α → β) (x x' : Except CompileError α) : Prop :=
  x.toOption.map view = x'.toOption.map view

namespace Agree

variable {α β γ δ : Type} {view : α → β} {view' : γ → δ} {x x' : Except CompileError α}

theorem ok {a a' : α} (h : view a = view a') : Agree view (.ok a) (.ok a') :=
  congrArg some h

theorem error (c c' : CompileError) : Agree view (.error c) (.error c') :=
  rfl

theorem bind {f f' : α → Except CompileError γ} (hx : Agree view x x')
    (hf : ∀ a a', view a = view a' → Agree view' (f a) (f' a')) :
    Agree view' (x >>= f) (x' >>= f') := by
  cases x with
  | error c =>
    cases x' with
    | error c' => exact error c c'
    | ok a' => cases hx
  | ok a =>
    cases x' with
    | error c' => cases hx
    | ok a' => exact hf a a' (Option.some.inj hx)

theorem map {f : α → γ} (hx : Agree view x x')
    (hf : ∀ a a', view a = view a' → view' (f a) = view' (f a')) :
    Agree view' (x.map f) (x'.map f) :=
  hx.bind fun a a' h => ok (hf a a' h)

end Agree

/-! ## Sweeps -/

/-- The two steps replace statements of the same shape alike. -/
def StepsAgree (f f' : Node → Except CompileError (Option (List Node))) : Prop :=
  ∀ n n', n.shape = n'.shape → Agree (Option.map shapes) (f n) (f' n')

/-- What is seen of a swept body. -/
def sweptShape (result : List Node × Bool) : List Node × Bool :=
  (shapes result.1, result.2)

/-- Sweeps that agree make the same changes, so what comes after them may depend on whether there
were any. -/
theorem Agree.bindSwept {γ δ : Type} {view : γ → δ} {x x' : Except CompileError (List Node × Bool)}
    {f f' : List Node × Bool → Except CompileError γ} (hx : Agree sweptShape x x')
    (hf : ∀ body body' changed, shapes body = shapes body' →
      Agree view (f (body, changed)) (f' (body', changed))) :
    Agree view (x >>= f) (x' >>= f') := by
  refine hx.bind ?_
  rintro ⟨body, changed⟩ ⟨body', changed'⟩ hresult
  obtain ⟨hbody, rfl⟩ : shapes body = shapes body' ∧ changed = changed' := Prod.mk.inj hresult
  exact hf body body' changed hbody

theorem sweep_agree {f f' : Node → Except CompileError (Option (List Node))} (h : StepsAgree f f') :
    ∀ {body body' : List Node}, shapes body = shapes body' →
      Agree sweptShape (sweep f body) (sweep f' body')
  | [], [], _ => .ok rfl
  | n :: rest, n' :: rest', hbody => by
    obtain ⟨hn, hrest⟩ := List.cons.inj hbody
    refine (h n n' hn).bind fun new new' hnew =>
      (sweep_agree h hrest).bindSwept fun swept swept' changed hswept => ?_
    rcases Option.cases_of_map_eq hnew with ⟨rfl, rfl⟩ | ⟨added, added', rfl, rfl, hadded⟩
    · exact .ok (by simp only [sweptShape, shapes_cons, hn, hswept])
    · exact .ok (by simp only [sweptShape, shapes_append, hadded, hswept])
  | [], _ :: _, hbody | _ :: _, [], hbody => by cases hbody

/-! ## Desugaring -/

namespace Desugaring

theorem shapes_localStatements (name : Node) :
    shapes (localStatements name) = localStatements name.shape := by
  simp [localStatements, Node.shape_compound]

theorem shape_invoke (b : Builtin) (atoms : List Atom) :
    (Statement.invoke b atoms).shape = Statement.invoke b (atoms.map Atom.shape) := by
  have harguments : shapes (atoms.map .literal) = (atoms.map Atom.shape).map .literal := by
    simp [shapes, Function.comp_def, Node.shape]
  rw [Statement.invoke, Node.shape_compound (by decide), shapes_cons, shapes_cons, shapes_nil,
    Statement.arguments, Node.shape_compound (by decide), harguments]
  rfl

theorem shapes_inScope (body : List Node) :
    shapes (Statement.inScope body) = Statement.inScope (shapes body) := by
  rw [Statement.inScope, shapes_cons, shapes_append]
  rfl

theorem allocateLocals_agree :
    StepsAgree allocateLocals.replacement? allocateLocals.replacement? := by
  intro n n' h
  have honly : (n.only? .localCell).map Node.shape = (n'.only? .localCell).map Node.shape := by
    rw [← Node.only?_shape (by decide), ← Node.only?_shape (by decide), h]
  rw [allocateLocals_replacement?, allocateLocals_replacement?]
  rcases Option.cases_of_map_eq honly with ⟨hn, hn'⟩ | ⟨name, name', hn, hn', hname⟩
  · rw [hn, hn']
    exact .ok rfl
  · rw [hn, hn']
    refine .ok (congrArg some ?_)
    rw [shapes_localStatements, shapes_localStatements, hname]

/-- A block is replaced by statements whose shape is given by those of its condition and its
body. -/
theorem blockReplacement?_agree {tag : Tag} (htag : tag ≠ .name)
    {statements : Atom → List Node → List Node}
    (hstatements : ∀ a a' body body', a.shape = a'.shape → shapes body = shapes body' →
      shapes (statements a body) = shapes (statements a' body')) :
    StepsAgree (blockReplacement? tag statements) (blockReplacement? tag statements) := by
  intro n n' h
  have hblock := n.block?_shape htag
  rw [h, n'.block?_shape htag] at hblock
  rw [blockReplacement?, blockReplacement?]
  rcases Option.cases_of_map_eq hblock with ⟨hn', hn⟩ | ⟨⟨condition', body'⟩, ⟨condition, body⟩,
    hn', hn, hparts⟩
  · rw [hn, hn']
    exact .ok rfl
  · obtain ⟨hcondition, hbody⟩ := Prod.mk.inj hparts
    have hatom := condition.atom?_shape
    rw [← hcondition, condition'.atom?_shape] at hatom
    simp only [hn, hn']
    rcases Option.cases_of_map_eq hatom with ⟨hc', hc⟩ | ⟨a', a, hc', hc, ha⟩
    · simp only [hc, hc']
      exact .error _ _
    · simp only [hc, hc']
      exact .ok (congrArg some (hstatements _ _ _ _ ha.symm hbody.symm))

theorem expandIfBlock_agree : StepsAgree expandIfBlock.replacement? expandIfBlock.replacement? := by
  intro n n' h
  rw [expandIfBlock_replacement?, expandIfBlock_replacement?]
  refine blockReplacement?_agree (by decide) (fun a a' body body' ha hbody => ?_) n n' h
  simp only [ifStatements, shapes_inScope, shapes_append, shapes_cons, shape_invoke, List.map_cons,
    ha, hbody]

theorem expandWhileBlock_agree :
    StepsAgree expandWhileBlock.replacement? expandWhileBlock.replacement? := by
  intro n n' h
  rw [expandWhileBlock_replacement?, expandWhileBlock_replacement?]
  refine blockReplacement?_agree (by decide) (fun a a' body body' ha hbody => ?_) n n' h
  simp only [whileStatements, shapes_inScope, shapes_append, shapes_cons, shape_invoke,
    List.map_cons, ha, hbody]

theorem applyRules_agree : ∀ {rules : List Rule},
    (∀ rule ∈ rules, StepsAgree rule.replacement? rule.replacement?) →
    ∀ {body body' : List Node}, shapes body = shapes body' →
      Agree sweptShape (applyRules rules body) (applyRules rules body')
  | [], _, _, _, hbody => .ok (congrArg (·, false) hbody)
  | rule :: rest, hrules, body, body', hbody => by
    refine (sweep_agree (hrules rule List.mem_cons_self) hbody).bindSwept
      fun swept swept' changed hswept => ?_
    have hrest := applyRules_agree (fun r hr => hrules r (List.mem_cons_of_mem _ hr)) hswept
    refine hrest.bindSwept fun final final' later hfinal => ?_
    exact .ok (congrArg (·, changed || later) hfinal)

theorem rules_agree : ∀ rule ∈ rules.map (·.2), StepsAgree rule.replacement? rule.replacement? := by
  simp only [rules, List.map_cons, List.map_nil, List.forall_mem_cons]
  exact ⟨allocateLocals_agree, expandIfBlock_agree, expandWhileBlock_agree, nofun⟩

theorem roundsFrom_agree (done limit : Nat) {body body' : List Node}
    (h : shapes body = shapes body') :
    Agree (Option.map fun result => (shapes result.1, result.2)) (roundsFrom done limit body)
      (roundsFrom done limit body') := by
  induction limit generalizing done body body' with
  | zero => exact .ok rfl
  | succ limit ih =>
    refine (applyRules_agree rules_agree h).bindSwept fun next next' changed hnext => ?_
    cases changed with
    | true => exact ih (done + 1) hnext
    | false => exact .ok (congrArg (fun body => some (body, done + 1)) hnext)

end Desugaring

/-! ## Tables -/

section
variable {t t' : MacroTable} (h : t.shape = t'.shape)
include h

theorem find?_shape (name : String) :
    (t.find? name).map Definition.shape = (t'.find? name).map Definition.shape := by
  have hfind : ∀ u : MacroTable, (u.find? name).map Definition.shape = u.shape.find? fun d =>
      d.1 == name := by
    intro u
    rw [MacroTable.shape, List.find?_map]
    rfl
  rw [hfind, hfind, h]

theorem desugar_agree (limit : Nat) (name : String) :
    Agree Definition.shape (t.desugar limit name) (t'.desugar limit name) := by
  rw [MacroTable.desugar, MacroTable.desugar]
  rcases Option.cases_of_map_eq (find?_shape h name) with ⟨hd, hd'⟩ | ⟨d, d', hd, hd', hshape⟩
  · rw [hd, hd']
    exact .error _ _
  · rw [hd, hd']
    obtain ⟨hname, hparams, hbody⟩ := Definition.shape_eq hshape
    refine (Desugaring.roundsFrom_agree 0 limit hbody).bind fun result result' hresult => ?_
    rcases Option.cases_of_map_eq hresult
      with ⟨rfl, rfl⟩ | ⟨⟨body, k⟩, ⟨body', k'⟩, rfl, rfl, hrounds⟩
    · exact .error _ _
    · refine .ok ?_
      simp only [Definition.shape, Desugaring.shapes_inScope, hname, hparams,
        (Prod.mk.inj hrounds).1]

/-! ## Inlining -/

omit h in
theorem Inlining.shapes_bindParameters : ∀ {params params' : List Symbol} {args args' : List Node},
    params.length = params'.length → shapes args = shapes args' →
    shapes (List.zipWith bindParameter params args).flatten =
      shapes (List.zipWith bindParameter params' args').flatten
  | [], [], _, _, _, _ => rfl
  | _ :: _, _ :: _, [], [], _, _ => rfl
  | x :: params, x' :: params', a :: args, a' :: args', hlength, hargs => by
    obtain ⟨ha, hrest⟩ := List.cons.inj hargs
    have hfirst : shapes (bindParameter x a) = shapes (bindParameter x' a') := by
      simp [bindParameter, Node.shape, Node.shapeAll_eq, Atom.shape, ha]
    rw [List.zipWith_cons_cons, List.zipWith_cons_cons, List.flatten_cons, List.flatten_cons,
      shapes_append, shapes_append, hfirst, shapes_bindParameters (Nat.succ.inj hlength) hrest]
  | [], _ :: _, _, _, hlength, _ | _ :: _, [], _, _, hlength, _ => by cases hlength
  | _ :: _, _ :: _, [], _ :: _, _, hargs | _ :: _, _ :: _, _ :: _, [], _, hargs => by cases hargs

variable {desugar desugar' : String → Except CompileError Definition}
variable (hdesugar : ∀ name, Agree Definition.shape (desugar name) (desugar' name))
include hdesugar

theorem Inlining.expandCall_agree (callee : String) {args args' : List Node}
    (hargs : shapes args = shapes args') :
    Agree shapes (expandCall t desugar callee args) (expandCall t' desugar' callee args') := by
  have hlength : args.length = args'.length := by
    simpa [shapes] using congrArg List.length hargs
  rw [expandCall, expandCall]
  rcases Option.cases_of_map_eq (find?_shape h callee) with ⟨hd, hd'⟩ | ⟨d, d', hd, hd', -⟩
  · rw [hd, hd']
    cases Builtin.ofName? callee with
    | none => exact .error _ _
    | some b =>
      refine .ok ?_
      rw [shapes_cons, shapes_cons, builtinCall, builtinCall, Node.shape_compound (by decide),
        Node.shape_compound (by decide)]
      simp only [shapes_cons, shapes_nil, @Node.shape_compound .arguments (by decide), hargs]
  · rw [hd, hd']
    refine (hdesugar callee).bind fun u u' hshape => ?_
    obtain ⟨-, hparams, hbody⟩ := Definition.shape_eq hshape
    rw [hparams, hlength]
    split
    · refine .ok ?_
      rw [callBody, callBody, Desugaring.shapes_inScope, Desugaring.shapes_inScope, shapes_append,
        shapes_append, shapes_bindParameters hparams hargs, hbody]
    · exact .error _ _

theorem Inlining.inline?_agree : StepsAgree (inline? t desugar) (inline? t' desugar') := by
  intro n n' hn
  have hcall := n.call?_shape
  rw [hn, n'.call?_shape] at hcall
  rw [inline?_eq, inline?_eq]
  rcases Option.cases_of_map_eq hcall with ⟨hc', hc⟩ | ⟨⟨callee', args'⟩, ⟨callee, args⟩, hc', hc,
    hparts⟩
  · rw [hc, hc']
    exact .ok rfl
  · obtain ⟨rfl, hargs⟩ : callee' = callee ∧ shapes args' = shapes args := Prod.mk.inj hparts
    simp only [hc, hc']
    split
    · exact (expandCall_agree h hdesugar _ hargs.symm).map fun new new' hnew => congrArg some hnew
    · exact .error _ _

theorem Inlining.rounds_agree (limit : Nat) {body body' : List Node}
    (hbody : shapes body = shapes body') :
    Agree (Option.map shapes) (rounds t desugar limit body) (rounds t' desugar' limit body') := by
  induction limit generalizing body body' with
  | zero => exact .ok rfl
  | succ limit ih =>
    refine (sweep_agree (inline?_agree h hdesugar) hbody).bindSwept
      fun next next' changed hnext => ?_
    cases changed with
    | true => exact ih hnext
    | false => exact .ok (congrArg some hnext)

omit hdesugar in
/-- Tables of the same shape expand alike: both expansions fail, or both succeed with bodies of one
shape. -/
theorem expand_agree (limits : RoundLimits) (entry : String) :
    Agree shapes (t.expand limits entry) (t'.expand limits entry) := by
  have hd := desugar_agree h limits.desugaring
  refine (hd entry).bind fun d d' hshape => ?_
  obtain ⟨-, -, hbody⟩ := Definition.shape_eq hshape
  refine (Inlining.rounds_agree h hd limits.inlining hbody).bind fun result result' hresult => ?_
  rcases Option.cases_of_map_eq hresult with ⟨rfl, rfl⟩ | ⟨body, body', rfl, rfl, hfinal⟩
  · exact .error _ _
  · exact .ok hfinal

end

end TapeToolchain
