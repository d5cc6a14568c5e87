import TapeToolchain.Proofs.Language.Ownership
import TapeToolchain.Proofs.Language.Renaming
import TapeToolchain.Proofs.Preliminaries

/-!
A block and its renamed copy, evaluated side by side. Scopes are looked up at run time, from the
current one outwards through those of all callers, so a name could be caught by a scope of another
macro. What excludes this is kept from statement to statement (`Alike`): a variable that the block
may use means the same as its new name means in the copy, and the current scope of the copy has the
same entries under new names. A scope that is closed gives this back as it was, and a call starts
from parameters whose values were looked up in the caller's scopes.
-/

namespace TapeToolchain

open Desugaring (localStatements whileStatements conditionCopy)

/-! ## Scopes under two names -/

/-- The second scope has the entries of the first under new names. -/
def Scope.Renames (r : String → String) (scope scope' : Scope) : Prop :=
  ∀ x : Symbol, scope'.bound.lookup (x.rename r) = scope.bound.lookup x

theorem Scope.Renames.cons {r : String → String} (hr : Function.Injective r) {scope scope' : Scope}
    (h : scope.Renames r scope') (x : Symbol) (value : Option Atom) (release release' : List Int) :
    Scope.Renames r ⟨(x, value) :: scope.bound, release⟩
      ⟨(x.rename r, value) :: scope'.bound, release'⟩ := by
  intro y
  simp only [List.lookup_cons, Symbol.beq_rename hr, h y]

namespace Evaluator

/-- The state that statements lead to, if they succeed. -/
def final? (nodes : List Node) (s : Evaluator) : Option Evaluator :=
  match run nodes s with
  | .ok _ t => some t
  | .error _ _ => none

theorem final?_eq_some {nodes : List Node} {s t : Evaluator} :
    final? nodes s = some t ↔ run nodes s = .ok () t := by
  unfold final?
  cases run nodes s <;> simp

theorem final?_append (a b : List Node) (s : Evaluator) :
    final? (a ++ b) s = (final? a s).bind (final? b) := by
  unfold final?
  cases h : run a s with
  | ok u t => rw [run_append_of_ok h]; rfl
  | error c t => rw [run_append_of_error h]; rfl

/-- The two states are those of a block and its copy: the frames are the same, the current scope of
the copy has the same entries under new names, and each known variable means the same as its new
name. -/
structure Alike (r : String → String) (known : List Symbol) (s s' : Evaluator) : Prop where
  frame : s'.frame = s.frame
  current : s.scopes.current.Renames r s'.scopes.current
  get (x : Symbol) : x ∈ known → (s'.scopes.get (x.rename r)).toOption = (s.scopes.get x).toOption

namespace Alike

variable {r : String → String} {known : List Symbol} {s s' : Evaluator}

theorem mono {fewer : List Symbol} (h : Alike r known s s') (hsub : fewer ⊆ known) :
    Alike r fewer s s' :=
  ⟨h.frame, h.current, fun x hx => h.get x (hsub hx)⟩

theorem onFrame (h : Alike r known s s') (f : Frame) : Alike r known ⟨f, s.scopes⟩ ⟨f, s'.scopes⟩ :=
  ⟨rfl, h.current, h.get⟩

theorem push (h : Alike r known s s') :
    Alike r known ⟨s.frame, s.scopes.push⟩ ⟨s'.frame, s'.scopes.push⟩ :=
  ⟨h.frame, fun _ => rfl, h.get⟩

/-- In a new scope nothing is known of the variables of a callee, whatever its renaming. -/
theorem enter (h : Alike r known s s') (q : String → String) :
    Alike q [] ⟨s.frame, s.scopes.push⟩ ⟨s'.frame, s'.scopes.push⟩ :=
  ⟨h.frame, fun _ => rfl, nofun⟩

/-- A new name with the same value in both. -/
theorem bindName (hr : Function.Injective r) (h : Alike r known s s') (x : Symbol) (value : Atom)
    (release release' : List Int) (f : Frame) :
    Alike r (x :: known)
      ⟨f, ⟨⟨(x, some value) :: s.scopes.current.bound, release⟩, s.scopes.outer⟩⟩
      ⟨f, ⟨⟨(x.rename r, some value) :: s'.scopes.current.bound, release'⟩, s'.scopes.outer⟩⟩ := by
  refine ⟨rfl, h.current.cons hr x _ _ _, fun y hy => ?_⟩
  simp only [Scopes.get, lookupIn, List.lookup_cons, Symbol.beq_rename hr]
  cases hyx : y == x with
  | true => rfl
  | false =>
    have hne : y ≠ x := by simpa using hyx
    exact h.get y (List.mem_of_ne_of_mem hne hy)

/-! ## Operands -/

theorem resolve (h : Alike r known s s') {a : Atom} (ha : ∀ x, a = .name x → x ∈ known) :
    (s'.scopes.resolve (a.rename r)).toOption = (s.scopes.resolve a).toOption := by
  cases a with
  | name x => exact h.get x (ha x rfl)
  | int _ | text _ | address _ => rfl

theorem resolveEach (h : Alike r known s s') {args : List Atom}
    (hargs : ∀ x, .name x ∈ args → x ∈ known) :
    (s'.scopes.resolveEach (args.map (Atom.rename r))).toOption =
      (s.scopes.resolveEach args).toOption := by
  induction args with
  | nil => rfl
  | cons a rest ih =>
    have ha := h.resolve (a := a) fun x hx => hargs x (by rw [hx]; exact List.mem_cons_self)
    have hrest := ih fun x hx => hargs x (List.mem_cons_of_mem _ hx)
    have hcons : ∀ (scopes : Scopes) (b : Atom) (others : List Atom),
        (scopes.resolveEach (b :: others)).toOption =
          (scopes.resolve b).toOption.bind fun value =>
            (scopes.resolveEach others).toOption.map (value :: ·) := by
      intro scopes b others
      rw [Scopes.resolveEach]
      cases scopes.resolve b with
      | error c => rfl
      | ok value => cases scopes.resolveEach others <;> rfl
    rw [List.map_cons, hcons, hcons, ha, hrest]

end Alike

/-! ## Sequences and scopes -/

/-- Both runs fail, or both succeed in states that are related. -/
def Lockstep (R : Evaluator → Evaluator → Prop) (nodes : List Node) (s : Evaluator)
    (nodes' : List Node) (s' : Evaluator) : Prop :=
  Option.Rel R (final? nodes s) (final? nodes' s')

/-- The cells that the statements take stay with the current scope. -/
def Owning (nodes : List Node) : Prop :=
  ∀ s t, run nodes s = .ok () t → ∃ owned, Owns s owned t

theorem Owning.append {a b : List Node} (ha : Owning a) (hb : Owning b) : Owning (a ++ b) := by
  intro s t h
  obtain ⟨u, hu, ht⟩ := run_append_ok.1 h
  obtain ⟨owned, howned⟩ := ha s u hu
  obtain ⟨others, hothers⟩ := hb u t ht
  exact ⟨owned ++ others, howned.trans hothers⟩

theorem Owning.localCell (x : Symbol) : Owning (localStatements (.literal (.name x))) := by
  intro s t h
  obtain ⟨o, f, hf, rfl⟩ := run_localStatements h
  exact ⟨_, .allocate hf⟩

theorem Owning.invoke (b : Builtin) (args : List Atom) : Owning [Statement.invoke b args] :=
  fun _ _ h => ⟨[], .invoke h⟩

theorem Owning.ifBody (c : Atom) {inner : List Node} (h : Owning inner) :
    Owning (localStatements (.literal conditionOperand) ++
      [Statement.invoke .copy [c, conditionOperand],
        Statement.invoke .beginLoop [conditionOperand]] ++ inner ++
      [Statement.invoke .clear [conditionOperand], Statement.invoke .endLoop [conditionOperand]]) :=
  (((Owning.localCell conditionCopy).append ((Owning.invoke _ _).append (Owning.invoke _ _))).append
    h).append ((Owning.invoke _ _).append (Owning.invoke _ _))

theorem Owning.whileBody (c : Atom) {inner : List Node} (h : Owning inner) :
    Owning ([Statement.invoke .beginLoop [c]] ++ inner ++ [Statement.invoke .endLoop [c]]) :=
  ((Owning.invoke _ _).append h).append (Owning.invoke _ _)

/-- What is left of statements in a scope of their own is the code. -/
theorem final?_inScope {body : List Node} (hbody : Owning body) (s : Evaluator) :
    final? (Statement.inScope body) s =
      (final? body ⟨s.frame, s.scopes.push⟩).map fun u =>
        ⟨⟨u.frame.emitter, s.frame.cells⟩, s.scopes⟩ := by
  rw [Statement.inScope]
  unfold final?
  rw [run_cons_of_ok (evaluate_envBegin s)]
  cases h : run body ⟨s.frame, s.scopes.push⟩ with
  | error c u => rw [run_append_of_error h]; rfl
  | ok a u =>
    obtain ⟨owned, howned⟩ := hbody _ u h
    rw [run_append_of_ok h, run_cons_of_ok (howned.evaluate_envEnd s.scopes rfl rfl)]
    rfl

namespace Lockstep

variable {R S : Evaluator → Evaluator → Prop} {a a' b b' : List Node} {s s' : Evaluator}

theorem mono (h : Lockstep R a s a' s') (hRS : ∀ t t', R t t' → S t t') : Lockstep S a s a' s' :=
  Option.Rel.mono h hRS

theorem append (ha : Lockstep R a s a' s') (hb : ∀ t t', R t t' → Lockstep S b t b' t') :
    Lockstep S (a ++ b) s (a' ++ b') s' := by
  unfold Lockstep
  rw [final?_append, final?_append]
  exact Option.Rel.bind ha hb

/-- Statements in scopes of their own leave the states alike, if they write the same code. -/
theorem inScope {r : String → String} {known : List Symbol} (h : Alike r known s s')
    (hbody : Lockstep (fun u u' => u'.frame = u.frame) a ⟨s.frame, s.scopes.push⟩ a'
      ⟨s'.frame, s'.scopes.push⟩)
    (ha : Owning a) (ha' : Owning a') :
    Lockstep (Alike r known) (Statement.inScope a) s (Statement.inScope a') s' := by
  unfold Lockstep
  rw [final?_inScope ha, final?_inScope ha']
  refine Option.Rel.map hbody fun u u' hframe => ⟨?_, h.current, h.get⟩
  rw [hframe, h.frame]

end Lockstep

/-! ## Statements -/

theorem final?_invoke (b : Builtin) (args : List Atom) (s : Evaluator) :
    final? [Statement.invoke b args] s =
      (s.scopes.resolveEach args).toOption.bind fun values =>
        match Frame.invoke b values s.frame with
        | .ok _ f => some ⟨f, s.scopes⟩
        | .error _ _ => none := by
  unfold final?
  cases hvalues : s.scopes.resolveEach args with
  | error c =>
    rw [run_cons_of_error (evaluate_invoke_of_unbound hvalues)]
    rfl
  | ok values =>
    simp only [Except.toOption, Option.bind_some]
    cases hb : Frame.invoke b values s.frame with
    | error c f => rw [run_cons_of_error (evaluate_invoke_of_error hvalues hb)]
    | ok u f =>
      rw [run_cons_of_ok (evaluate_invoke_of_ok hvalues hb)]
      rfl

theorem final?_bindParameter {x : Symbol} {s : Evaluator}
    (hx : s.scopes.current.bound.lookup x = none) (a : Atom) (rest : List Node) :
    final? (Inlining.bindParameter x (.literal a) ++ rest) s =
      (s.scopes.outerResolve a).toOption.bind fun value =>
        final? rest ⟨s.frame, s.scopes.bindName x value⟩ := by
  unfold final?
  cases hvalue : s.scopes.outerResolve a with
  | error c =>
    rw [run_bindParameter_of_error hx hvalue]
    rfl
  | ok value =>
    rw [run_bindParameter_of_ok hx hvalue]
    rfl

namespace Alike

variable {r : String → String} {known : List Symbol} {s s' : Evaluator}

theorem invoke (h : Alike r known s s') (b : Builtin) {args : List Atom}
    (hargs : ∀ x, .name x ∈ args → x ∈ known) :
    Lockstep (Alike r known) [Statement.invoke b args] s
      [Statement.invoke b (args.map (Atom.rename r))] s' := by
  unfold Lockstep
  rw [final?_invoke, final?_invoke, h.resolveEach hargs, h.frame]
  cases (s.scopes.resolveEach args).toOption with
  | none => exact .none
  | some values =>
    simp only [Option.bind_some]
    cases Frame.invoke b values s.frame with
    | error c f => exact .none
    | ok u f => exact .some (h.onFrame f)

theorem localCell (hr : Function.Injective r) (h : Alike r known s s') (x : Symbol) :
    Lockstep (Alike r (x :: known)) (localStatements (.literal (.name x))) s
      (localStatements (.literal (.name (x.rename r)))) s' := by
  have hlookup := h.current x
  unfold Lockstep final?
  cases hx : s.scopes.current.bound.lookup x with
  | some value =>
    rw [run_localStatements_of_known hx, run_localStatements_of_known (hlookup.trans hx)]
    exact .none
  | none =>
    cases ho : Frame.allocate s.frame with
    | error c f =>
      rw [run_localStatements_of_full hx ho,
        run_localStatements_of_full (hlookup.trans hx) (by rw [h.frame]; exact ho)]
      exact .none
    | ok o f =>
      rw [run_localStatements_of_ok hx ho,
        run_localStatements_of_ok (hlookup.trans hx) (by rw [h.frame]; exact ho)]
      exact .some (h.bindName hr x (.address o) _ _ f)

/-! ## Conditionals and loops -/

theorem expandedIf (hr : Function.Injective r) (h : Alike r known s s') {c : Atom}
    (hc : ∀ x, c = .name x → x ∈ known) {inner inner' : List Node} (howns : Owning inner)
    (howns' : Owning inner')
    (hinner : ∀ t t', Alike r (conditionCopy :: known) t t' →
      Lockstep (Alike r (conditionCopy :: known)) inner t inner' t') :
    Lockstep (Alike r known) (expandedIf c inner) s (expandedIf (c.rename r) inner') s' := by
  -- the hidden name is its own new name
  have hcopy : ∀ x, .name x ∈ [c, conditionOperand] → x ∈ conditionCopy :: known := by
    intro x hx
    rcases List.mem_cons.1 hx with hx | hx
    · exact List.mem_cons_of_mem _ (hc x hx.symm)
    · cases List.mem_singleton.1 hx
      exact List.mem_cons_self
  have hoperand : ∀ x, .name x ∈ [conditionOperand] → x ∈ conditionCopy :: known :=
    fun x hx => hcopy x (List.mem_cons_of_mem _ hx)
  refine Lockstep.inScope h ?_ (.ifBody c howns) (.ifBody _ howns')
  have hlocal := h.push.localCell hr conditionCopy
  have hbegin := hlocal.append fun t t' ht => (ht.invoke .copy hcopy).append fun u u' hu =>
    hu.invoke .beginLoop hoperand
  have hend := (hbegin.append hinner).append fun t t' ht =>
    (ht.invoke .clear hoperand).append fun u u' hu =>
    hu.invoke .endLoop hoperand
  exact hend.mono fun t t' ht => ht.frame

/-- The body of a loop may declare a cell of the name that the loop runs on. So does the body of the
copy then, under the new name, and the loop is closed on the new cell in both. -/
theorem whileStatements (h : Alike r known s s') {c : Atom} (hc : ∀ x, c = .name x → x ∈ known)
    {inner inner' : List Node} (howns : Owning inner) (howns' : Owning inner')
    (hinner : ∀ t t', Alike r known t t' → Lockstep (Alike r known) inner t inner' t') :
    Lockstep (Alike r known) (whileStatements c inner) s
      (whileStatements (c.rename r) inner') s' := by
  have hoperand : ∀ x, .name x ∈ [c] → x ∈ known := fun x hx => hc x (List.mem_singleton.1 hx).symm
  refine Lockstep.inScope h ?_ (.whileBody c howns) (.whileBody _ howns')
  have hbegin := (h.push.invoke .beginLoop hoperand).append hinner
  have hend := hbegin.append fun t t' ht => ht.invoke .endLoop hoperand
  exact hend.mono fun t t' ht => ht.frame

/-! ## Calls -/

/-- A parameter of a callee, bound to what the argument means to the caller. -/
theorem bindParameter (hr : Function.Injective r) (h : Alike r known s s') (x : Symbol)
    {a a' : Atom} (ha : (s'.scopes.outerResolve a').toOption = (s.scopes.outerResolve a).toOption)
    {R : Evaluator → Evaluator → Prop} {rest rest' : List Node}
    (hrest : ∀ t t', t.scopes.outer = s.scopes.outer → t'.scopes.outer = s'.scopes.outer →
      Alike r (x :: known) t t' → Lockstep R rest t rest' t') :
    Lockstep R (Inlining.bindParameter x (.literal a) ++ rest) s
      (Inlining.bindParameter (x.rename r) (.literal a') ++ rest') s' := by
  have hlookup := h.current x
  unfold Lockstep
  cases hx : s.scopes.current.bound.lookup x with
  | some value =>
    unfold final?
    rw [run_bindParameter_of_known hx, run_bindParameter_of_known (hlookup.trans hx)]
    exact .none
  | none =>
    rw [final?_bindParameter hx, final?_bindParameter (hlookup.trans hx), ha, h.frame]
    cases (s.scopes.outerResolve a).toOption with
    | none => exact .none
    | some value => exact hrest _ _ rfl rfl (h.bindName hr x value _ _ s.frame)

/-- The parameters of a callee. It has a renaming of its own, and so has the caller. -/
theorem bindParameters {q : String → String} (hq : Function.Injective q)
    {caller caller' : Evaluator} (h : Alike r known caller caller') {params : List String}
    {args : List Atom} (hlen : params.length = args.length)
    (hargs : ∀ x, .name x ∈ args → x ∈ known) {bound : List Symbol}
    (houter : s.scopes.outer = caller.scopes.current :: caller.scopes.outer)
    (houter' : s'.scopes.outer = caller'.scopes.current :: caller'.scopes.outer)
    (hs : Alike q bound s s') :
    Lockstep (Alike q (params.map .visible ++ bound)) (TapeToolchain.bindParameters params args) s
      (TapeToolchain.bindParameters (params.map q) (args.map (Atom.rename r))) s' := by
  induction params generalizing args bound s s' with
  | nil =>
    cases args with
    | nil => exact .some hs
    | cons a args => cases hlen
  | cons x params ih =>
    cases args with
    | nil => cases hlen
    | cons a args =>
      -- arguments are looked up outside of the scope of the parameters, where the caller would look
      -- them up
      have hvalue : s.scopes.outerResolve a = caller.scopes.resolve a := by
        cases a <;> simp only [Scopes.outerResolve, Scopes.outerGet, Scopes.resolve, Scopes.get,
          houter]
      have hvalue' : s'.scopes.outerResolve (a.rename r) = caller'.scopes.resolve (a.rename r) := by
        cases a <;>
          simp only [Atom.rename, Scopes.outerResolve, Scopes.outerGet, Scopes.resolve, Scopes.get,
            houter']
      have hresolve := h.resolve (a := a) fun y hy => hargs y (by rw [hy]; exact List.mem_cons_self)
      rw [← hvalue, ← hvalue'] at hresolve
      refine hs.bindParameter hq (.visible x) hresolve fun t t' ht ht' halike => ?_
      have hrest := ih (Nat.succ.inj hlen) (fun y hy => hargs y (List.mem_cons_of_mem _ hy))
        (ht.trans houter) (ht'.trans houter') halike
      refine hrest.mono fun u u' hu => hu.mono ?_
      simp

end Alike

/-- What is left of a call is the code of the callee's body. -/
theorem final?_expandedCall {params : List String} {args : List Atom}
    (hlen : params.length = args.length) {inner : List Node} (hinner : Owning inner)
    (s : Evaluator) :
    final? (expandedCall params args inner) s =
      ((final? (bindParameters params args) ⟨s.frame, s.scopes.push⟩).bind fun t =>
        final? inner ⟨t.frame, t.scopes.push⟩).map fun u =>
        ⟨⟨u.frame.emitter, s.frame.cells⟩, s.scopes⟩ := by
  have hopen : ∀ body, final? (Statement.inScope body) s =
      (final? body ⟨s.frame, s.scopes.push⟩).bind (final? [Statement.envEnd]) := by
    intro body
    rw [← final?_append, Statement.inScope]
    unfold final?
    rw [run_cons_of_ok (evaluate_envBegin s)]
  rw [expandedCall, hopen, final?_append]
  cases hparams : final? (bindParameters params args) ⟨s.frame, s.scopes.push⟩ with
  | none => rfl
  | some t =>
    obtain ⟨values, -, ht⟩ := run_bindParameters hlen (final?_eq_some.1 hparams)
    have hframe : t.frame = s.frame := by rw [ht]
    have hrelease : t.scopes.current.release = [] := by rw [ht, Scopes.release_bindNames]; rfl
    have houter : t.scopes.outer = s.scopes.current :: s.scopes.outer := by
      rw [ht, Scopes.outer_bindNames]
    rw [Option.bind_some, Option.bind_some, final?_inScope hinner]
    cases final? inner ⟨t.frame, t.scopes.push⟩ with
    | none => rfl
    | some u =>
      -- the scope of the parameters owns no cells
      have howns : Owns t [] ⟨⟨u.frame.emitter, t.frame.cells⟩, t.scopes⟩ := .nothing rfl rfl
      have hend := howns.evaluate_envEnd s.scopes hrelease houter
      rw [Option.map_some, Option.map_some, Option.bind_some, final?_eq_some,
        run_single_ok, ← hframe]
      exact ⟨_, hend⟩

theorem Alike.expandedCall {r q : String → String} {known : List Symbol} {s s' : Evaluator}
    (hq : Function.Injective q) (h : Alike r known s s') {params : List String} {args : List Atom}
    (hlen : params.length = args.length) (hargs : ∀ x, .name x ∈ args → x ∈ known)
    {inner inner' : List Node} (howns : Owning inner) (howns' : Owning inner')
    (hinner : ∀ t t', Alike q (params.map .visible) t t' →
      Lockstep (fun u u' => u'.frame = u.frame) inner t inner' t') :
    Lockstep (Alike r known) (expandedCall params args inner) s
      (expandedCall (params.map q) (args.map (Atom.rename r)) inner') s' := by
  have hlen' : (params.map q).length = (args.map (Atom.rename r)).length := by
    rw [List.length_map, List.length_map, hlen]
  unfold Lockstep
  rw [final?_expandedCall hlen howns, final?_expandedCall hlen' howns']
  have hparams := h.bindParameters hq hlen hargs rfl rfl (h.enter q)
  rw [List.append_nil] at hparams
  refine Option.Rel.map (Option.Rel.bind hparams fun t t' ht => hinner _ _ ht.push)
    fun u u' hframe => ?_
  exact ⟨by rw [hframe, h.frame], h.current, h.get⟩

end Evaluator

/-! ## Blocks -/

open Evaluator (Alike Lockstep)

theorem Atom.Known.mem {names : List String} {a : Atom} (h : a.Known names) {known : List Symbol}
    (hknown : names.map Symbol.visible ⊆ known) (x : Symbol) (hx : a = .name x) : x ∈ known := by
  subst hx
  exact hknown h

/-- **A closed block and its copy run in lockstep**, whatever the renamings of the macros that they
call. -/
theorem Expands.lockstep {p : MacroProgram} {r : String → String → String}
    (hr : ∀ m ∈ p.macros, Function.Injective (r m.name)) (hp : ∀ m ∈ p.macros, m.Closed)
    {block : Block} {nodes nodes' : List Node} (h : Expands p block nodes) {q : String → String}
    (hq : Function.Injective q) (h' : Expands (p.rename r) (block.rename q) nodes')
    {names : List String} (hclosed : block.Closed names) {known : List Symbol}
    (hknown : names.map Symbol.visible ⊆ known) {s s' : Evaluator} (hs : Alike q known s s') :
    Lockstep (Alike q known) nodes s nodes' s' := by
  induction h generalizing q nodes' names known s s' with
  | done =>
    rw [Block.rename] at h'
    cases h'
    exact .some hs
  | @localCell x rest out _ ih =>
    rw [Block.rename] at h'
    cases h' with
    | localCell hrest' =>
      refine (hs.localCell hq (.visible x)).append fun t t' ht => ?_
      have hsub : (x :: names).map Symbol.visible ⊆ .visible x :: known :=
        List.cons_subset_cons _ hknown
      exact (ih hq hrest' hclosed hsub ht).mono fun u u' hu => hu.mono (List.subset_cons_self _ _)
  | ifNonzero hbody _ ihbody ihrest =>
    rw [Block.rename] at h'
    obtain ⟨hc, hclosedBody, hclosedRest⟩ := hclosed
    cases h' with
    | ifNonzero hbody' hrest' =>
      have hif := hs.expandedIf hq (hc.mem hknown) hbody.owns_something hbody'.owns_something
        fun t t' ht => ihbody hq hbody' hclosedBody (List.subset_cons_of_subset _ hknown) ht
      exact hif.append fun t t' ht => ihrest hq hrest' hclosedRest hknown ht
  | whileNonzero hbody _ ihbody ihrest =>
    rw [Block.rename] at h'
    obtain ⟨hc, hclosedBody, hclosedRest⟩ := hclosed
    cases h' with
    | whileNonzero hbody' hrest' =>
      have hwhile := hs.whileStatements (hc.mem hknown) hbody.owns_something hbody'.owns_something
        fun t t' ht => ihbody hq hbody' hclosedBody hknown ht
      exact hwhile.append fun t t' ht => ihrest hq hrest' hclosedRest hknown ht
  | @callMacro f args m rest inner out hm hlen hbody _ ihbody ihrest =>
    rw [Block.rename] at h'
    obtain ⟨hargs, hclosedRest⟩ := hclosed
    have hmem := MacroProgram.mem_of_find? hm
    cases h' with
    | callBuiltin hm' _ _ =>
      rw [MacroProgram.find?_rename, hm] at hm'
      cases hm'
    | callMacro hm' _ hbody' hrest' =>
      rw [MacroProgram.find?_rename, hm] at hm'
      cases hm'
      -- the callee knows its parameters only, and these by its own renaming
      have hcall := hs.expandedCall (hr m hmem) hlen (fun x hx => (hargs _ hx).mem hknown x rfl)
        hbody.owns_something hbody'.owns_something fun t t' ht =>
          (ihbody (hr m hmem) hbody' (hp m hmem) (List.Subset.refl _) ht).mono fun u u' hu =>
            hu.frame
      exact hcall.append fun t t' ht => ihrest hq hrest' hclosedRest hknown ht
  | @callBuiltin f args b rest out hm hb _ ih =>
    rw [Block.rename] at h'
    obtain ⟨hargs, hclosedRest⟩ := hclosed
    cases h' with
    | callMacro hm' _ _ _ =>
      rw [MacroProgram.find?_rename, hm] at hm'
      cases hm'
    | callBuiltin _ hb' hrest' =>
      cases hb.symm.trans hb'
      exact (hs.invoke b fun x hx => (hargs _ hx).mem hknown x rfl).append fun t t' ht =>
        ih hq hrest' hclosedRest hknown ht
  | @builtin b args rest out _ ih =>
    rw [Block.rename] at h'
    obtain ⟨hargs, hclosedRest⟩ := hclosed
    cases h' with
    | builtin hrest' =>
      exact (hs.invoke b fun x hx => (hargs _ hx).mem hknown x rfl).append fun t t' ht =>
        ih hq hrest' hclosedRest hknown ht

end TapeToolchain
