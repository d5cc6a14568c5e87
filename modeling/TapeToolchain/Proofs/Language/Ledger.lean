import TapeToolchain.Proofs.Frame.Failures
import TapeToolchain.Proofs.Language.Evaluation
import TapeToolchain.Proofs.Language.Steps
import Mathlib.Data.List.Forall2

/-!
The books of an evaluation. A ledger lists the local cells of each open scope. It balances with a
state if the bindings of the scopes, their release lists and the occupied cells all say the same as
the ledger, and a step of an expanded block that succeeds leaves a state with which a ledger
balances again (`Sound.step`). The same invariant excludes what could go wrong inside of the
evaluator: a step that fails does so for a cause that the author of the block can see.
-/

namespace TapeToolchain

/-- What stops the evaluation of a block: a name without a meaning, a name that is declared twice,
or a built-in. -/
def CompileError.StopsEvaluation : CompileError → Prop
  | .unboundName _ | .duplicateDeclaration _ => True
  | c => c.StopsBuiltin

theorem CompileError.StopsBuiltin.stopsEvaluation {c : CompileError} (h : c.StopsBuiltin) :
    c.StopsEvaluation := by
  cases c <;> first | exact h | trivial

/-! ## Scopes and their entries -/

namespace Scope

/-- The local cells of the scope are the given ones: each is bound to its name, and they are freed
in order. -/
structure Records (scope : Scope) (entries : List (Symbol × Int)) : Prop where
  release : scope.release = entries.map (·.2)
  bound : ∀ entry ∈ entries, scope.bound.lookup entry.1 = some (some (.address entry.2))

/-- Every name of the scope has a value. -/
def Complete (scope : Scope) : Prop :=
  ∀ x, scope.bound.lookup x ≠ some none

/-- Every name of the scope has a value, but for the one that waits for it. That name was declared
last. -/
def Awaits (scope : Scope) : Option Symbol → Prop
  | none => scope.Complete
  | some x => ∃ before : Scope, scope = { before with bound := (x, none) :: before.bound } ∧
      before.bound.lookup x = none ∧ before.Complete

theorem Records.empty : Scope.empty.Records [] :=
  ⟨rfl, nofun⟩

theorem Complete.empty : Scope.empty.Complete :=
  nofun

/-- A new name with a value. -/
theorem Complete.cons {scope : Scope} (h : scope.Complete) (x : Symbol) (value : Atom)
    (release : List Int) : Complete ⟨(x, some value) :: scope.bound, release⟩ := by
  intro y
  rw [List.lookup_cons]
  split
  · exact nofun
  · exact h y

/-- A new name does not disturb the entries. -/
theorem Records.cons {scope : Scope} {entries : List (Symbol × Int)} (h : scope.Records entries)
    {x : Symbol} (hx : scope.bound.lookup x = none) (value : Option Atom) :
    Records { scope with bound := (x, value) :: scope.bound } entries := by
  refine ⟨h.release, fun entry hentry => ?_⟩
  have hbound := h.bound entry hentry
  have hne : (entry.1 == x) = false := by
    rw [beq_eq_false_iff_ne]
    rintro rfl
    rw [hx] at hbound
    cases hbound
  rw [List.lookup_cons, hne]
  exact hbound

/-- The name that waits is none of the entries, so its value does not disturb them. -/
theorem Records.set {bound : List (Symbol × Option Atom)} {release : List Int}
    {entries : List (Symbol × Int)} {x : Symbol} (h : Records ⟨(x, none) :: bound, release⟩ entries)
    (value : Atom) : Records ⟨(x, some value) :: bound, release⟩ entries := by
  refine ⟨h.release, fun entry hentry => ?_⟩
  have hbound := h.bound entry hentry
  rw [List.lookup_cons] at hbound ⊢
  split at hbound
  · cases hbound
  · exact hbound

/-- A new local cell. -/
theorem Records.own {scope : Scope} {entries : List (Symbol × Int)} (h : scope.Records entries)
    {x : Symbol} (hx : scope.bound.lookup x = none) (o : Int) :
    Records ⟨(x, some (.address o)) :: scope.bound, scope.release ++ [o]⟩
      (entries ++ [(x, o)]) := by
  refine ⟨by rw [h.release, List.map_append]; rfl, fun entry hentry => ?_⟩
  rcases List.mem_append.1 hentry with hentry | hentry
  · exact (h.cons hx _).bound entry hentry
  · rw [List.mem_singleton.1 hentry]
    exact List.lookup_cons_self

end Scope

/-- A name has a meaning if it is declared, provided that all names have values. -/
theorem lookupIn_error_of_complete {x : Symbol} {scopes : List Scope} {c : CompileError}
    (h : ∀ scope ∈ scopes, scope.Complete) (hc : lookupIn x scopes = .error c) :
    c = .unboundName x := by
  induction scopes with
  | nil => cases hc; rfl
  | cons scope outer ih =>
    rw [lookupIn] at hc
    split at hc
    · cases hc
    · next hnone => exact absurd hnone (h scope List.mem_cons_self x)
    · exact ih (fun s hs => h s (List.mem_cons_of_mem _ hs)) hc

theorem Scopes.resolveEach_error_of_complete {s : Scopes}
    (h : ∀ scope ∈ s.current :: s.outer, scope.Complete) {args : List Atom} {c : CompileError}
    (hc : s.resolveEach args = .error c) : ∃ x, c = .unboundName x := by
  induction args with
  | nil => cases hc
  | cons a rest ih =>
    rcases except_bind_eq_error.1 hc with ha | ⟨value, -, hc⟩
    · cases a with
      | name x => exact ⟨x, lookupIn_error_of_complete h ha⟩
      | int _ | text _ | address _ => cases ha
    · rcases except_bind_eq_error.1 hc with hrest | ⟨values, -, hc⟩
      · exact ih hrest
      · cases hc

/-! ## The ledger -/

namespace Evaluator

/-- The ledger of local cells, by scope and the current one first, agrees with the state. -/
structure Balances (s : Evaluator) (ledger : List (List (Symbol × Int))) : Prop where
  /-- Each scope binds the cells of its part of the ledger, and will free them. -/
  scopes : List.Forall₂ Scope.Records (s.scopes.current :: s.scopes.outer) ledger
  /-- The occupied cells are those of the ledger. -/
  occupied (o : Int) : o ∈ s.frame.cells.offsets ↔ o ∈ ledger.flatten.map (·.2)
  /-- No cell stands in the ledger twice. -/
  nodup : (ledger.flatten.map (·.2)).Nodup

/-- A ledger with the names of the outline balances with the state, and every name has a value but
for the parameter that waits for its own. -/
structure Sound (g : Outline) (s : Evaluator) : Prop where
  balanced : ∃ ledger : List (List (Symbol × Int)),
    ledger.map (List.map (·.1)) = g.locals ∧ s.Balances ledger
  awaits : s.scopes.current.Awaits g.waiting
  complete : ∀ scope ∈ s.scopes.outer, scope.Complete

/-- A success leads to a state of the given kind, and a failure is one of evaluation. -/
def Leads (after : Evaluator → Prop) : EStateM.Result CompileError Evaluator Unit → Prop
  | .ok _ t => after t
  | .error c _ => c.StopsEvaluation

theorem sound_new (tapeSize : UInt64) : (new tapeSize).Sound .start where
  balanced := ⟨[[]], rfl, .cons .empty .nil, fun _ => Iff.rfl, .nil⟩
  awaits := Scope.Complete.empty
  complete := nofun

/-- Back in the root scope, with no local cell in it, nothing is occupied. -/
theorem Sound.settled {s : Evaluator} (h : s.Sound .start) :
    s.frame.cells.offsets = [] ∧ s.scopes.depth = 0 := by
  obtain ⟨ledger, hnames, hbalances⟩ := h.balanced
  obtain rfl : ledger = [[]] := by simpa [Outline.start, List.map_eq_cons_iff] using hnames
  constructor
  · exact List.eq_nil_iff_forall_not_mem.2 fun o ho =>
      List.not_mem_nil ((hbalances.occupied o).1 ho)
  · obtain ⟨-, houter⟩ := List.forall₂_cons.1 hbalances.scopes
    rw [Scopes.depth, List.forall₂_nil_right_iff.1 houter]
    rfl

namespace Balances

variable {s : Evaluator} {ledger : List (List (Symbol × Int))}

/-- Only scopes and occupied cells are on the books. -/
theorem congr (h : s.Balances ledger) {f : Frame} (hf : f.cells = s.frame.cells) :
    Balances ⟨f, s.scopes⟩ ledger :=
  ⟨h.scopes, by rw [hf]; exact h.occupied, h.nodup⟩

theorem push (h : s.Balances ledger) : Balances ⟨s.frame, s.scopes.push⟩ ([] :: ledger) :=
  ⟨.cons .empty h.scopes, h.occupied, h.nodup⟩

/-- A cell that was free and is taken for a new name. -/
theorem own {entries : List (Symbol × Int)} {outer : List (List (Symbol × Int))}
    (h : s.Balances (entries :: outer)) {x : Symbol} (hx : s.scopes.current.bound.lookup x = none)
    {o : Int} {f : Frame} (ho : Frame.allocate s.frame = .ok o f) :
    Balances ⟨f, s.scopes.own [(x, o)]⟩ ((entries ++ [(x, o)]) :: outer) := by
  obtain ⟨-, hfree, hcells⟩ := Frame.allocate_ok ho
  -- the new cell comes after those of its scope and before those of the scopes around it
  have hperm : (((entries ++ [(x, o)]) :: outer).flatten.map (·.2)).Perm
      (o :: (entries :: outer).flatten.map (·.2)) := by
    simp only [List.flatten_cons, List.map_append, List.append_assoc]
    exact List.perm_middle
  obtain ⟨hcurrent, houter⟩ := List.forall₂_cons.1 h.scopes
  refine ⟨.cons (hcurrent.own hx o) houter, fun p => ?_, ?_⟩
  · rw [hcells, hperm.mem_iff, List.mem_cons, h.occupied]
  · rw [hperm.nodup_iff, List.nodup_cons]
    exact ⟨fun hmem => hfree ((h.occupied o).2 hmem), h.nodup⟩

/-- Closing the current scope succeeds, since what it frees is occupied. -/
theorem close {entries : List (Symbol × Int)} {outer : List (List (Symbol × Int))} {f : Frame}
    {scope parent : Scope} {scopes : List Scope}
    (h : Balances ⟨f, ⟨scope, parent :: scopes⟩⟩ (entries :: outer)) :
    ∃ q, evaluate Statement.envEnd ⟨f, ⟨scope, parent :: scopes⟩⟩ =
        .ok .unit ⟨⟨f.emitter, q⟩, ⟨parent, scopes⟩⟩ ∧
      Balances ⟨⟨f.emitter, q⟩, ⟨parent, scopes⟩⟩ outer := by
  obtain ⟨hcurrent, houter⟩ := List.forall₂_cons.1 h.scopes
  have hnodup := h.nodup
  have hoccupied := h.occupied
  simp only [List.flatten_cons, List.map_append, List.mem_append] at hnodup hoccupied
  obtain ⟨hown, hothers, hdisjoint⟩ := List.nodup_append.1 hnodup
  obtain ⟨q, hq, hmem⟩ := Frame.freeAll_occupied (f := f) hown fun o ho =>
    (hoccupied o).2 (Or.inl ho)
  rw [← hcurrent.release] at hq
  refine ⟨q, evaluate_envEnd_of_ok hq parent scopes, houter, fun o => ?_, hothers⟩
  rw [hmem, hoccupied]
  constructor
  · rintro ⟨hin | hout, hnot⟩
    · exact absurd hin hnot
    · exact hout
  · intro ho
    exact ⟨Or.inr ho, fun hin => hdisjoint o hin o ho rfl⟩

end Balances

/-! ## One step -/

namespace Sound

variable {s : Evaluator} {locals : List (List Symbol)}

theorem allComplete (h : s.Sound ⟨locals, none⟩) :
    ∀ scope ∈ s.scopes.current :: s.scopes.outer, scope.Complete :=
  List.forall_mem_cons.2 ⟨h.awaits, h.complete⟩

theorem openScope (h : s.Sound ⟨locals, none⟩) :
    Leads (Sound ⟨[] :: locals, none⟩) (run Step.openScope.nodes s) := by
  obtain ⟨ledger, hnames, hbalances⟩ := h.balanced
  rw [Step.nodes, run_cons_of_ok (evaluate_envBegin s)]
  exact ⟨⟨[] :: ledger, by rw [List.map_cons, hnames]; rfl, hbalances.push⟩, Scope.Complete.empty,
    h.allComplete⟩

theorem closeScope {own parent : List Symbol} {outer : List (List Symbol)}
    (h : s.Sound ⟨own :: parent :: outer, none⟩) :
    Leads (Sound ⟨parent :: outer, none⟩) (run Step.closeScope.nodes s) := by
  obtain ⟨f, ⟨scope, scopes⟩⟩ := s
  obtain ⟨ledger, hnames, hbalances⟩ := h.balanced
  obtain ⟨entries, others, rfl, -, hothers⟩ := List.map_eq_cons_iff.1 hnames
  -- the outline has a scope around the current one, so the state has one too
  cases scopes with
  | nil =>
    obtain ⟨-, hnil⟩ := List.forall₂_cons.1 hbalances.scopes
    rw [List.forall₂_nil_left_iff.1 hnil] at hothers
    cases hothers
  | cons around scopes =>
    obtain ⟨q, hclose, hafter⟩ := hbalances.close
    obtain ⟨haround, hcomplete⟩ := List.forall_mem_cons.1 h.complete
    rw [Step.nodes, run_cons_of_ok hclose]
    exact ⟨⟨others, hothers, hafter⟩, haround, hcomplete⟩

theorem localCell {own : List Symbol} {outer : List (List Symbol)}
    (h : s.Sound ⟨own :: outer, none⟩) (x : Symbol) :
    Leads (Sound ⟨(own ++ [x]) :: outer, none⟩) (run (Step.localCell x).nodes s) := by
  rw [Step.nodes]
  cases hx : s.scopes.current.bound.lookup x with
  | some known =>
    rw [run_localStatements_of_known hx]
    trivial
  | none =>
    cases ho : Frame.allocate s.frame with
    | error c f =>
      rw [run_localStatements_of_full hx ho]
      exact (FailsAsBuiltin.allocate _ _ _ ho).stopsEvaluation
    | ok o f =>
      rw [run_localStatements_of_ok hx ho]
      obtain ⟨ledger, hnames, hbalances⟩ := h.balanced
      obtain ⟨entries, others, rfl, hentries, hothers⟩ := List.map_eq_cons_iff.1 hnames
      refine ⟨⟨_, ?_, hbalances.own hx ho⟩, Scope.Complete.cons h.awaits x _ _, h.complete⟩
      rw [List.map_cons, List.map_append, hentries, hothers]
      rfl

theorem declare (h : s.Sound ⟨locals, none⟩) (x : Symbol) :
    Leads (Sound ⟨locals, some x⟩) (run (Step.declare x).nodes s) := by
  rw [Step.nodes]
  cases hx : s.scopes.current.bound.lookup x with
  | some known =>
    rw [run_cons_of_error (evaluate_declare_of_known hx)]
    trivial
  | none =>
    rw [run_cons_of_ok (evaluate_declare_of_new hx)]
    obtain ⟨ledger, hnames, hbalances⟩ := h.balanced
    obtain ⟨entries, outer, hcurrent, houter, rfl⟩ := List.forall₂_cons_left_iff.1 hbalances.scopes
    exact ⟨⟨_, hnames, .cons (hcurrent.cons hx none) houter, hbalances.occupied, hbalances.nodup⟩,
      ⟨s.scopes.current, rfl, hx, h.awaits⟩, h.complete⟩

theorem bind {x : Symbol} (h : s.Sound ⟨locals, some x⟩) (a : Atom) :
    Leads (Sound ⟨locals, none⟩) (run (Step.bind x a).nodes s) := by
  obtain ⟨f, ⟨current, outer⟩⟩ := s
  obtain ⟨before, rfl, hx, hbefore⟩ := h.awaits
  have hscopes : (⟨{ before with bound := (x, none) :: before.bound }, outer⟩ : Scopes) =
      Scopes.declared ⟨before, outer⟩ x := rfl
  rw [Step.nodes, hscopes]
  cases ha : Scopes.outerResolve ⟨before, outer⟩ a with
  | error c =>
    rw [run_cons_of_error (evaluate_setOuter_of_error ha)]
    cases a with
    | name y =>
      rw [lookupIn_error_of_complete h.complete ha]
      trivial
    | int _ | text _ | address _ => cases ha
  | ok value =>
    rw [run_cons_of_ok (evaluate_setOuter_of_ok hx ha)]
    obtain ⟨ledger, hnames, hbalances⟩ := h.balanced
    obtain ⟨entries, others, hcurrent, hothers, rfl⟩ :=
      List.forall₂_cons_left_iff.1 hbalances.scopes
    exact ⟨⟨_, hnames, .cons (hcurrent.set value) hothers, hbalances.occupied, hbalances.nodup⟩,
      hbefore.cons x value _, h.complete⟩

theorem invoke (h : s.Sound ⟨locals, none⟩) (b : Builtin) (args : List Atom) :
    Leads (Sound ⟨locals, none⟩) (run (Step.invoke b args).nodes s) := by
  rw [Step.nodes]
  cases hargs : s.scopes.resolveEach args with
  | error c =>
    rw [run_cons_of_error (evaluate_invoke_of_unbound hargs)]
    obtain ⟨x, rfl⟩ := Scopes.resolveEach_error_of_complete h.allComplete hargs
    trivial
  | ok values =>
    cases hb : Frame.invoke b values s.frame with
    | error c f =>
      rw [run_cons_of_error (evaluate_invoke_of_error hargs hb)]
      exact (Frame.invoke_failsAsBuiltin b values _ _ _ hb).stopsEvaluation
    | ok u f =>
      rw [run_cons_of_ok (evaluate_invoke_of_ok hargs hb)]
      obtain ⟨ledger, hnames, hbalances⟩ := h.balanced
      exact ⟨⟨ledger, hnames, hbalances.congr ((Frame.restores_invoke b values).1 _ _ _ hb)⟩,
        h.awaits, h.complete⟩

/-- A step that is in its place leaves the books in order. -/
theorem step {g g' : Outline} (h : s.Sound g) {step : Step} (hg : g.advance step = some g') :
    Leads (Sound g') (run step.nodes s) := by
  unfold Outline.advance at hg
  split at hg
  · cases hg; exact h.openScope
  · cases hg; exact h.closeScope
  · cases hg; exact h.localCell _
  · cases hg; exact h.declare _
  · split at hg
    · next hparam =>
      cases hg
      subst hparam
      exact h.bind _
    · cases hg
  · cases hg; exact h.invoke _ _
  · cases hg

/-- So does a sequence of steps. -/
theorem follow {g g' : Outline} {steps : List Step} (h : s.Sound g)
    (hg : g.follow steps = some g') : Leads (Sound g') (run (steps.flatMap Step.nodes) s) := by
  induction steps generalizing s g with
  | nil => cases hg; exact h
  | cons step rest ih =>
    rw [Outline.follow_cons] at hg
    obtain ⟨g₁, hg₁, hrest⟩ := Option.bind_eq_some_iff.1 hg
    have hstep := h.step hg₁
    rw [List.flatMap_cons]
    cases hrun : run step.nodes s with
    | ok u t =>
      rw [hrun] at hstep
      rw [run_append_of_ok hrun]
      exact ih hstep hrest
    | error c t =>
      rw [hrun] at hstep
      rw [run_append_of_error hrun]
      exact hstep

end Sound

end Evaluator

end TapeToolchain
