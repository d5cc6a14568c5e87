import Mathlib.Data.List.Infix
import TapeToolchain.Evaluation.ScopeArena
import TapeToolchain.Proofs.Evaluation.ScopeRequests

/-!
Scopes in an arena are a stack. The indices of discarded records are used again, but only for scopes
inside those that are still open. So after any requests the records are those of the open scopes,
from the root to the current one, each linked to the one before it (`Linked`), and the arena answers
like the stack of these scopes (`Holds.sameOutcome`).
-/

namespace TapeToolchain

/-- Requests to an arena. -/
def ScopeCall.onArena : ScopeCall → EStateM CompileError ScopeArena ScopeAnswer
  | push => .opened <$> ScopeArena.push
  | pop => .released <$> ScopeArena.pop
  | declare name => (fun _ => .done) <$> ScopeArena.declare name
  | set name value => (fun _ => .done) <$> ScopeArena.set name value
  | releaseOnExit address => (fun _ => .done) <$> ScopeArena.releaseOnExit address
  | get name => asking (·.get name)
  | outerGet name => asking (·.outerGet name)
  | resolve atom => asking (·.resolve atom)
  | outerResolve atom => asking (·.outerResolve atom)

/-! ## The arena of a stack -/

namespace ScopeArena

/-- The link of the record at an index: to the record before it. -/
def linkAt : Nat → Option Nat
  | 0 => none
  | id + 1 => some id

/-- The records are a chain from the root, which links to nothing, to the current scope, which is
the last. -/
structure Linked (a : ScopeArena) : Prop where
  current : a.current.val + 1 = a.records.size
  parent : ∀ id : Fin a.records.size, (a.record id).parent = linkAt id

/-- The records of scopes, the innermost of which comes last. -/
def layout : List Scope → List ScopeRecord
  | [] => []
  | scope :: outer => layout outer ++ [⟨linkAt outer.length, scope⟩]

/-- The arena holds the scopes of a stack. -/
structure Holds (a : ScopeArena) (s : Scopes) : Prop where
  records : a.records.toList = layout (s.current :: s.outer)
  current : a.current.val = s.outer.length

@[simp]
theorem length_layout (scopes : List Scope) : (layout scopes).length = scopes.length := by
  induction scopes with
  | nil => rfl
  | cons scope outer ih => simp [layout, ih]

theorem parent_of_mem_layout {scopes : List Scope} {id : Nat} {r : ScopeRecord}
    (h : (layout scopes)[id]? = some r) : r.parent = linkAt id := by
  induction scopes with
  | nil => simp [layout] at h
  | cons scope outer ih =>
    rw [layout, List.getElem?_append] at h
    split at h
    · exact ih h
    · next hid =>
      obtain ⟨hlt, rfl⟩ := List.getElem?_eq_some_iff.1 h
      have hid : id = outer.length := by
        simp at hlt hid
        omega
      simp [hid]

theorem enclosing_of_none {a : ScopeArena} {id : Fin a.records.size}
    (h : (a.record id).parent = none) : a.enclosing id = none := by
  simpa [enclosing, Option.pmap_eq_none_iff] using h

theorem enclosing_of_some {a : ScopeArena} {id : Fin a.records.size} {parent : Nat}
    (h : (a.record id).parent = some parent) : ∃ p, a.enclosing id = some p ∧ p.val = parent := by
  refine ⟨⟨parent, a.parent_lt_of_mem id parent h⟩, ?_, rfl⟩
  simp only [enclosing, Option.pmap_eq_some_iff]
  exact ⟨parent, a.parent_lt_of_mem id parent h, h, rfl⟩

/-! ## Following the links -/

section
variable {a : ScopeArena} {scope : Scope} {outer : List Scope}

theorem record_of_layout (h : layout (scope :: outer) <+: a.records.toList)
    {id : Fin a.records.size} (hid : id.val = outer.length) :
    a.record id = ⟨linkAt outer.length, scope⟩ := by
  obtain ⟨inner, hinner⟩ := h
  have hget : a.records.toList[id.val]? = some ⟨linkAt outer.length, scope⟩ := by
    rw [← hinner, layout, hid]
    simp
  simpa [record] using hget

theorem links_of_layout (h : layout (scope :: outer) <+: a.records.toList) {id : Fin a.records.size}
    (hid : id.val = outer.length) : a.links id = outer.length := by
  induction outer generalizing scope id with
  | nil =>
    have hnone := enclosing_of_none (congrArg ScopeRecord.parent (record_of_layout h hid))
    rw [links, hnone]
    rfl
  | cons parent outer ih =>
    obtain ⟨p, hp, hval⟩ := enclosing_of_some (congrArg ScopeRecord.parent (record_of_layout h hid))
    rw [links, hp]
    simp only
    rw [ih ((List.prefix_append _ _).trans h) hval]
    rfl

theorem lookupFrom_of_layout (name : Symbol) (h : layout (scope :: outer) <+: a.records.toList)
    {id : Fin a.records.size} (hid : id.val = outer.length) :
    a.lookupFrom name id = lookupIn name (scope :: outer) := by
  -- The arena stays the same, and the record of the next scope comes earlier in it.
  induction outer generalizing scope id with
  | nil =>
    have hrecord := record_of_layout h hid
    have hnone := enclosing_of_none (congrArg ScopeRecord.parent hrecord)
    rw [lookupFrom, hrecord, hnone]
    rfl
  | cons parent outer ih =>
    have hrecord := record_of_layout h hid
    obtain ⟨p, hp, hval⟩ := enclosing_of_some (congrArg ScopeRecord.parent hrecord)
    have hparent : a.lookupFrom name (p.castLE id.is_le') = lookupIn name (parent :: outer) :=
      ih ((List.prefix_append _ _).trans h) hval
    rw [lookupFrom, hrecord, hp]
    simp only [hparent]
    rfl

end

/-! ## Requests to the arena of a stack -/

namespace Holds

variable {a b : ScopeArena} {s : Scopes}

theorem root : ScopeArena.root.Holds .root :=
  ⟨rfl, rfl⟩

/-- An arena is determined by its scopes. -/
theorem unique (ha : a.Holds s) (hb : b.Holds s) : a = b := by
  obtain ⟨records, current, _⟩ := a
  obtain ⟨records', current', _⟩ := b
  have hrecords : records = records' := Array.toList_inj.1 (ha.records.trans hb.records.symm)
  subst hrecords
  have hcurrent : current = current' := Fin.ext (ha.current.trans hb.current.symm)
  subst hcurrent
  rfl

theorem size_eq (h : a.Holds s) : a.records.size = s.outer.length + 1 := by
  rw [← Array.length_toList, h.records, length_layout, List.length_cons]

theorem linked (h : a.Holds s) : a.Linked := by
  constructor
  · have hsize := h.size_eq
    have hcurrent := h.current
    omega
  · intro id
    have hget : (layout (s.current :: s.outer))[id.val]? = some (a.record id) := by
      rw [← h.records]
      simp [record]
    exact parent_of_mem_layout hget

theorem isPrefix (h : a.Holds s) : layout (s.current :: s.outer) <+: a.records.toList :=
  h.records ▸ List.prefix_rfl

theorem record_current (h : a.Holds s) : a.record a.current = ⟨linkAt s.outer.length, s.current⟩ :=
  record_of_layout h.isPrefix h.current

theorem scope (h : a.Holds s) : a.scope = s.current := by
  rw [ScopeArena.scope, h.record_current]

theorem depth (h : a.Holds s) : a.depth = s.outer.length :=
  links_of_layout h.isPrefix h.current

theorem get (h : a.Holds s) (name : Symbol) : a.get name = s.get name :=
  lookupFrom_of_layout name h.isPrefix h.current

theorem enclosing_root {current : Scope} (h : a.Holds ⟨current, []⟩) :
    a.enclosing a.current = none :=
  enclosing_of_none (congrArg ScopeRecord.parent h.record_current)

theorem enclosing_child {current parent : Scope} {outer : List Scope}
    (h : a.Holds ⟨current, parent :: outer⟩) :
    ∃ p, a.enclosing a.current = some p ∧ p.val = outer.length :=
  enclosing_of_some (congrArg ScopeRecord.parent h.record_current)

theorem outerGet (h : a.Holds s) (name : Symbol) : a.outerGet name = s.outerGet name := by
  obtain ⟨current, outer⟩ := s
  rw [ScopeArena.outerGet]
  cases outer with
  | nil =>
    rw [h.enclosing_root]
    rfl
  | cons parent outer =>
    obtain ⟨p, hp, hval⟩ := h.enclosing_child
    rw [hp]
    exact lookupFrom_of_layout name ((List.prefix_append _ _).trans h.isPrefix) hval

theorem push (h : a.Holds s) : SameOutcome Holds (ScopeArena.push a) (ScopeCall.pushing s) := by
  have hsize : a.records.size = s.size := h.size_eq
  rw [ScopeArena.push, ScopeCall.pushing, ← hsize]
  refine .ok ⟨?_, h.size_eq⟩
  have hlink : some a.current.val = linkAt (s.current :: s.outer).length := by rw [h.current]; rfl
  rw [Array.toList_push, h.records, hlink]
  rfl

theorem modifyScope (h : a.Holds s) (f : Scope → Scope) :
    (a.modifyScope f).Holds { s with current := f s.current } := by
  refine ⟨?_, h.current⟩
  have hlength : s.outer.length = (layout s.outer).length := (length_layout s.outer).symm
  rw [ScopeArena.modifyScope, Array.toList_modify, h.records, h.current, layout, hlength]
  simp [List.modify_eq_take_drop, layout]

theorem back (h : a.Holds s) : (a.records.back a.size_pos).scope = s.current := by
  have hlast : a.records.size - 1 = a.current.val := by
    have := h.linked.current
    omega
  simp only [Array.back_eq_getElem, hlast]
  exact congrArg ScopeRecord.scope h.record_current

theorem pop (h : a.Holds s) : SameOutcome Holds (ScopeArena.pop a) (ScopeCall.popping s) := by
  obtain ⟨current, outer⟩ := s
  cases outer with
  | nil =>
    rw [ScopeArena.pop, h.enclosing_root]
    exact .error h
  | cons parent outer =>
    obtain ⟨p, hp, hval⟩ := h.enclosing_child
    rw [ScopeArena.pop, hp, h.back]
    refine .ok ⟨?_, hval⟩
    rw [Array.toList_pop, h.records]
    simp [layout]

theorem declare (h : a.Holds s) (name : Symbol) :
    SameOutcome Holds (ScopeArena.declare name a) (ScopeCall.changing (·.declare name) s) := by
  rw [ScopeArena.declare, ScopeCall.changing, Scopes.declare, h.scope]
  cases s.current.bound.lookup name with
  | none => exact .ok (h.modifyScope _)
  | some old => exact .error h

theorem set (h : a.Holds s) (name : Symbol) (value : Atom) :
    SameOutcome Holds (ScopeArena.set name value a) (ScopeCall.changing (·.set name value) s) := by
  rw [ScopeArena.set, ScopeCall.changing, Scopes.set, h.scope]
  cases s.current.bound.lookup name with
  | none => exact .error h
  | some old => exact .ok (h.modifyScope _)

/-- A request to an arena gives what it gives to its stack. -/
theorem sameOutcome (call : ScopeCall) (h : a.Holds s) :
    SameOutcome Holds (call.onArena a) (call.onScopes s) := by
  cases call with
  | push => exact h.push.map ScopeAnswer.opened
  | pop => exact h.pop.map ScopeAnswer.released
  | declare name => exact (h.declare name).map _
  | set name value => exact (h.set name value).map _
  | releaseOnExit address => exact .ok (h.modifyScope _)
  | get name =>
    rw [ScopeCall.onArena, ScopeCall.onScopes]
    exact .asking h (h.get name)
  | outerGet name =>
    rw [ScopeCall.onArena, ScopeCall.onScopes]
    exact .asking h (h.outerGet name)
  | resolve atom =>
    rw [ScopeCall.onArena, ScopeCall.onScopes]
    apply SameOutcome.asking h
    cases atom with
    | name name => exact h.get name
    | _ => rfl
  | outerResolve atom =>
    rw [ScopeCall.onArena, ScopeCall.onScopes]
    apply SameOutcome.asking h
    cases atom with
    | name name => exact h.outerGet name
    | _ => rfl

end Holds

end ScopeArena

/-! ## All requests -/

namespace ScopeCall

theorem holds_requests {a : ScopeArena} {s : Scopes} (h : a.Holds s) (calls : List ScopeCall) :
    answersTo onArena calls a = answersTo onScopes calls s ∧
      (afterRequests onArena calls a).Holds (afterRequests onScopes calls s) :=
  SameOutcome.requests (fun call _ _ h => h.sameOutcome call) calls h

/-- If the action fails, it leaves the state as it was. -/
def Atomic {σ α : Type} (x : EStateM CompileError σ α) : Prop :=
  ∀ s c t, x s = .error c t → t = s

theorem Atomic.asking {σ : Type} (f : σ → Except CompileError Atom) : Atomic (asking f) := by
  intro s c t h
  rw [ScopeCall.asking] at h
  split at h
  · cases h
  · cases h
    rfl

theorem Atomic.map {σ α β : Type} {x : EStateM CompileError σ α} (hx : Atomic x) (f : α → β) :
    Atomic (f <$> x) := by
  intro s c t h
  have hmap : EStateM.map f x s = .error c t := h
  rw [EStateM.map] at hmap
  split at hmap
  · cases hmap
  · next hfails =>
    cases hmap
    exact hx s c t hfails

theorem atomic_onArena (call : ScopeCall) : Atomic call.onArena := by
  cases call with
  | push | releaseOnExit _ =>
    refine .map ?_ _
    intro a c b h
    cases h
  | pop | declare _ | set _ _ =>
    refine .map ?_ _
    intro a c b h
    simp only [ScopeArena.pop, ScopeArena.declare, ScopeArena.set] at h
    split at h <;> cases h
    rfl
  | _ => exact .asking _

/-- **An arena of scopes is a stack of maps.** Make any requests to an arena that starts with the
root, also after some have failed. The records are then a chain that starts at the root and ends at
the current scope, one more than there are scopes above the root. All answers and failures are those
of a stack of maps, in which a name is searched from the innermost to the outermost and the first
map that declares it decides, and those of the stack of scopes. A request that fails changes
nothing. If a scope is opened, and it is closed after further requests none of which has closed it,
then the arena is as it was before, and the cells to be freed are those that were registered in this
scope, in order. -/
theorem arena_answers_as_stack_of_maps (calls : List ScopeCall) {a : ScopeArena}
    (ha : afterRequests onArena calls .root = a) :
    (a.Linked ∧ a.size = a.depth + 1) ∧
      answersTo onArena calls .root = answersTo onMaps calls .root ∧
      answersTo onArena calls .root = answersTo onScopes calls .root ∧
      (∀ (call : ScopeCall) c b, call.onArena a = .error c b → b = a) ∧
      ∀ inner, (∀ before, before <+: inner →
        a.depth < (afterRequests onArena (push :: before) a).depth) →
        (afterRequests onArena (push :: inner) a).depth = a.depth + 1 →
        ScopeArena.pop (afterRequests onArena (push :: inner) a) = .ok (registered 0 inner) a := by
  obtain ⟨hanswers, hholds⟩ := holds_requests .root calls
  rw [ha] at hholds
  refine ⟨⟨hholds.linked, ?_⟩, ?_, ?_, fun call => call.atomic_onArena a,
    fun inner hdeep hclose => ?_⟩
  · rw [ScopeArena.size, hholds.size_eq, hholds.depth]
  · rw [hanswers]
    exact (SameOutcome.requests (R := Scopes.HasMaps) (fun call s m h => h.sameOutcome call)
      calls rfl).1
  · exact hanswers
  · have hafter := fun calls => (holds_requests hholds calls).2
    simp only [hholds.depth, (hafter _).depth] at hdeep hclose
    have hpop := (hafter (push :: inner)).pop
    rw [popping_of_within hdeep hclose] at hpop
    -- Both arenas hold the stack as it was before, so they are the same.
    generalize ScopeArena.pop (afterRequests onArena (push :: inner) a) = result at hpop ⊢
    cases hpop with
    | ok hrestored => rw [hrestored.unique hholds]

/-- A scope that is closed again, the attempt to close the root, and a scope with a name that has a
value. -/
def callsBefore : List ScopeCall :=
  [push, declare (.visible "x"), set (.visible "x") (.int 1), declare (.visible "y"),
    get (.visible "y"), releaseOnExit 7, pop, pop, push, declare (.visible "x"),
    set (.visible "x") (.int 2)]

/-- The name is declared again and has no value here. Cells are registered, also in a scope
inside. -/
def callsInside : List ScopeCall :=
  [releaseOnExit 3, declare (.visible "x"), get (.visible "x"), outerGet (.visible "x"), push,
    get (.visible "x"), releaseOnExit 9, set (.visible "x") (.int 4), pop, declare (.visible "x"),
    releaseOnExit 5]

/-- A name that is hidden by one without a value, requests that fail, and cells of two scopes. -/
theorem arena_answers_as_stack_of_maps_shadowed :
    ∃ a, afterRequests onArena callsBefore .root = a ∧ a.Linked ∧ a.size = 2 ∧
      answersTo onArena (callsBefore ++ push :: callsInside) .root =
        [.ok (.opened 1), .ok .done, .ok .done, .ok .done, .error (.unset (.visible "y")),
          .ok .done, .ok (.released [7]), .error .unbalancedScope, .ok (.opened 1), .ok .done,
          .ok .done, .ok (.opened 2),
          .ok .done, .ok .done, .error (.unset (.visible "x")), .ok (.value (.int 2)),
          .ok (.opened 3),
          .error (.unset (.visible "x")), .ok .done, .error (.undeclared (.visible "x")),
          .ok (.released [9]), .error (.duplicateDeclaration (.visible "x")), .ok .done] ∧
      (∀ before, before <+: callsInside →
        a.depth < (afterRequests onArena (push :: before) a).depth) ∧
      (afterRequests onArena (push :: callsInside) a).depth = a.depth + 1 ∧
      ScopeArena.pop (afterRequests onArena (push :: callsInside) a) = .ok [3, 5] a := by
  have hholds := (holds_requests .root callsBefore).2
  have hinside := fun calls => (holds_requests hholds calls).2
  obtain ⟨⟨hlinked, hsize⟩, -, -, -, hscope⟩ := arena_answers_as_stack_of_maps callsBefore rfl
  obtain ⟨-, hanswers, -⟩ := arena_answers_as_stack_of_maps (callsBefore ++ push :: callsInside) rfl
  have hdeep : ∀ before, before <+: callsInside → (afterRequests onArena callsBefore .root).depth <
      (afterRequests onArena (push :: before) (afterRequests onArena callsBefore .root)).depth := by
    intro before hbefore
    rw [hholds.depth, (hinside _).depth]
    have hall : ∀ before ∈ callsInside.inits,
        (afterRequests onScopes callsBefore .root).outer.length <
      (afterRequests onScopes (push :: before)
        (afterRequests onScopes callsBefore .root)).outer.length := by decide
    exact hall before ((List.mem_inits _ _).2 hbefore)
  have hclose :
      (afterRequests onArena (push :: callsInside)
        (afterRequests onArena callsBefore .root)).depth =
      (afterRequests onArena callsBefore .root).depth + 1 := by
    rw [hholds.depth, (hinside _).depth]
    rfl
  refine ⟨_, rfl, hlinked, ?_, hanswers, hdeep, hclose, hscope callsInside hdeep hclose⟩
  rw [hsize, hholds.depth]
  rfl

end ScopeCall

end TapeToolchain
