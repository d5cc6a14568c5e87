import Mathlib.Logic.Function.Basic
import TapeToolchain.Evaluation.Scopes
import TapeToolchain.Proofs.Actions

/-!
Requests to scopes. What the answers should be is said by a stack of maps, which are searched from
the innermost to the outermost; a stack of scopes answers like its maps (`HasMaps.sameOutcome`). A
scope that is opened and later closed leaves no trace in the stack (`popping_of_within`).
-/

namespace TapeToolchain

/-! ## Requests -/

inductive ScopeCall where
  | push
  | pop
  | declare (name : Symbol)
  | set (name : Symbol) (value : Atom)
  | releaseOnExit (address : Int)
  | get (name : Symbol)
  | outerGet (name : Symbol)
  | resolve (atom : Atom)
  | outerResolve (atom : Atom)

/-- What a request gives if it does not fail: the index of an opened scope, the cells of a closed
one, or a value. -/
inductive ScopeAnswer where
  | done
  | opened (index : Nat)
  | released (cells : List Int)
  | value (atom : Atom)

namespace ScopeCall

/-- A request that only asks leaves the state as it is. -/
def asking {σ : Type} (f : σ → Except CompileError Atom) :
    EStateM CompileError σ ScopeAnswer := fun s =>
  match f s with
  | .ok atom => .ok (.value atom) s
  | .error c => .error c s

/-- A request that changes a stack of scopes, unless it fails. -/
def changing (f : Scopes → Except CompileError Scopes) :
    EStateM CompileError Scopes Unit := fun s =>
  match f s with
  | .ok t => .ok () t
  | .error c => .error c s

/-- The request to open a scope, on a stack. -/
def pushing : EStateM CompileError Scopes Nat := fun s =>
  .ok s.size s.push

/-- The request to close a scope, on a stack. -/
def popping : EStateM CompileError Scopes (List Int) := fun s =>
  match s.pop with
  | .ok (cells, t) => .ok cells t
  | .error c => .error c s

/-- Requests to a stack of scopes. -/
def onScopes : ScopeCall → EStateM CompileError Scopes ScopeAnswer
  | push => .opened <$> pushing
  | pop => .released <$> popping
  | declare name => (fun _ => .done) <$> changing (·.declare name)
  | set name value => (fun _ => .done) <$> changing (·.set name value)
  | releaseOnExit address => fun s => .ok .done (s.releaseOnExit address)
  | get name => asking (·.get name)
  | outerGet name => asking (·.outerGet name)
  | resolve atom => asking (·.resolve atom)
  | outerResolve atom => asking (·.outerResolve atom)

end ScopeCall

/-! ## A stack of maps -/

/-- A scope as a map from the names that it declares to their values, and the cells it will free, in
order. -/
structure ScopeMap where
  bound : Symbol → Option (Option Atom)
  release : List Int

/-- The map of the current scope and those around it, the nearest first. -/
structure ScopeMaps where
  current : ScopeMap
  outer : List ScopeMap

namespace ScopeMaps

def blank : ScopeMap :=
  ⟨fun _ => none, []⟩

def root : ScopeMaps :=
  ⟨blank, []⟩

/-- The first map that declares the name decides. -/
def search (name : Symbol) (maps : List ScopeMap) : Except CompileError Atom :=
  match maps.findSome? (·.bound name) with
  | some (some value) => .ok value
  | some none => .error (.unset name)
  | none => .error (.unboundName name)

/-- The value of an atom, if names are searched in the maps. -/
def evaluate (maps : List ScopeMap) : Atom → Except CompileError Atom
  | .name name => search name maps
  | atom => .ok atom

/-- The stack with another value for a name in the current map. -/
def bind (s : ScopeMaps) (name : Symbol) (value : Option Atom) : ScopeMaps :=
  { s with current.bound := Function.update s.current.bound name (some value) }

end ScopeMaps

open ScopeMaps in
/-- Requests to a stack of maps. -/
def ScopeCall.onMaps : ScopeCall → EStateM CompileError ScopeMaps ScopeAnswer
  | push => fun s => .ok (.opened (s.outer.length + 1)) ⟨blank, s.current :: s.outer⟩
  | pop => fun s =>
    match s.outer with
    | [] => .error .unbalancedScope s
    | parent :: outer => .ok (.released s.current.release) ⟨parent, outer⟩
  | declare name => fun s =>
    if (s.current.bound name).isSome then .error (.duplicateDeclaration name) s
      else .ok .done (s.bind name none)
  | set name value => fun s =>
    if (s.current.bound name).isSome then .ok .done (s.bind name (some value))
      else .error (.undeclared name) s
  | releaseOnExit address =>
    fun s => .ok .done { s with current.release := s.current.release ++ [address] }
  | get name => asking fun s => search name (s.current :: s.outer)
  | outerGet name => asking fun s => search name s.outer
  | resolve atom => asking fun s => evaluate (s.current :: s.outer) atom
  | outerResolve atom => asking fun s => evaluate s.outer atom

/-! ## The same answers -/

theorem SameOutcome.asking {σ τ : Type} {R : σ → τ → Prop} {s : σ} {t : τ}
    {f : σ → Except CompileError Atom} {g : τ → Except CompileError Atom} (h : R s t)
    (heq : f s = g t) : SameOutcome R (ScopeCall.asking f s) (ScopeCall.asking g t) := by
  rw [ScopeCall.asking, ScopeCall.asking, heq]
  cases g t with
  | ok atom => exact .ok h
  | error c => exact .error h

/-! ## Scopes as maps -/

def Scope.map (s : Scope) : ScopeMap :=
  ⟨fun name => s.bound.lookup name, s.release⟩

def Scopes.maps (s : Scopes) : ScopeMaps :=
  ⟨s.current.map, s.outer.map Scope.map⟩

theorem search_map (name : Symbol) (scopes : List Scope) :
    ScopeMaps.search name (scopes.map Scope.map) = lookupIn name scopes := by
  induction scopes with
  | nil => rfl
  | cons scope outer ih =>
    rw [lookupIn, ← ih, ScopeMaps.search, List.map_cons, List.findSome?_cons]
    have hbound : scope.map.bound name = scope.bound.lookup name := rfl
    rw [hbound]
    cases scope.bound.lookup name with
    | none => rfl
    | some value => cases value <;> rfl

theorem lookup_assigned (name other : Symbol) (value : Option Atom)
    (bound : List (Symbol × Option Atom)) :
    (bound.map fun entry => if entry.1 = name then (name, value) else entry).lookup other =
      if other = name then (bound.lookup name).map fun _ => value else bound.lookup other := by
  induction bound with
  | nil => simp
  | cons entry bound ih =>
    obtain ⟨key, old⟩ := entry
    by_cases hkey : key = name
    · subst hkey
      by_cases hother : other = key
      · simp [hother]
      · have hne : (other == key) = false := beq_false_of_ne hother
        simp [List.lookup_cons, hne, ih, hother]
    · have hne : (name == key) = false := beq_false_of_ne (Ne.symm hkey)
      by_cases hother : other = name
      · subst hother
        simpa [List.lookup_cons, hkey, hne] using ih
      · simp [List.lookup_cons, hkey, ih, hother]

/-- The maps are those of the scopes. -/
def Scopes.HasMaps (s : Scopes) (m : ScopeMaps) : Prop :=
  m = s.maps

theorem Scopes.maps_declared {s : Scopes} {name : Symbol} :
    Scopes.maps { s with current.bound := (name, none) :: s.current.bound } =
      s.maps.bind name none := by
  have hbound : (fun other => ((name, none) :: s.current.bound).lookup other) =
      Function.update (fun other => s.current.bound.lookup other) name (some none) := by
    funext other
    by_cases hother : other = name
    · simp [hother]
    · have hne : (other == name) = false := beq_false_of_ne hother
      simp [List.lookup_cons, hne, hother]
  simp only [maps, Scope.map, ScopeMaps.bind, hbound]

theorem Scopes.maps_assigned {s : Scopes} {name : Symbol} {old : Option Atom}
    (h : s.current.bound.lookup name = some old) (value : Atom) :
    Scopes.maps { s with
      current.bound := s.current.bound.map fun entry => if entry.1 = name then (name, some value)
        else entry } =
      s.maps.bind name (some value) := by
  have hbound : (fun other => (s.current.bound.map fun entry =>
        if entry.1 = name then (name, some value) else entry).lookup other) =
      Function.update (fun other => s.current.bound.lookup other) name (some (some value)) := by
    funext other
    rw [lookup_assigned, h, Function.update_apply]
    rfl
  simp only [maps, Scope.map, ScopeMaps.bind, hbound]

/-- A request to scopes gives what it gives to their maps. -/
theorem Scopes.HasMaps.sameOutcome (call : ScopeCall) {s : Scopes} {m : ScopeMaps}
    (h : s.HasMaps m) : SameOutcome HasMaps (call.onScopes s) (call.onMaps m) := by
  have hmaps := h
  subst h
  have hget (name : Symbol) : s.get name = ScopeMaps.search name (s.maps.current :: s.maps.outer) :=
    (search_map name (s.current :: s.outer)).symm
  have houter (name : Symbol) : s.outerGet name = ScopeMaps.search name s.maps.outer :=
    (search_map name s.outer).symm
  cases call with
  | push =>
    have hsize : s.size = s.maps.outer.length + 1 := by simp [maps, size, depth]
    show SameOutcome HasMaps (.ok (ScopeAnswer.opened s.size) s.push)
      (.ok (.opened (s.maps.outer.length + 1)) _)
    rw [hsize]
    exact .ok rfl
  | pop =>
    obtain ⟨current, outer⟩ := s
    cases outer with
    | nil => exact .error rfl
    | cons parent outer => exact .ok rfl
  | declare name =>
    show SameOutcome HasMaps (EStateM.map _ (ScopeCall.changing (·.declare name)) s) _
    simp only [EStateM.map, ScopeCall.changing, Scopes.declare, ScopeCall.onMaps]
    have hbound : s.maps.current.bound name = s.current.bound.lookup name := rfl
    rw [hbound]
    cases s.current.bound.lookup name with
    | none => exact .ok maps_declared.symm
    | some old => exact .error rfl
  | set name value =>
    show SameOutcome HasMaps (EStateM.map _ (ScopeCall.changing (·.set name value)) s) _
    simp only [EStateM.map, ScopeCall.changing, Scopes.set, ScopeCall.onMaps]
    have hbound : s.maps.current.bound name = s.current.bound.lookup name := rfl
    rw [hbound]
    cases hold : s.current.bound.lookup name with
    | none => exact .error rfl
    | some old => exact .ok (maps_assigned hold value).symm
  | releaseOnExit address => exact .ok rfl
  | get name =>
    rw [ScopeCall.onScopes, ScopeCall.onMaps]
    exact .asking hmaps (hget name)
  | outerGet name =>
    rw [ScopeCall.onScopes, ScopeCall.onMaps]
    exact .asking hmaps (houter name)
  | resolve atom =>
    rw [ScopeCall.onScopes, ScopeCall.onMaps]
    apply SameOutcome.asking hmaps
    cases atom with
    | name name => exact hget name
    | _ => rfl
  | outerResolve atom =>
    rw [ScopeCall.onScopes, ScopeCall.onMaps]
    apply SameOutcome.asking hmaps
    cases atom with
    | name name => exact houter name
    | _ => rfl

/-! ## A scope that is opened and closed again -/

namespace ScopeCall

/-- How many scopes are open above one, after a request, if there were `level` before. -/
def levelAfter : ScopeCall → Nat → Nat
  | push, level => level + 1
  | pop, level => level - 1
  | _, level => level

/-- Whether a request may open or close a scope. -/
def changesDepth : ScopeCall → Bool
  | push | pop => true
  | _ => false

/-- The cell that a request registers in the scope that has `level` others above it. -/
def registers : ScopeCall → Nat → List Int
  | releaseOnExit address, 0 => [address]
  | _, _ => []

/-- The cells that requests register in the scope that at first has `level` others above it, in
order. -/
def registered : Nat → List ScopeCall → List Int
  | _, [] => []
  | level, call :: calls => call.registers level ++ registered (call.levelAfter level) calls

theorem stateAfter_asking {σ : Type} (f : σ → Except CompileError Atom) (s : σ) :
    stateAfter (asking f) s = s := by
  rw [stateAfter, asking]
  cases f s <;> rfl

/-- There is a scope with `level` scopes above it that will free the cells `cells`, and around it
are the scopes `below`. -/
def Within (level : Nat) (cells : List Int) (below : List Scope) (s : Scopes) : Prop :=
  ∃ above base, s.current :: s.outer = above ++ base :: below ∧ above.length = level ∧
    base.release = cells

/-- A request that neither opens nor closes a scope changes the current one alone. -/
theorem stateAfter_inside {call : ScopeCall} (hcall : call.changesDepth = false) (s : Scopes) :
    (stateAfter call.onScopes s).outer = s.outer ∧
      (stateAfter call.onScopes s).current.release = s.current.release ++ call.registers 0 := by
  cases call with
  | push | pop => cases hcall
  | declare name =>
    simp only [stateAfter, onScopes, Functor.map, EStateM.map, changing, Scopes.declare]
    cases s.current.bound.lookup name <;> simp [registers]
  | set name value =>
    simp only [stateAfter, onScopes, Functor.map, EStateM.map, changing, Scopes.set]
    cases s.current.bound.lookup name <;> simp [registers]
  | releaseOnExit address => exact ⟨rfl, rfl⟩
  | _ =>
    rw [onScopes, stateAfter_asking]
    exact ⟨rfl, (List.append_nil _).symm⟩

section
variable {level : Nat} {cells : List Int} {below : List Scope} {s : Scopes}

theorem Within.inside (h : Within level cells below s) {call : ScopeCall}
    (hcall : call.changesDepth = false) :
    Within level (cells ++ call.registers level) below (stateAfter call.onScopes s) := by
  obtain ⟨above, base, hscopes, rfl, rfl⟩ := h
  obtain ⟨houter, hrelease⟩ := stateAfter_inside hcall s
  generalize stateAfter call.onScopes s = t at houter hrelease ⊢
  cases above with
  | nil =>
    obtain ⟨hcurrent, hbelow⟩ := List.cons.inj hscopes
    refine ⟨[], t.current, ?_, rfl, ?_⟩
    · rw [houter, hbelow]
      rfl
    · rw [hrelease, hcurrent]
      rfl
  | cons first above =>
    obtain ⟨-, hrest⟩ := List.cons.inj hscopes
    have hnone : call.registers (first :: above).length = [] := by cases call <;> rfl
    refine ⟨t.current :: above, base, ?_, rfl, ?_⟩
    · rw [houter, hrest]
      rfl
    · rw [hnone, List.append_nil]

/-- A request that does not close the scope leaves those around it, and adds to its cells what it
registers there. -/
theorem Within.step (h : Within level cells below s) (call : ScopeCall)
    (hdeep : below.length ≤ (stateAfter call.onScopes s).outer.length) :
    Within (call.levelAfter level) (cells ++ call.registers level) below
      (stateAfter call.onScopes s) := by
  cases call with
  | push =>
    obtain ⟨above, base, hscopes, rfl, rfl⟩ := h
    exact ⟨.empty :: above, base, congrArg (Scope.empty :: ·) hscopes, rfl,
      (List.append_nil _).symm⟩
  | pop =>
    obtain ⟨above, base, hscopes, rfl, rfl⟩ := h
    obtain ⟨current, outer⟩ := s
    cases above with
    | nil =>
      -- The scope itself would be closed, unless it is the root.
      obtain ⟨rfl, rfl⟩ := List.cons.inj hscopes
      cases outer with
      | nil => exact ⟨[], current, rfl, rfl, (List.append_nil _).symm⟩
      | cons parent outer => exact absurd hdeep (Nat.not_succ_le_self outer.length)
    | cons first above =>
      have houter : outer = above ++ base :: below := (List.cons.inj hscopes).2
      obtain ⟨parent, rest, hcons⟩ :=
        List.exists_cons_of_ne_nil (l := above ++ base :: below) (by simp)
      refine ⟨above, base, ?_, rfl, (List.append_nil _).symm⟩
      rw [houter, hcons]
      rfl
  | _ => exact h.inside rfl

theorem Within.run (h : Within level cells below s) (calls : List ScopeCall)
    (hdeep : ∀ before, before <+: calls →
      below.length ≤ (afterRequests onScopes before s).outer.length) :
    ∃ last, Within last (cells ++ registered level calls) below
      (afterRequests onScopes calls s) := by
  induction calls generalizing level cells s with
  | nil => exact ⟨level, by rwa [registered, List.append_nil]⟩
  | cons call calls ih =>
    have hfirst := h.step call (hdeep [call] ⟨calls, rfl⟩)
    have hrest : ∀ before, before <+: calls →
        below.length ≤ (afterRequests onScopes before (stateAfter call.onScopes s)).outer.length :=
      fun before hbefore => hdeep (call :: before) (List.cons_prefix_cons.2 ⟨rfl, hbefore⟩)
    rw [registered, ← List.append_assoc]
    exact ih hfirst hrest

end

/-- A scope that is opened and later closed gives the cells registered in it, and leaves the stack
as it was. -/
theorem popping_of_within {s : Scopes} {calls : List ScopeCall}
    (hdeep : ∀ before, before <+: calls →
      s.outer.length < (afterRequests onScopes (push :: before) s).outer.length)
    (hclose : (afterRequests onScopes (push :: calls) s).outer.length = s.outer.length + 1) :
    popping (afterRequests onScopes (push :: calls) s) = .ok (registered 0 calls) s := by
  have hopen : Within 0 [] (s.current :: s.outer) (stateAfter push.onScopes s) :=
    ⟨[], .empty, rfl, rfl, rfl⟩
  obtain ⟨last, above, base, hscopes, -, hrelease⟩ := hopen.run calls hdeep
  rw [← afterRequests_cons onScopes push] at hscopes
  generalize afterRequests onScopes (push :: calls) s = t at hscopes hclose
  obtain ⟨current, outer⟩ := t
  -- The depth leaves no room for scopes above the one that was opened.
  cases above with
  | nil =>
    obtain ⟨rfl, rfl⟩ := List.cons.inj hscopes
    show EStateM.Result.ok current.release s = _
    rw [hrelease]
    rfl
  | cons first above =>
    have hlength : outer = above ++ base :: s.current :: s.outer := (List.cons.inj hscopes).2
    simp [hlength] at hclose
    omega

end ScopeCall

end TapeToolchain
