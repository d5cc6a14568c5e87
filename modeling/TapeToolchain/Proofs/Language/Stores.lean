import TapeToolchain.Proofs.Language.Semantics

/-!
What programs do that keep a stack. Below the frame there is a stack of bytes, which grows and
shrinks when the frame is moved, and which operands may address. A macro that is called sees the
bytes that its arguments stand for and nothing else of its caller.

`Ends p env block st Q` says that the block, run on the store `st`, comes to its end in a store of
which `Q` holds, whatever new variables hold at first. A loop ends if each round brings an invariant
closer to its end.
-/

namespace TapeToolchain

namespace Environment

/-- What an operand stands for, with the stack in one row behind so many variables. An address below
the frame is a place of the stack, as far as the stack can be reached. -/
def place? (env : Environment) (vars depth : Nat) : Atom → Option Referent
  | .address o => if o < 0 ∧ o.natAbs ≤ depth then some (.var (vars + (o.natAbs - 1))) else none
  | a => env.meaning? a

def places? (env : Environment) (vars depth : Nat) : List Atom → Option (List Referent)
  | [] => some []
  | a :: rest =>
    match env.place? vars depth a, env.places? vars depth rest with
    | some r, some rs => some (r :: rs)
    | _, _ => none

end Environment

/-- The variables of the open blocks, the oldest first; the stack, its top first, if the block can
reach it; the input that is left, and the output so far. -/
structure Store where
  vars : List UInt8
  stack : Option (List UInt8)
  input : List UInt8
  output : List UInt8

namespace Store

/-- The bytes of the stack that can be reached. -/
def below (st : Store) : List UInt8 :=
  st.stack.getD []

/-- The variables and the stack in one row, for built-ins. -/
def world (st : Store) : World :=
  ⟨st.vars ++ st.below, st.input, st.output⟩

/-- The store with the bytes of a row. -/
def update (st : Store) (w : World) : Store :=
  ⟨w.vars.take st.vars.length, st.stack.map fun _ => w.vars.drop st.vars.length, w.input, w.output⟩

/-- The byte at a place of the row. -/
def get (st : Store) (i : Nat) : UInt8 :=
  st.world.get i

def declare (st : Store) (value : UInt8) : Store :=
  { st with vars := st.vars ++ [value] }

def close (st : Store) (count : Nat) : Store :=
  { st with vars := st.vars.take count }

def meanings? (st : Store) (env : Environment) (args : List Atom) : Option (List Referent) :=
  env.places? st.vars.length st.below.length args

/-- What a built-in does to the store. The stack grows by zeros. -/
def perform (b : Builtin) (operands : List Referent) (st : Store) : Option Store :=
  match b, operands, st.stack with
  | .growStack, [.int (.ofNat n)], some bytes =>
    some { st with stack := some (List.replicate n 0 ++ bytes) }
  | .shrinkStack, [.int (.ofNat n)], some bytes =>
    if n ≤ bytes.length then some { st with stack := some (bytes.drop n) } else none
  | b, operands, _ => (b.perform operands st.world).map st.update

end Store

/-! ## Calls -/

/-- The places that arguments stand for. -/
def Referent.places (rs : List Referent) : List Nat :=
  rs.filterMap fun
    | .var i => some i
    | .int _ | .text _ => none

/-- The arguments as the callee sees them: places are numbered in order. -/
def Referent.renumbered : Nat → List Referent → List Referent
  | _, [] => []
  | k, .var _ :: rs => .var k :: renumbered (k + 1) rs
  | k, r :: rs => r :: renumbered k rs

/-- Gives places new values, one after the other. -/
def assignAll (row : List UInt8) : List Nat → List UInt8 → List UInt8
  | i :: places, value :: values => assignAll (row.set i value) places values
  | _, _ => row

namespace Store

/-- What a callee sees of the store. -/
def passed (st : Store) (rs : List Referent) : Store :=
  ⟨(Referent.places rs).map st.get, none, st.input, st.output⟩

/-- The store after a callee has left its arguments as they are in `result`. -/
def returned (st : Store) (rs : List Referent) (result : Store) : Store :=
  st.update ⟨assignAll st.world.vars (Referent.places rs) result.vars, result.input, result.output⟩

end Store

/-! ## Runs that end -/

/-- The block, run on the store, comes to its end in a store of which the predicate holds. -/
inductive Ends (p : MacroProgram) : Environment → Block → Store → (Store → Prop) → Prop where
  | done {env : Environment} {st : Store} {Q : Store → Prop} : Q st → Ends p env .done st Q
  | localCell {env : Environment} {x : String} {rest : Block} {st : Store} {Q : Store → Prop} :
      (∀ value, Ends p ((x, .var st.vars.length) :: env) rest (st.declare value) fun st' =>
        Q (st'.close st.vars.length)) →
      Ends p env (.localCell x rest) st Q
  | builtin {env : Environment} {b : Builtin} {args : List Atom} {rest : Block} {st st' : Store}
      {rs : List Referent} {Q : Store → Prop} :
      st.meanings? env args = some rs → st.perform b rs = some st' → Ends p env rest st' Q →
      Ends p env (.builtin b args rest) st Q
  | skip {env : Environment} {c : Atom} {body rest : Block} {st : Store} {i : Nat}
      {Q : Store → Prop} :
      env.meaning? c = some (.var i) → st.get i = 0 → Ends p env rest st Q →
      Ends p env (.ifNonzero c body rest) st Q
  | enter {env : Environment} {c : Atom} {body rest : Block} {st : Store} {i : Nat}
      {Q : Store → Prop} (R : Store → Prop) :
      env.meaning? c = some (.var i) → st.get i ≠ 0 → Ends p env body st R →
      (∀ st', R st' → Ends p env rest st' Q) → Ends p env (.ifNonzero c body rest) st Q
  | loop {env : Environment} {c : Atom} {body rest : Block} {st : Store} {i n : Nat}
      {Q : Store → Prop} (I : Nat → Store → Prop) :
      env.meaning? c = some (.var i) → I n st →
      (∀ n st, I n st → st.get i ≠ 0 → Ends p env body st fun st' => ∃ n' < n, I n' st') →
      (∀ n st, I n st → st.get i = 0 → Ends p env rest st Q) →
        Ends p env (.whileNonzero c body rest) st Q
  | call {env : Environment} {f : String} {args : List Atom} {m : Macro} {rest : Block} {st : Store}
      {rs : List Referent} {Q : Store → Prop} (R : Store → Prop) :
      p.find? f = some m → st.meanings? env args = some rs → (Referent.places rs).Nodup →
      Ends p (Environment.bind [] m.params (Referent.renumbered 0 rs)) m.body (st.passed rs) R →
      (∀ result, R result → Ends p env rest (st.returned rs result) Q) →
      Ends p env (.call f args rest) st Q

namespace Ends

variable {p : MacroProgram} {env : Environment} {block rest : Block} {st : Store}
    {Q R : Store → Prop}

theorem mono (h : Ends p env block st Q) (hQR : ∀ st', Q st' → R st') : Ends p env block st R := by
  induction h generalizing R with
  | done hQ => exact .done (hQR _ hQ)
  | localCell _ ih => exact .localCell fun value => ih value fun st' => hQR _
  | builtin hargs hperform _ ih => exact .builtin hargs hperform (ih hQR)
  | skip hc hzero _ ih => exact .skip hc hzero (ih hQR)
  | enter S hc hne hbody _ _ ihrest => exact .enter S hc hne hbody fun st' hS => ihrest st' hS hQR
  | loop I hc hI hbody _ _ ihrest =>
    exact .loop I hc hI hbody fun n st hI hzero => ihrest n st hI hzero hQR
  | call S hfind hargs hnodup hbody _ _ ihrest =>
    exact .call S hfind hargs hnodup hbody fun result hS => ihrest result hS hQR

/-- A variable with its number. -/
theorem declare {x : String} (k : Nat) (hk : st.vars.length = k)
    (h : ∀ value, Ends p ((x, .var k) :: env) rest (st.declare value) fun st' => Q (st'.close k)) :
    Ends p env (.localCell x rest) st Q := by
  subst hk
  exact .localCell h

/-- A loop that is not entered. -/
theorem pass {c : Atom} {body : Block} {i : Nat} (hc : env.meaning? c = some (.var i))
    (hzero : st.get i = 0) (hrest : Ends p env rest st Q) :
    Ends p env (.whileNonzero c body rest) st Q := by
  refine .loop (n := 0) (fun _ st' => st' = st) hc rfl ?_ ?_
  · rintro _ _ rfl hne
    exact absurd hzero hne
  · rintro _ _ rfl -
    exact hrest

/-- A loop that makes one round. -/
theorem once {c : Atom} {body : Block} {i : Nat} (st' : Store) (hc : env.meaning? c = some (.var i))
    (hne : st.get i ≠ 0) (hbody : Ends p env body st (· = st')) (hzero : st'.get i = 0)
    (hrest : Ends p env rest st' Q) : Ends p env (.whileNonzero c body rest) st Q := by
  refine .loop (n := 1) (fun n s => n = 1 ∧ s = st ∨ n = 0 ∧ s = st') hc (Or.inl ⟨rfl, rfl⟩) ?_ ?_
  · rintro _ _ (⟨rfl, rfl⟩ | ⟨rfl, rfl⟩) hgoes
    · exact hbody.mono fun _ h => ⟨0, Nat.one_pos, Or.inr ⟨rfl, h⟩⟩
    · exact absurd hzero hgoes
  · rintro _ _ (⟨rfl, rfl⟩ | ⟨rfl, rfl⟩) hstops
    · exact absurd hstops hne
    · exact hrest

/-- A call whose callee has one outcome. -/
theorem called (st' : Store) {f : String} {args : List Atom} {m : Macro} {rs : List Referent}
    {result : Store} (hfind : p.find? f = some m) (hargs : st.meanings? env args = some rs)
    (hnodup : (Referent.places rs).Nodup)
    (hbody : Ends p (Environment.bind [] m.params (Referent.renumbered 0 rs)) m.body (st.passed rs)
      (· = result))
    (hreturn : st.returned rs result = st') (hrest : Ends p env rest st' Q) :
    Ends p env (.call f args rest) st Q := by
  subst hreturn
  exact .call (· = result) hfind hargs hnodup hbody fun _ h => h ▸ hrest

end Ends

/-- The store after the first `n` statements of the block, if these are built-ins, and what is left
of the block. -/
def Store.straight (env : Environment) : Nat → Block → Store → Option (Block × Store)
  | 0, block, st => some (block, st)
  | n + 1, .builtin b args rest, st =>
    match st.meanings? env args with
    | some rs =>
      match st.perform b rs with
      | some st' => straight env n rest st'
      | none => none
    | none => none
  | _ + 1, _, _ => none

/-- Built-ins in a row. -/
theorem Ends.straight {p : MacroProgram} {env : Environment} {block rest : Block} {st : Store}
    {Q : Store → Prop} (n : Nat) (st' : Store) (h : st.straight env n block = some (rest, st'))
    (hrest : Ends p env rest st' Q) : Ends p env block st Q := by
  induction n generalizing block st with
  | zero => cases h; exact hrest
  | succ n ih =>
    cases block with
    | builtin b args rest' =>
      simp only [Store.straight] at h
      split at h
      · next rs hrs =>
        split at h
        · next st₁ hst₁ => exact .builtin hrs hst₁ (ih h)
        · cases h
      · cases h
    | done | localCell | ifNonzero | whileNonzero | call => cases h

end TapeToolchain
