import TapeToolchain.Proofs.Frame.Room
import TapeToolchain.Proofs.Language.Lockstep
import TapeToolchain.Proofs.Language.StoreSimulation

/-!
Programs that compile. What the evaluation of a block may fail over can be told from the block
beforehand: the kinds of operands, whether they differ, names that are declared twice or closed on
another cell, and the room that local cells and scratch cells take on the tape (`MacroProgram.fit`).
A block that fits is evaluated without failure (`Expands.succeeds`).
-/

namespace TapeToolchain

open Desugaring (localStatements whileStatements conditionCopy)

/-! ## The check -/

def Builtin.scratchCells : Builtin → Nat
  | .copy | .putStringConstant => 1
  | .stackAdd | .stackSub | .asLogical | .logicalNot => 2
  | .logicalAnd | .logicalOr => 3
  | _ => 0

/-- Whether a built-in that does not resize the frame takes the operands: their number and kinds,
and that those differ which must. -/
def Builtin.accepts : Builtin → List Referent → Bool
  | .clear, [.var _] | .getChar, [.var _] | .putChar, [.var _] => true
  | .stackAdd, [.var _, .var _] | .stackSub, [.var _, .var _] => true
  | .destructiveAdd, [.var src, .var dst] | .destructiveSub, [.var src, .var dst]
  | .move, [.var src, .var dst] | .copy, [.var src, .var dst] | .asLogical, [.var src, .var dst]
  | .logicalNot, [.var src, .var dst] => src ≠ dst
  | .constantAdd, [.int n, .var _] | .constantSub, [.int n, .var _] => 0 ≤ n
  | .logicalAnd, [.var a, .var c, .var dst] | .logicalOr, [.var a, .var c, .var dst] =>
    a ≠ dst ∧ c ≠ dst
  | .putStringConstant, [.text _] => true
  | _, _ => false

/-- What is known of a frame before a block is evaluated: the number of variables, a bound on the
offsets of occupied cells, where the base is, and whether the block can reach the stack below it. -/
structure Shape where
  vars : Nat
  cells : Nat
  base : Nat
  owns : Bool

namespace Shape

/-- The bytes of the stack that can be reached. -/
def depth (sh : Shape) : Nat :=
  if sh.owns then sh.base else 0

/-- The first position above all occupied cells. -/
def top (sh : Shape) : Nat :=
  sh.base + sh.cells

/-- The base after a built-in, if it takes the operands and there is room for its scratch cells. -/
def invoke (sh : Shape) (limit : Nat) (b : Builtin) (operands : List Referent) : Option Nat :=
  match b, operands with
  | .growStack, [.int (.ofNat n)] =>
    if sh.owns ∧ sh.top + n ≤ limit then some (sh.base + n) else none
  | .shrinkStack, [.int (.ofNat n)] => if sh.owns ∧ n ≤ sh.base then some (sh.base - n) else none
  | b, operands =>
    if b.accepts operands ∧ sh.top + b.scratchCells ≤ limit then some sh.base else none

end Shape

namespace MacroProgram

/-- The base at the end of the block, if the block fits on a tape of the given size. The bodies of
callees are left to another check. -/
def fitWith (p : MacroProgram) (limit : Nat) (callee : Environment → Shape → Block → Option Nat) :
    Environment → Shape → Block → Option Nat
  | _, sh, .done => some sh.base
  | env, sh, .localCell x rest =>
    if x ∉ rest.locals ∧ sh.top + 1 ≤ limit then
      p.fitWith limit callee ((x, .var sh.vars) :: env)
        { sh with vars := sh.vars + 1, cells := sh.cells + 1 } rest
    else none
  | env, sh, .ifNonzero c body rest =>
    match env.meaning? c with
    | some (.var _) =>
      if sh.top + 2 ≤ limit then
        match p.fitWith limit callee env { sh with cells := sh.cells + 1 } body with
        | some base => p.fitWith limit callee env { sh with base } rest
        | none => none
      else none
    | _ => none
  | env, sh, .whileNonzero c body rest =>
    match env.meaning? c with
    | some (.var _) =>
      if ∀ x ∈ body.locals, c ≠ .name (.visible x) then
        match p.fitWith limit callee env sh body with
        | some base => p.fitWith limit callee env { sh with base } rest
        | none => none
      else none
    | _ => none
  | env, sh, .call f args rest =>
    match p.find? f, env.places? sh.vars sh.depth args with
    | some m, some rs =>
      if m.params.length = args.length ∧ m.params.Nodup ∧ (Referent.places rs).Nodup then
        match callee (Environment.bind [] m.params (Referent.renumbered 0 rs))
            { sh with vars := (Referent.places rs).length, owns := false } m.body with
        | some base => p.fitWith limit callee env { sh with base } rest
        | none => none
      else none
    | _, _ => none
  | env, sh, .builtin b args rest =>
    match env.places? sh.vars sh.depth args with
    | some rs =>
      match sh.invoke limit b rs with
      | some base => p.fitWith limit callee env { sh with base } rest
      | none => none
    | none => none

/-- The base at the end of the block, if the block fits on a tape of the given size and calls go
less than `d` deep. -/
def fit (p : MacroProgram) (limit : Nat) : (d : Nat) → Environment → Shape → Block → Option Nat
  | 0 => fun _ _ _ => none
  | d + 1 => p.fitWith limit (p.fit limit d)

/-! ## What makes a block fit -/

section
variable {p : MacroProgram} {limit base : Nat} {callee : Environment → Shape → Block → Option Nat}
    {env : Environment}
  {sh : Shape} {c : Atom} {args : List Atom} {body rest : Block}

theorem fitWith_localCell {x : String} :
    p.fitWith limit callee env sh (.localCell x rest) = some base ↔
      (x ∉ rest.locals ∧ sh.top + 1 ≤ limit) ∧
        p.fitWith limit callee ((x, .var sh.vars) :: env)
          { sh with vars := sh.vars + 1, cells := sh.cells + 1 } rest = some base := by
  rw [fitWith, Option.ite_none_right_eq_some]

theorem fitWith_ifNonzero :
    p.fitWith limit callee env sh (.ifNonzero c body rest) = some base ↔
      ∃ i middle, env.meaning? c = some (.var i) ∧ sh.top + 2 ≤ limit ∧
        p.fitWith limit callee env { sh with cells := sh.cells + 1 } body = some middle ∧
        p.fitWith limit callee env { sh with base := middle } rest = some base := by
  rw [fitWith]
  constructor
  · intro h
    split at h
    · next i hc =>
      obtain ⟨hroom, h⟩ := Option.ite_none_right_eq_some.1 h
      split at h
      · next middle hbody => exact ⟨i, middle, hc, hroom, hbody, h⟩
      · cases h
    · cases h
  · rintro ⟨i, middle, hc, hroom, hbody, hrest⟩
    simp only [hc, if_pos hroom, hbody, hrest]

theorem fitWith_whileNonzero :
    p.fitWith limit callee env sh (.whileNonzero c body rest) = some base ↔
      ∃ i middle, env.meaning? c = some (.var i) ∧ (∀ x ∈ body.locals, c ≠ .name (.visible x)) ∧
        p.fitWith limit callee env sh body = some middle ∧
        p.fitWith limit callee env { sh with base := middle } rest = some base := by
  rw [fitWith]
  constructor
  · intro h
    split at h
    · next i hc =>
      obtain ⟨hnames, h⟩ := Option.ite_none_right_eq_some.1 h
      split at h
      · next middle hbody => exact ⟨i, middle, hc, hnames, hbody, h⟩
      · cases h
    · cases h
  · rintro ⟨i, middle, hc, hnames, hbody, hrest⟩
    simp only [hc, if_pos hnames, hbody, hrest]

theorem fitWith_call {f : String} :
    p.fitWith limit callee env sh (.call f args rest) = some base ↔
      ∃ m rs middle, p.find? f = some m ∧ env.places? sh.vars sh.depth args = some rs ∧
        (m.params.length = args.length ∧ m.params.Nodup ∧ (Referent.places rs).Nodup) ∧
        callee (Environment.bind [] m.params (Referent.renumbered 0 rs))
          { sh with vars := (Referent.places rs).length, owns := false } m.body = some middle ∧
        p.fitWith limit callee env { sh with base := middle } rest = some base := by
  rw [fitWith]
  constructor
  · intro h
    split at h
    · next m rs hm hplaces =>
      obtain ⟨hparams, h⟩ := Option.ite_none_right_eq_some.1 h
      split at h
      · next middle hbody => exact ⟨m, rs, middle, hm, hplaces, hparams, hbody, h⟩
      · cases h
    · cases h
  · rintro ⟨m, rs, middle, hm, hplaces, hparams, hbody, hrest⟩
    simp only [hm, hplaces, if_pos hparams, hbody, hrest]

theorem fitWith_builtin {b : Builtin} :
    p.fitWith limit callee env sh (.builtin b args rest) = some base ↔
      ∃ rs middle, env.places? sh.vars sh.depth args = some rs ∧
        sh.invoke limit b rs = some middle ∧
        p.fitWith limit callee env { sh with base := middle } rest = some base := by
  rw [fitWith]
  constructor
  · intro h
    split at h
    · next rs hplaces =>
      split at h
      · next middle hinvoke => exact ⟨rs, middle, hplaces, hinvoke, h⟩
      · cases h
    · cases h
  · rintro ⟨rs, middle, hplaces, hinvoke, hrest⟩
    simp only [hplaces, hinvoke, hrest]

end

/-- A block that fits fits with its callees one call less deep. -/
theorem fit_eq_some {p : MacroProgram} {limit d base : Nat} {env : Environment} {sh : Shape}
    {block : Block} :
    p.fit limit d env sh block = some base ↔
      ∃ n, d = n + 1 ∧ p.fitWith limit (p.fit limit n) env sh block = some base := by
  cases d with
  | zero => simp [fit]
  | succ d => simp [fit]

end MacroProgram

/-! ## Texts -/

/-- Every character of a text fits in a cell. -/
def Referent.Printable : Referent → Prop
  | .text t => ∀ c ∈ t.toList, c.toNat ≤ 0xff
  | .var _ | .int _ => True

def Atom.Printable : Atom → Prop
  | .text t => ∀ c ∈ t.toList, c.toNat ≤ 0xff
  | .name _ | .int _ | .address _ => True

/-- The texts among what names stand for can be written. -/
def Environment.Printable (env : Environment) : Prop :=
  ∀ x r, env.lookup x = some r → r.Printable

namespace Environment.Printable

variable {env : Environment}

theorem place (h : env.Printable) {vars depth : Nat} {a : Atom} {r : Referent} (ha : a.Printable)
    (hr : env.place? vars depth a = some r) : r.Printable := by
  cases a with
  | address o =>
    simp only [Environment.place?] at hr
    split at hr
    · cases hr; trivial
    · cases hr
  | name x =>
    obtain ⟨x, hidden⟩ := x
    cases hidden with
    | false => exact h x r hr
    | true => cases hr
  | int n => cases hr; trivial
  | text t => cases hr; exact ha

theorem places (h : env.Printable) {vars depth : Nat} {args : List Atom} {rs : List Referent}
    (hargs : ∀ a ∈ args, a.Printable) (hrs : env.places? vars depth args = some rs) :
    ∀ r ∈ rs, r.Printable := by
  induction args generalizing rs with
  | nil => cases hrs; nofun
  | cons a args ih =>
    obtain ⟨ha, hargs⟩ := List.forall_mem_cons.1 hargs
    simp only [Environment.places?] at hrs
    split at hrs
    · next r others hr hothers =>
      cases hrs
      exact List.forall_mem_cons.2 ⟨h.place ha hr, ih hargs hothers⟩
    · cases hrs

theorem cons (h : env.Printable) (x : String) {r : Referent} (hr : r.Printable) :
    Printable ((x, r) :: env) := by
  intro y r' hy
  rw [List.lookup_cons] at hy
  split at hy
  · cases hy; exact hr
  · exact h y r' hy

theorem bind (h : env.Printable) {params : List String} {rs : List Referent}
    (hrs : ∀ r ∈ rs, r.Printable) : Printable (env.bind params rs) := by
  induction params generalizing env rs with
  | nil => exact h
  | cons x params ih =>
    cases rs with
    | nil => exact h
    | cons r rs =>
      obtain ⟨hr, hrs⟩ := List.forall_mem_cons.1 hrs
      exact ih (h.cons x hr) hrs

end Environment.Printable

theorem Referent.printable_renumbered {k : Nat} {rs : List Referent} (h : ∀ r ∈ rs, r.Printable) :
    ∀ r ∈ Referent.renumbered k rs, r.Printable := by
  induction rs generalizing k with
  | nil => nofun
  | cons r rs ih =>
    obtain ⟨hr, hrs⟩ := List.forall_mem_cons.1 h
    cases r with
    | var _ => exact List.forall_mem_cons.2 ⟨trivial, ih hrs⟩
    | int _ | text _ => exact List.forall_mem_cons.2 ⟨hr, ih hrs⟩

/-! ## Built-ins -/

namespace Referent

variable {cells : List Int} {values : List Atom} {i j l : Nat}

theorem means_one (h : List.Forall₂ (Means cells) [.var i] values) :
    ∃ o, cells[i]? = some o ∧ values = [.address o] := by
  obtain ⟨_, _, ⟨hi⟩, ⟨⟩, rfl⟩ := List.forall₂_cons_left_iff.1 h
  exact ⟨_, hi, rfl⟩

theorem means_two (h : List.Forall₂ (Means cells) [.var i, .var j] values) :
    ∃ o o', cells[i]? = some o ∧ cells[j]? = some o' ∧ values = [.address o, .address o'] := by
  obtain ⟨_, _, ⟨hi⟩, hrest, rfl⟩ := List.forall₂_cons_left_iff.1 h
  obtain ⟨o', hj, rfl⟩ := means_one hrest
  exact ⟨_, o', hi, hj, rfl⟩

theorem means_three (h : List.Forall₂ (Means cells) [.var i, .var j, .var l] values) :
    ∃ o o' o'', cells[i]? = some o ∧ cells[j]? = some o' ∧ cells[l]? = some o'' ∧
      values = [.address o, .address o', .address o''] := by
  obtain ⟨_, _, ⟨hi⟩, hrest, rfl⟩ := List.forall₂_cons_left_iff.1 h
  obtain ⟨o', o'', hj, hl, rfl⟩ := means_two hrest
  exact ⟨_, o', o'', hi, hj, hl, rfl⟩

theorem means_constant {n : Int} (h : List.Forall₂ (Means cells) [.int n, .var i] values) :
    ∃ o, cells[i]? = some o ∧ values = [.int n, .address o] := by
  obtain ⟨_, _, ⟨⟩, hrest, rfl⟩ := List.forall₂_cons_left_iff.1 h
  obtain ⟨o, hi, rfl⟩ := means_one hrest
  exact ⟨o, hi, rfl⟩

end Referent

namespace Frame

/-- Variables are in cells on the tape, with room above for scratch cells. -/
structure Accommodates (f : Frame) (cells : List Int) (k need : Nat) : Prop where
  room : f.Room k need
  layout : f.Layout cells
  covers : f.emitter.Covers cells

namespace Accommodates

variable {f : Frame} {cells : List Int} {k need : Nat} {x : Action Unit} {i j l : Nat}
    {o o' o'' : Int}

theorem onTape (h : f.Accommodates cells k need) (hi : cells[i]? = some o) :
    f.emitter.onTape (f.emitter.base + o) = true :=
  h.covers o (List.mem_of_getElem? hi)

theorem lt (h : f.Accommodates cells k need) (hi : cells[i]? = some o) : o < k := by
  rcases h.layout.held o (List.mem_of_getElem? hi) with hheld | hneg
  · exact (h.room.cells o hheld).2
  · omega

/-- Different variables are in different cells. -/
theorem ne (h : f.Accommodates cells k need) (hi : cells[i]? = some o) (hj : cells[j]? = some o')
    (hij : i ≠ j) : o ≠ o' := by
  rintro rfl
  obtain ⟨hi, hio⟩ := List.getElem?_eq_some_iff.1 hi
  obtain ⟨hj, hjo⟩ := List.getElem?_eq_some_iff.1 hj
  exact hij (h.layout.nodup.getElem_inj_iff.1 (hio.trans hjo.symm))

/-- A scratch cell is free, so it is not the cell of a variable. -/
theorem leastFree_ne (h : f.Accommodates cells k need) (hi : cells[i]? = some o) :
    f.cells.leastFree ≠ o :=
  fun heq => h.layout.notMem f.cells.leastFree_notMem f.cells.leastFree_nonneg
    (heq ▸ List.mem_of_getElem? hi)

theorem leastFree_notMem_two (h : f.Accommodates cells k need) (hi : cells[i]? = some o)
    (hj : cells[j]? = some o') : f.cells.leastFree ∉ [o, o'] := by
  simpa using ⟨h.leastFree_ne hi, h.leastFree_ne hj⟩

theorem one (h : f.Accommodates cells k need) (hi : cells[i]? = some o)
    (hx : Visits f.cells x [o]) : ∃ g, x f = .ok () g ∧ f.MovedBy g 0 :=
  Room.run hx (by simpa using h.onTape hi)

theorem two (h : f.Accommodates cells k need) (hi : cells[i]? = some o) (hj : cells[j]? = some o')
    (hx : Visits f.cells x [o, o']) : ∃ g, x f = .ok () g ∧ f.MovedBy g 0 :=
  Room.run hx (by simpa using ⟨h.onTape hi, h.onTape hj⟩)

theorem twoWithScratch (h : f.Accommodates cells k 2) (hi : cells[i]? = some o)
    (hj : cells[j]? = some o')
    (hx : Visits f.cells x [f.cells.leastFree, (f.cells.lend [o, o']).leastFree, o, o']) :
    ∃ g, x f = .ok () g ∧ f.MovedBy g 0 :=
  Room.run hx (Emitter.covers_append.2
    ⟨h.room.covers_second (Nat.le_refl 2) (by simpa using ⟨h.lt hi, h.lt hj⟩),
      by simpa using ⟨h.onTape hi, h.onTape hj⟩⟩)

theorem threeWithScratch (h : f.Accommodates cells k 3) (hi : cells[i]? = some o)
    (hj : cells[j]? = some o') (hl : cells[l]? = some o'')
    (hx : Visits f.cells x [f.cells.leastFree, (f.cells.lend [o, o', o'']).leastFree,
      ((f.cells.lend [o, o', o'']).insert (f.cells.lend [o, o', o'']).leastFree).leastFree, o, o',
      o'']) :
    ∃ g, x f = .ok () g ∧ f.MovedBy g 0 :=
  Room.run hx (Emitter.covers_append.2
    ⟨h.room.covers_third (Nat.le_refl 3) (by simpa using ⟨h.lt hi, h.lt hj, h.lt hl⟩),
      by simpa using ⟨h.onTape hi, h.onTape hj, h.onTape hl⟩⟩)

theorem copy (h : f.Accommodates cells k 1) (hi : cells[i]? = some o) (hj : cells[j]? = some o')
    (hij : i ≠ j) : ∃ g, Frame.copy o o' f = .ok () g ∧ f.MovedBy g 0 :=
  Room.run (.copy (h.ne hi hj hij) (h.leastFree_notMem_two hi hj)) (Emitter.covers_append.2
    ⟨h.room.covers_first (Nat.le_refl 1), by simpa using ⟨h.onTape hi, h.onTape hj⟩⟩)

/-- A built-in that takes the operands succeeds if there is room for its scratch cells. -/
theorem invoke {b : Builtin} (h : f.Accommodates cells k b.scratchCells) {rs : List Referent}
    {values : List Atom} (hrs : List.Forall₂ (Referent.Means cells) rs values)
    (hprintable : ∀ r ∈ rs, r.Printable) (haccepts : b.accepts rs = true) :
    ∃ g, Frame.invoke b values f = .ok () g ∧ f.MovedBy g 0 := by
  unfold Builtin.accepts at haccepts
  split at haccepts
  · obtain ⟨o, hi, rfl⟩ := Referent.means_one hrs
    exact h.one hi (.clear o)
  · obtain ⟨o, hi, rfl⟩ := Referent.means_one hrs
    exact h.one hi (.stepAt o (.repeated .read 1))
  · obtain ⟨o, hi, rfl⟩ := Referent.means_one hrs
    exact h.one hi (.stepAt o (.repeated .write 1))
  · obtain ⟨o, o', hi, hj, rfl⟩ := Referent.means_two hrs
    exact h.twoWithScratch hi hj (.stackAdd (h.leastFree_notMem_two hi hj))
  · obtain ⟨o, o', hi, hj, rfl⟩ := Referent.means_two hrs
    exact h.twoWithScratch hi hj (.stackSub (h.leastFree_notMem_two hi hj))
  · obtain ⟨o, o', hi, hj, rfl⟩ := Referent.means_two hrs
    exact h.two hi hj (.destructiveAdd (h.ne hi hj (of_decide_eq_true haccepts)))
  · obtain ⟨o, o', hi, hj, rfl⟩ := Referent.means_two hrs
    exact h.two hi hj (.destructiveSub (h.ne hi hj (of_decide_eq_true haccepts)))
  · obtain ⟨o, o', hi, hj, rfl⟩ := Referent.means_two hrs
    exact h.two hi hj (.move (h.ne hi hj (of_decide_eq_true haccepts)))
  · obtain ⟨o, o', hi, hj, rfl⟩ := Referent.means_two hrs
    exact h.copy hi hj (of_decide_eq_true haccepts)
  · obtain ⟨o, o', hi, hj, rfl⟩ := Referent.means_two hrs
    exact h.twoWithScratch hi hj
      (.asLogical (h.ne hi hj (of_decide_eq_true haccepts)) (h.leastFree_notMem_two hi hj))
  · obtain ⟨o, o', hi, hj, rfl⟩ := Referent.means_two hrs
    exact h.twoWithScratch hi hj
      (.logicalNot (h.ne hi hj (of_decide_eq_true haccepts)) (h.leastFree_notMem_two hi hj))
  · obtain ⟨o, hi, rfl⟩ := Referent.means_constant hrs
    obtain ⟨n, rfl⟩ := Int.eq_ofNat_of_zero_le (of_decide_eq_true haccepts)
    exact h.one hi (.stepAt o (.repeated .increment n))
  · obtain ⟨o, hi, rfl⟩ := Referent.means_constant hrs
    obtain ⟨n, rfl⟩ := Int.eq_ofNat_of_zero_le (of_decide_eq_true haccepts)
    exact h.one hi (.stepAt o (.repeated .decrement n))
  · obtain ⟨o, o', o'', hi, hj, hl, rfl⟩ := Referent.means_three hrs
    obtain ⟨hil, hjl⟩ := of_decide_eq_true haccepts
    exact h.threeWithScratch hi hj hl (.logicalAnd (h.ne hi hl hil) (h.ne hj hl hjl)
      (by simpa using ⟨h.leastFree_ne hi, h.leastFree_ne hj, h.leastFree_ne hl⟩))
  · obtain ⟨o, o', o'', hi, hj, hl, rfl⟩ := Referent.means_three hrs
    obtain ⟨hil, hjl⟩ := of_decide_eq_true haccepts
    exact h.threeWithScratch hi hj hl (.logicalOr (h.ne hi hl hil) (h.ne hj hl hjl)
      (by simpa using ⟨h.leastFree_ne hi, h.leastFree_ne hj, h.leastFree_ne hl⟩))
  · next t =>
    obtain ⟨_, _, ⟨⟩, ⟨⟩, rfl⟩ := List.forall₂_cons_left_iff.1 hrs
    have hbytes : Referent.Printable (.text t) := hprintable _ List.mem_cons_self
    exact Room.run (.putStringConstant hbytes) (h.room.covers_first (Nat.le_refl 1))
  · cases haccepts

end Accommodates

end Frame

/-! ## Evaluators -/

namespace Evaluator

/-- The evaluator is about to write code for a block of this shape. -/
structure Admits (s : Evaluator) (limit : Nat) (env : Environment) (sh : Shape) (cells : List Int) :
    Prop where
  size : cells.length = sh.vars
  layout : s.frame.Layout cells
  known : env.Known cells s.scopes
  printable : env.Printable
  base : s.frame.emitter.base = sh.base
  tape : s.frame.emitter.limit = limit
  pool : ∀ o ∈ s.frame.cells.offsets, 0 ≤ o ∧ o < sh.cells
  room : sh.top ≤ limit
  onTape : ∀ o ∈ cells, 0 ≤ sh.base + o
  above : sh.owns = true → ∀ o ∈ cells, 0 ≤ o

/-- The evaluation has come to a state on the same tape, with its base at the given place. A block
that cannot reach the stack has not moved it. -/
structure Lands (s : Evaluator) (limit : Nat) (sh : Shape) (base : Nat) (t : Evaluator) : Prop where
  atBase : t.frame.emitter.base = base
  tapeSize : t.frame.emitter.tapeSize = s.frame.emitter.tapeSize
  kept : sh.owns = false → base = sh.base
  room : base + sh.cells ≤ limit

theorem Lands.limit {s t : Evaluator} {limit base : Nat} {sh : Shape}
    (h : s.Lands limit sh base t) : t.frame.emitter.limit = s.frame.emitter.limit := by
  rw [Emitter.limit, h.tapeSize, Emitter.limit]

/-- One statement after the other. -/
theorem Lands.trans {s t u : Evaluator} {limit base base' : Nat} {sh : Shape}
    (h₁ : s.Lands limit sh base t) (h₂ : t.Lands limit { sh with base } base' u) :
    s.Lands limit sh base' u :=
  ⟨h₂.atBase, h₂.tapeSize.trans h₁.tapeSize, fun howns => (h₂.kept howns).trans (h₁.kept howns),
    h₂.room⟩

theorem run_invoke_of_ok {b : Builtin} {atoms values : List Atom} {s : Evaluator} {f : Frame}
    (h : s.scopes.resolveEach atoms = .ok values) (hb : Frame.invoke b values s.frame = .ok () f) :
    run [Statement.invoke b atoms] s = .ok () ⟨f, s.scopes⟩ :=
  run_cons_of_ok (evaluate_invoke_of_ok h hb) []

namespace Admits

variable {s t : Evaluator} {limit base : Nat} {env : Environment} {sh : Shape} {cells : List Int}

/-- The variables and the part of the stack that can be reached. -/
theorem accommodates (h : s.Admits limit env sh cells) (need : Nat)
    (hneed : sh.top + need ≤ limit) :
    s.frame.Accommodates (cells ++ stackOffsets sh.depth) sh.cells need := by
  have hbase := h.base
  have hlimit := h.tape
  rw [Shape.top] at hneed
  have hdepth : 0 < sh.depth → sh.owns = true := fun hpos => by
    by_contra hno
    simp [Shape.depth, hno] at hpos
  refine ⟨⟨by omega, h.pool, by omega⟩, h.layout.append_stack fun hpos => h.above (hdepth hpos),
    fun o ho => Emitter.onTape_iff.2 ?_⟩
  rcases List.mem_append.1 ho with ho | ho
  · have := h.onTape o ho
    rcases h.layout.held o ho with hheld | hneg
    · have := h.pool o hheld
      omega
    · omega
  · obtain ⟨k, hk, rfl⟩ := mem_stackOffsets.1 ho
    have : sh.depth ≤ sh.base := by
      rw [Shape.depth]
      split <;> omega
    omega

/-- The next statement of the block. -/
theorem next (h : s.Admits limit env sh cells) (howns : Owns s [] t)
    (hlands : s.Lands limit sh base t) : t.Admits limit env { sh with base } cells where
  size := h.size
  layout := howns.layout h.layout
  known := by
    rw [howns.scopes]
    exact h.known
  printable := h.printable
  base := hlands.atBase
  tape := hlands.limit.trans h.tape
  pool o ho := by
    rcases (howns.mem_cells o).1 ho with hnew | ho
    · cases hnew
    · exact h.pool o ho
  room := hlands.room
  onTape o ho := by
    cases howns' : sh.owns with
    | true =>
      have := h.above howns' o ho
      show 0 ≤ (base : Int) + o
      omega
    | false =>
      rw [hlands.kept howns']
      exact h.onTape o ho
  above := h.above

/-- What is left of a block after a statement that keeps no cells. -/
theorem andThen (h : s.Admits limit env sh cells) (howns : Owns s [] t) {first out : List Node}
    (hfirst : run first s = .ok () t) {middle : Nat} (hlands : s.Lands limit sh middle t)
    (hrest : t.Admits limit env { sh with base := middle } cells → t.scopes = s.scopes →
      ∃ u, run out t = .ok () u ∧ t.Lands limit { sh with base := middle } base u) :
    ∃ u, run (first ++ out) s = .ok () u ∧ s.Lands limit sh base u := by
  obtain ⟨u, hu, hlands'⟩ := hrest (h.next howns hlands) howns.scopes
  exact ⟨u, (run_append_of_ok hfirst out).trans hu, hlands.trans hlands'⟩

/-- Only scopes, occupied cells and the base matter. -/
theorem congr (h : s.Admits limit env sh cells) (hscopes : env.Known cells t.scopes)
    (hmoved : s.frame.MovedBy t.frame 0) : t.Admits limit env sh cells where
  size := h.size
  layout := h.layout.of_cells hmoved.cells
  known := hscopes
  printable := h.printable
  base := by rw [hmoved.base, Int.add_zero, h.base]
  tape := hmoved.limit.trans h.tape
  pool := by rw [hmoved.cells]; exact h.pool
  room := h.room
  onTape := h.onTape
  above := h.above

theorem invoke (h : s.Admits limit env sh cells) {b : Builtin} {args : List Atom}
    {rs : List Referent} (hargs : env.places? sh.vars sh.depth args = some rs)
    (hprintable : ∀ a ∈ args, a.Printable) (hb : sh.invoke limit b rs = some base) :
    ∃ f, run [Statement.invoke b args] s = .ok () ⟨f, s.scopes⟩ ∧
      s.Lands limit sh base ⟨f, s.scopes⟩ := by
  obtain ⟨values, hvalues, hmeans⟩ := h.known.places (h.size ▸ hargs)
  have hbase := h.base
  have hroom := h.room
  rw [Shape.top] at hroom
  suffices hframe : ∃ f, Frame.invoke b values s.frame = .ok () f ∧
      s.frame.MovedBy f (base - sh.base) ∧ (sh.owns = false → base = sh.base) ∧
      base + sh.cells ≤ limit by
    obtain ⟨f, hf, hmoved, hkept, hfits⟩ := hframe
    refine ⟨f, run_invoke_of_ok hvalues hf, ?_, hmoved.tapeSize, hkept, hfits⟩
    have := hmoved.base
    show f.emitter.base = base
    omega
  unfold Shape.invoke at hb
  split at hb
  · split at hb
    · next n hfits =>
      cases hb
      obtain ⟨_, _, ⟨⟩, ⟨⟩, rfl⟩ := List.forall₂_cons_left_iff.1 hmeans
      obtain ⟨f, hf, hmoved⟩ := (h.accommodates _ hfits.2).room.growStack
      have hdistance : ((sh.base + n : Nat) : Int) - sh.base = n := by omega
      rw [Shape.top] at hfits
      exact ⟨f, hf, hdistance ▸ hmoved, fun hno => by simp [hno] at hfits, by omega⟩
    · cases hb
  · split at hb
    · next n hfits =>
      cases hb
      obtain ⟨_, _, ⟨⟩, ⟨⟩, rfl⟩ := List.forall₂_cons_left_iff.1 hmeans
      obtain ⟨f, hf, hmoved⟩ := (h.accommodates 0 h.room).room.shrinkStack (n := n) (by omega)
      have hdistance : ((sh.base - n : Nat) : Int) - sh.base = -n := by omega
      exact ⟨f, hf, hdistance ▸ hmoved, fun hno => by simp [hno] at hfits, by omega⟩
    · cases hb
  · split at hb
    · next hfits =>
      cases hb
      obtain ⟨f, hf, hmoved⟩ :=
        (h.accommodates _ hfits.2).invoke hmeans (h.printable.places hprintable hargs)
        hfits.1
      exact ⟨f, hf, by rwa [Int.sub_self], fun _ => rfl, hroom⟩
    · cases hb

/-- There is room for one more cell. -/
theorem allocate (h : s.Admits limit env sh cells) (hroom : sh.top + 1 ≤ limit) :
    ∃ o f, Frame.allocate s.frame = .ok o f ∧ 0 ≤ o ∧ f.emitter = s.frame.emitter ∧
      ∀ q ∈ f.cells.offsets, 0 ≤ q ∧ q < (sh.cells + 1 : Nat) := by
  have hfirst := (h.accommodates 1 hroom).room.covers_first (Nat.le_refl 1)
  have hallocate := Frame.allocate_of_onTape (by simpa using hfirst)
  have hle := Frame.Room.leastFree_le fun o ho => (h.pool o ho).2
  refine ⟨_, _, hallocate, CellPool.leastFree_nonneg _, rfl, fun q hq => ?_⟩
  have hnonneg := s.frame.cells.leastFree_nonneg
  rcases CellPool.mem_insert.1 hq with rfl | hq
  · omega
  · have := h.pool q hq
    omega

/-- One more variable. -/
theorem declare (h : s.Admits limit env sh cells) (hroom : sh.top + 1 ≤ limit) (x : String)
    {o : Int} {f : Frame} (ho : Frame.allocate s.frame = .ok o f) (hnonneg : 0 ≤ o)
    (hemitter : f.emitter = s.frame.emitter)
    (hpool : ∀ q ∈ f.cells.offsets, 0 ≤ q ∧ q < (sh.cells + 1 : Nat)) :
    Admits ⟨f, s.scopes.own [(.visible x, o)]⟩ limit ((x, .var sh.vars) :: env)
      { sh with vars := sh.vars + 1, cells := sh.cells + 1 } (cells ++ [o]) where
  size := by simp [h.size]
  layout := (h.layout.allocate ho).1
  known := h.size ▸ h.known.own x o
  printable := h.printable.cons x trivial
  base := by rw [hemitter, h.base]
  tape := by rw [hemitter, h.tape]
  pool := hpool
  room := by
    rw [Shape.top] at hroom ⊢
    omega
  onTape q hq := by
    rcases List.mem_append.1 hq with hq | hq
    · exact h.onTape q hq
    · rw [List.mem_singleton.1 hq]
      show 0 ≤ (sh.base : Int) + o
      omega
  above howns q hq := by
    rcases List.mem_append.1 hq with hq | hq
    · exact h.above howns q hq
    · rw [List.mem_singleton.1 hq]
      exact hnonneg

end Admits

end Evaluator

/-! ## Conditionals, loops and calls -/

open Evaluator (run Owns Admits Lands run_append_of_ok run_invoke_of_ok)

/-- No name of the language is declared in the current scope. -/
def Scopes.Blank (s : Scopes) : Prop :=
  ∀ x : String, s.current.bound.lookup (.visible x) = none

theorem Scopes.resolve_conditionCopy (s : Scopes) (x : Int) :
    (s.own [(conditionCopy, x)]).resolve conditionOperand = .ok (.address x) := by
  simp [conditionOperand, resolve, own, get, releaseOnExit, bindName, lookupIn]

theorem Scopes.blank_conditionCopy (s : Scopes) (x : Int) :
    (s.push.own [(conditionCopy, x)]).Blank := by
  intro y
  have hne : (Symbol.visible y == conditionCopy) = false := by
    simp [conditionCopy, Symbol.visible, Symbol.concealed]
  simp only [own, releaseOnExit, bindName, List.lookup_cons, hne]
  rfl

namespace Evaluator.Admits

variable {p : MacroProgram} {s : Evaluator} {limit base : Nat} {env : Environment} {sh : Shape}
  {cells : List Int} {body : Block} {inner : List Node} {c : Atom} {i : Nat}

/-- A loop is opened on a cell, and the body leaves it open on that cell. -/
theorem opened (hp : ∀ m ∈ p.macros, p.Structured m.body) (hexpands : Expands p body inner)
    (hstructured : p.Structured body) (h : s.Admits limit env sh cells) {o : Int} {operand : Atom}
    (ho : s.scopes.resolve operand = .ok (.address o))
    (hon : s.frame.emitter.onTape (s.frame.emitter.base + o) = true)
    (hbody : ∀ f : Frame, Admits ⟨f, s.scopes⟩ limit env sh cells →
      ∃ t, run inner ⟨f, s.scopes⟩ = .ok () t ∧ Lands ⟨f, s.scopes⟩ limit sh base t) :
    ∃ u owned, run ([Statement.invoke .beginLoop [operand]] ++ inner) s = .ok () u ∧
      s.Lands limit sh base u ∧ u.frame.emitter.loops = o :: s.frame.emitter.loops ∧
      owned.map (·.1) = body.locals.map Symbol.visible ∧ Owns s owned u := by
  obtain ⟨f, hf, hmoved⟩ := Frame.beginLoop_of_onTape hon
  have hvalues : s.scopes.resolveEach [operand] = .ok [.address o] := by
    rw [Scopes.resolveEach, ho]
    rfl
  obtain ⟨u, hu, hlands⟩ := hbody f (h.congr h.known hmoved)
  obtain ⟨owned, hnames, howned⟩ := hexpands.owns hu
  have hkept : u.frame.emitter.loops = f.emitter.loops :=
    (hexpands.obeys_loops hp hstructured).1 _ _ _ hu
  refine ⟨u, owned, ?_, ⟨hlands.atBase, hlands.tapeSize.trans hmoved.tapeSize, hlands.kept,
    hlands.room⟩, hkept.trans (Emitter.loops_beginLoop hf), hnames,
    howned.congr rfl hmoved.cells.symm rfl rfl⟩
  rw [run_append_of_ok (run_invoke_of_ok (b := .beginLoop) hvalues hf), hu]

/-- A loop that is open on a cell is closed there. -/
theorem closed {u : Evaluator} (h : s.Lands limit sh base u) {o : Int} {operand : Atom}
    (ho : u.scopes.resolve operand = .ok (.address o)) (hon : 0 ≤ base + o ∧ base + o < limit)
    (htape : s.frame.emitter.limit = limit) {rest : List Int}
    (hopen : u.frame.emitter.loops = o :: rest) :
    ∃ f, run [Statement.invoke .endLoop [operand]] u = .ok () ⟨f, u.scopes⟩ ∧
      u.frame.MovedBy f 0 := by
  have hvalues : u.scopes.resolveEach [operand] = .ok [.address o] := by
    rw [Scopes.resolveEach, ho]
    rfl
  obtain ⟨f, hf, hmoved⟩ := Frame.endLoop_of_open (f := u.frame) (o := o)
    (Emitter.onTape_iff.2 (by rw [h.atBase, h.limit, htape]; exact hon)) hopen
  exact ⟨f, run_invoke_of_ok (b := .endLoop) hvalues hf, hmoved⟩

/-- The hidden copy of a condition is made. -/
theorem copied (h : s.Admits limit env sh cells) (hc : env.meaning? c = some (.var i))
    (hroom : sh.top + 2 ≤ limit) :
    ∃ (x : Int) (f : Frame), 0 ≤ x ∧ x ≤ sh.cells ∧ f.emitter.tapeSize = s.frame.emitter.tapeSize ∧
      run (localStatements (.literal conditionOperand) ++
        [Statement.invoke .copy [c, conditionOperand]])
        ⟨s.frame, s.scopes.push⟩ = .ok () ⟨f, s.scopes.push.own [(conditionCopy, x)]⟩ ∧
      Admits ⟨f, s.scopes.push.own [(conditionCopy, x)]⟩ limit env
        { sh with cells := sh.cells + 1 } cells := by
  have hone : sh.top + 1 ≤ limit := by omega
  obtain ⟨x, f₁, hx, hnonneg, hemitter, hpool⟩ := h.allocate hone
  obtain ⟨-, -, hmem⟩ := Frame.allocate_ok hx
  -- for the copy, the cell counts as one more variable
  have hmore := h.declare hone "" hx hnonneg hemitter hpool
  have hknown : env.Known cells (s.scopes.push.own [(conditionCopy, x)]) := h.known.push.ownHidden x
  obtain ⟨_, hsrc, hmeans⟩ := hknown.meaning hc
  obtain @⟨_, src, hi⟩ := hmeans
  have hlt : i < cells.length := (List.getElem?_eq_some_iff.1 hi).1
  have hacc := hmore.accommodates 1 (by rw [Shape.top] at hroom ⊢; omega)
  have hin (more : List Int) : (cells ++ [x] ++ more)[i]? = some src := by
    rw [List.append_assoc, List.getElem?_append_left hlt]
    exact hi
  have hlast (more : List Int) : (cells ++ [x] ++ more)[cells.length]? = some x := by
    rw [List.append_assoc, List.getElem?_append_right (Nat.le_refl _)]
    simp
  obtain ⟨f₂, hf₂, hmoved⟩ := hacc.copy (hin _) (hlast _) (by omega)
  have hadmits : Admits ⟨f₁, s.scopes.push.own [(conditionCopy, x)]⟩ limit env
      { sh with cells := sh.cells + 1 } cells :=
    ⟨h.size, (h.layout.allocate hx).2.1, hknown, h.printable, hmore.base, hmore.tape, hpool,
      hmore.room, h.onTape, h.above⟩
  have hvalues : (s.scopes.push.own [(conditionCopy, x)]).resolveEach [c, conditionOperand] =
      .ok [.address src, .address x] := by
    rw [Scopes.resolveEach, hsrc, Scopes.resolveEach, Scopes.resolve_conditionCopy]
    rfl
  refine ⟨x, f₂, hnonneg, ?_, hmoved.tapeSize.trans (congrArg Emitter.tapeSize hemitter), ?_,
    hadmits.congr hknown hmoved⟩
  · have := (hpool x ((hmem x).2 (Or.inl rfl))).2
    push_cast at this
    omega
  · have hlocal :=
      run_localStatements_of_ok (s := ⟨s.frame, s.scopes.push⟩) (x := conditionCopy) rfl hx
    refine (run_append_of_ok hlocal _).trans ?_
    exact run_invoke_of_ok (s := ⟨f₁, s.scopes.push.own [(conditionCopy, x)]⟩)
      (b := .copy) hvalues hf₂

/-- A conditional is evaluated without failure if its body is. -/
theorem conditional (hp : ∀ m ∈ p.macros, p.Structured m.body) (hexpands : Expands p body inner)
    (hstructured : p.Structured body) (h : s.Admits limit env sh cells)
    (hc : env.meaning? c = some (.var i)) (hroom : sh.top + 2 ≤ limit)
    (hbody : ∀ s : Evaluator, s.Admits limit env { sh with cells := sh.cells + 1 } cells →
      s.scopes.Blank →
      ∃ t, run inner s = .ok () t ∧ s.Lands limit { sh with cells := sh.cells + 1 } base t) :
    ∃ t, run (expandedIf c inner) s = .ok () t ∧ s.Lands limit sh base t := by
  obtain ⟨x, f, hnonneg, hle, hsize, hcopy, hadmits⟩ := h.copied hc hroom
  have hon : f.emitter.onTape (f.emitter.base + x) = true := by
    have hacc := hadmits.accommodates 0 hadmits.room
    refine hacc.room.onTape hnonneg ?_
    push_cast
    omega
  obtain ⟨u, owned, hu, hlands, hopen, hnames, howned⟩ := hadmits.opened hp hexpands hstructured
    (s.scopes.push.resolve_conditionCopy x) hon fun g hg =>
      hbody _ hg (s.scopes.blank_conditionCopy x)
  -- after the body the hidden name still means the copy
  have hname : u.scopes.resolve conditionOperand = .ok (.address x) := by
    refine (howned.resolve fun y hy hmem => ?_).trans (s.scopes.push.resolve_conditionCopy x)
    rw [hnames] at hmem
    obtain ⟨z, -, rfl⟩ := List.mem_map.1 hmem
    cases hy
  have hrange : 0 ≤ (base : Int) + x ∧ (base : Int) + x < limit := by
    have hfits : base + (sh.cells + 1) ≤ limit := hlands.room
    omega
  obtain ⟨g, hg⟩ := (Frame.Visits.clear x).succeeds (s := u.frame) rfl (by
    simpa using Emitter.onTape_iff.2
      (by rw [hlands.atBase, hlands.limit, hadmits.tape]; exact hrange))
  obtain ⟨-, halike, hcells⟩ := (Frame.Visits.clear x).ok rfl hg
  have hvalues : u.scopes.resolveEach [conditionOperand] = .ok [.address x] := by
    rw [Scopes.resolveEach, hname]
    rfl
  have hclear : run [Statement.invoke .clear [conditionOperand]] u = .ok () ⟨g, u.scopes⟩ :=
    run_invoke_of_ok (b := .clear) hvalues hg
  obtain ⟨g', hend, hmoved⟩ := closed (u := ⟨g, u.scopes⟩)
    ⟨halike.base.trans hlands.atBase, halike.tapeSize.trans hlands.tapeSize, hlands.kept,
      hlands.room⟩ hname hrange
    hadmits.tape (halike.loops.trans hopen)
  refine ⟨⟨⟨g'.emitter, s.frame.cells⟩, s.scopes⟩, ?_, ?_⟩
  · rw [← final?_eq_some, expandedIf, final?_inScope (.ifBody c hexpands.owns_something),
      Option.map_eq_some_iff]
    refine ⟨⟨g', u.scopes⟩, final?_eq_some.2 ?_, rfl⟩
    have hsplit : localStatements (.literal conditionOperand) ++
        [Statement.invoke .copy [c, conditionOperand],
          Statement.invoke .beginLoop [conditionOperand]] ++ inner ++
        [Statement.invoke .clear [conditionOperand], Statement.invoke .endLoop [conditionOperand]] =
      (localStatements (.literal conditionOperand) ++
        [Statement.invoke .copy [c, conditionOperand]]) ++
        (([Statement.invoke .beginLoop [conditionOperand]] ++ inner) ++
          ([Statement.invoke .clear [conditionOperand]] ++
            [Statement.invoke .endLoop [conditionOperand]])) := by
      simp
    rw [hsplit, run_append_of_ok hcopy, run_append_of_ok hu, run_append_of_ok hclear, hend]
  · have hbase : g'.emitter.base = base := by
      rw [hmoved.base, Int.add_zero]
      exact halike.base.trans hlands.atBase
    refine ⟨hbase, ?_, hlands.kept, ?_⟩
    · exact hmoved.tapeSize.trans (halike.tapeSize.trans (hlands.tapeSize.trans hsize))
    · have hfits : base + (sh.cells + 1) ≤ limit := hlands.room
      omega

/-- A loop is evaluated without failure if its body is. -/
theorem repetition (hp : ∀ m ∈ p.macros, p.Structured m.body) (hexpands : Expands p body inner)
    (hstructured : p.Structured body) (h : s.Admits limit env sh cells)
    (hc : env.meaning? c = some (.var i)) (hlocals : ∀ x ∈ body.locals, c ≠ .name (.visible x))
    (hbody : ∀ s : Evaluator, s.Admits limit env sh cells → s.scopes.Blank →
      ∃ t, run inner s = .ok () t ∧ s.Lands limit sh base t) :
    ∃ t, run (whileStatements c inner) s = .ok () t ∧ s.Lands limit sh base t := by
  obtain ⟨_, ho, hmeans⟩ := h.known.meaning hc
  obtain @⟨_, o, hi⟩ := hmeans
  have ho' : s.scopes.push.resolve c = .ok (.address o) := by rw [Scopes.resolve_push, ho]
  have hmem : o ∈ cells := List.mem_of_getElem? hi
  have hacc := h.accommodates 0 h.room
  have hon : s.frame.emitter.onTape (s.frame.emitter.base + o) = true :=
    hacc.covers o (List.mem_append_left _ hmem)
  have hadmits : Admits ⟨s.frame, s.scopes.push⟩ limit env sh cells :=
    ⟨h.size, h.layout, h.known.push, h.printable, h.base, h.tape, h.pool, h.room, h.onTape, h.above⟩
  obtain ⟨u, owned, hu, hlands, hopen, hnames, howned⟩ :=
    hadmits.opened hp hexpands hstructured ho' hon
    fun g hg => hbody _ hg fun x => rfl
  have hname : u.scopes.resolve c = .ok (.address o) := by
    refine (howned.resolve fun y hy hmem => ?_).trans ho'
    rw [hnames] at hmem
    obtain ⟨z, hz, rfl⟩ := List.mem_map.1 hmem
    exact hlocals z hz hy
  have hrange : 0 ≤ (base : Int) + o ∧ (base : Int) + o < limit := by
    have hfits : base + sh.cells ≤ limit := hlands.room
    have hcell : o < sh.cells := by
      rcases h.layout.held o hmem with hheld | hneg
      · exact (h.pool o hheld).2
      · omega
    refine ⟨?_, by omega⟩
    cases hsh : sh.owns with
    | true =>
      have := h.above hsh o hmem
      omega
    | false =>
      rw [hlands.kept hsh]
      exact h.onTape o hmem
  obtain ⟨g, hend, hmoved⟩ := closed hlands hname hrange hadmits.tape hopen
  refine ⟨⟨⟨g.emitter, s.frame.cells⟩, s.scopes⟩, ?_, ?_⟩
  · rw [← final?_eq_some, whileStatements, final?_inScope (.whileBody c hexpands.owns_something),
      Option.map_eq_some_iff]
    refine ⟨⟨g, u.scopes⟩, final?_eq_some.2 ?_, rfl⟩
    rw [run_append_of_ok hu, hend]
  · exact ⟨by rw [hmoved.base, Int.add_zero, hlands.atBase], hmoved.tapeSize.trans hlands.tapeSize,
      hlands.kept, hlands.room⟩

/-- A call is evaluated without failure if the body of the callee is. -/
theorem call (hexpands : Expands p body inner) (h : s.Admits limit env sh cells)
    {params : List String} {args : List Atom} {rs : List Referent}
    (hargs : env.places? sh.vars sh.depth args = some rs) (hprintable : ∀ a ∈ args, a.Printable)
    (hlen : params.length = args.length) (hparams : params.Nodup)
    (hnodup : (Referent.places rs).Nodup)
    (hbody : ∀ (s : Evaluator) (cells : List Int),
      s.Admits limit (Environment.bind [] params (Referent.renumbered 0 rs))
        { sh with vars := (Referent.places rs).length, owns := false } cells → s.scopes.Blank →
      ∃ t, run inner s = .ok () t ∧
        s.Lands limit { sh with vars := (Referent.places rs).length, owns := false } base t) :
    ∃ t, run (expandedCall params args inner) s = .ok () t ∧ s.Lands limit sh base t := by
  obtain ⟨values, hvalues, hmeans⟩ := h.known.places (h.size ▸ hargs)
  have hplaces := Referent.cells_of_places hmeans
  have hacc := h.accommodates 0 h.room
  have hrow : ∀ o ∈ Atom.addresses values, o ∈ cells ++ stackOffsets sh.depth := fun o ho => by
    obtain ⟨i, -, hi⟩ := exists_place hplaces ho
    exact List.mem_of_getElem? hi
  have hcallee : Admits ⟨s.frame, (s.scopes.push.bindNames (params.map .visible) values).push⟩ limit
      (Environment.bind [] params (Referent.renumbered 0 rs))
      { sh with vars := (Referent.places rs).length, owns := false } (Atom.addresses values) := by
    refine ⟨hplaces.length_eq.symm, ⟨nodup_of_places hacc.layout.nodup hplaces hnodup, fun o ho =>
      hacc.layout.held o (hrow o ho)⟩, ?_, ?_, h.base, h.tape, h.pool, h.room, fun o ho => ?_,
      nofun⟩
    · exact ((Environment.Known.nil _ _).bind (Referent.means_renumbered hmeans []) params).push
    · exact Environment.Printable.bind (fun _ _ hr => by cases hr)
        (Referent.printable_renumbered (h.printable.places hprintable hargs))
    · have := Emitter.onTape_iff.1 (hacc.covers o (hrow o ho))
      rw [h.base] at this
      exact this.1
  obtain ⟨t, ht, hlands⟩ := hbody _ _ hcallee fun x => rfl
  have hbase : base = sh.base := hlands.kept rfl
  have hbind : run (bindParameters params args) ⟨s.frame, s.scopes.push⟩ =
      .ok () ⟨s.frame, s.scopes.push.bindNames (params.map .visible) values⟩ :=
    run_bindParameters_of_ok hlen hparams (fun x _ => rfl) hvalues
  refine ⟨⟨⟨t.frame.emitter, s.frame.cells⟩, s.scopes⟩, ?_,
    hlands.atBase, hlands.tapeSize, fun _ => hbase, hlands.room⟩
  rw [← final?_eq_some, final?_expandedCall hlen hexpands.owns_something, Option.map_eq_some_iff]
  refine ⟨t, ?_, rfl⟩
  rw [final?_eq_some.2 hbind, Option.bind_some]
  exact final?_eq_some.2 ht

end Evaluator.Admits

/-! ## Blocks -/

/-- **A block that fits is evaluated without failure.** -/
theorem Expands.succeeds {p : MacroProgram} (hp : ∀ m ∈ p.macros, p.Structured m.body)
    (htexts : ∀ m ∈ p.macros, ∀ a ∈ m.body.operands, a.Printable) {block : Block}
    {nodes : List Node} (h : Expands p block nodes) (hblock : p.Structured block)
    (hprintable : ∀ a ∈ block.operands, a.Printable) {limit d base : Nat} {env : Environment}
    {sh : Shape} {cells : List Int} {s : Evaluator} (hfit : p.fit limit d env sh block = some base)
    (hs : s.Admits limit env sh cells)
    (hnew : ∀ x ∈ block.locals, s.scopes.current.bound.lookup (.visible x) = none) :
    ∃ t, run nodes s = .ok () t ∧ s.Lands limit sh base t := by
  induction h generalizing d base env sh cells s with
  | done =>
    obtain ⟨d, rfl, hfit⟩ := MacroProgram.fit_eq_some.1 hfit
    cases hfit
    exact ⟨s, rfl, hs.base, rfl, fun _ => rfl, hs.room⟩
  | @localCell x rest out _ ih =>
    obtain ⟨d, rfl, hfit⟩ := MacroProgram.fit_eq_some.1 hfit
    obtain ⟨⟨hfresh, htop⟩, hfit⟩ := MacroProgram.fitWith_localCell.1 hfit
    obtain ⟨o, f, ho, hnonneg, hemitter, hpool⟩ := hs.allocate htop
    have hnames : ∀ y ∈ rest.locals,
        (s.scopes.own [(.visible x, o)]).current.bound.lookup (.visible y) = none := by
      intro y hy
      have hne : (Symbol.visible y == Symbol.visible x) = false := by
        have : y ≠ x := fun heq => hfresh (heq ▸ hy)
        simp [Symbol.visible, this]
      simp only [Scopes.own, Scopes.releaseOnExit, Scopes.bindName, List.lookup_cons, hne]
      exact hnew y (List.mem_cons_of_mem _ hy)
    obtain ⟨t, ht, hlands⟩ := ih (d := d + 1) hblock hprintable hfit
      (hs.declare htop x ho hnonneg hemitter hpool) hnames
    have hlocal := Evaluator.run_localStatements_of_ok (hnew x List.mem_cons_self) ho
    refine ⟨t, (run_append_of_ok hlocal _).trans ht, hlands.atBase, ?_, hlands.kept, ?_⟩
    · rw [hlands.tapeSize, hemitter]
    · have hroom : base + (sh.cells + 1) ≤ limit := hlands.room
      omega
  | @ifNonzero c body rest inner out hexpands _ ihbody ihrest =>
    obtain ⟨hbody, hrest⟩ := hblock.ifNonzero
    obtain ⟨-, hoperands⟩ := List.forall_mem_cons.1 hprintable
    obtain ⟨hinner, houter⟩ := List.forall_mem_append.1 hoperands
    obtain ⟨d, rfl, hfit⟩ := MacroProgram.fit_eq_some.1 hfit
    obtain ⟨i, middle, hc, htop, hfit₁, hfit⟩ := MacroProgram.fitWith_ifNonzero.1 hfit
    obtain ⟨u, hu, hlands⟩ := hs.conditional hp hexpands hbody hc htop fun s' hs' hblank =>
      ihbody (d := d + 1) hbody hinner hfit₁ hs' fun x _ => hblank x
    exact hs.andThen (.ofIf hexpands.owns_something hu) hu hlands fun hs' hscopes =>
      ihrest (d := d + 1) hrest houter hfit hs' (hscopes ▸ hnew)
  | @whileNonzero c body rest inner out hexpands _ ihbody ihrest =>
    obtain ⟨hbody, hrest⟩ := hblock.whileNonzero
    obtain ⟨-, hoperands⟩ := List.forall_mem_cons.1 hprintable
    obtain ⟨hinner, houter⟩ := List.forall_mem_append.1 hoperands
    obtain ⟨d, rfl, hfit⟩ := MacroProgram.fit_eq_some.1 hfit
    obtain ⟨i, middle, hc, hlocals, hfit₁, hfit⟩ := MacroProgram.fitWith_whileNonzero.1 hfit
    obtain ⟨u, hu, hlands⟩ := hs.repetition hp hexpands hbody hc hlocals fun s' hs' hblank =>
      ihbody (d := d + 1) hbody hinner hfit₁ hs' fun x _ => hblank x
    exact hs.andThen (.ofWhile hexpands.owns_something hu) hu hlands fun hs' hscopes =>
      ihrest (d := d + 1) hrest houter hfit hs' (hscopes ▸ hnew)
  | @callMacro f args callee rest inner out hfind hlen hexpands _ ihbody ihrest =>
    have hcallee : callee ∈ p.macros := MacroProgram.mem_of_find? hfind
    obtain ⟨hargs, houter⟩ := List.forall_mem_append.1 hprintable
    obtain ⟨d, rfl, hfit⟩ := MacroProgram.fit_eq_some.1 hfit
    obtain ⟨m, rs, middle, hm, hplaces, ⟨-, hparams, hdiffer⟩, hfit₁, hfit⟩ :=
      MacroProgram.fitWith_call.1 hfit
    obtain rfl : callee = m := Option.some.inj (hfind.symm.trans hm)
    obtain ⟨u, hu, hlands⟩ :=
      hs.call hexpands hplaces hargs hlen hparams hdiffer fun s' cells' hs' hblank =>
      ihbody (hp _ hcallee) (htexts _ hcallee) hfit₁ hs' fun x _ => hblank x
    exact hs.andThen (.ofCall hlen hexpands.owns_something hu) hu hlands fun hs' hscopes =>
      ihrest (d := d + 1) hblock.afterCall houter hfit hs' (hscopes ▸ hnew)
  | callBuiltin hfind _ _ _ =>
    obtain ⟨d, rfl, hfit⟩ := MacroProgram.fit_eq_some.1 hfit
    obtain ⟨m, -, -, hm, -⟩ := MacroProgram.fitWith_call.1 hfit
    rw [hfind] at hm
    cases hm
  | @builtin b args rest out _ ih =>
    obtain ⟨hargs, houter⟩ := List.forall_mem_append.1 hprintable
    obtain ⟨d, rfl, hfit⟩ := MacroProgram.fit_eq_some.1 hfit
    obtain ⟨rs, middle, hplaces, hinvoke, hfit⟩ := MacroProgram.fitWith_builtin.1 hfit
    obtain ⟨f, hf, hlands⟩ := hs.invoke hplaces hargs hinvoke
    exact hs.andThen (.invoke hf) hf hlands fun hs' hscopes =>
      ih (d := d + 1) hblock.builtin.2 houter hfit hs' (hscopes ▸ hnew)

end TapeToolchain
