import TapeToolchain.Proofs.Language.Expansion

/-!
When expansion comes to rest. A statement settles in `d` rounds if no step fails on it and what a
step puts in its place settles in one round less (`Settles`). Rounds over a body of such statements
succeed if the limit leaves room for one more, which finds nothing to do. So a macro is desugared if
its blocks are not nested too deep (`MacroProgram.desugar_of_nesting`).
-/

namespace TapeToolchain

open Desugaring (localStatements ifStatements whileStatements)

/-- No step fails on the statement or on what comes of it, and at most `d` replacements are made in
a row. -/
def Settles (steps : List Replacement) : (d : Nat) → Node → Prop
  | 0, n => ∀ f ∈ steps, f n = .ok none
  | d + 1, n =>
    ∀ f ∈ steps, f n = .ok none ∨ ∃ new, f n = .ok (some new) ∧ ∀ k ∈ new, Settles steps d k

namespace Settles

variable {steps : List Replacement} {n : Node} {d e : Nat}

theorem of_kept (h : ∀ f ∈ steps, f n = .ok none) : Settles steps d n := by
  cases d with
  | zero => exact h
  | succ d => exact fun f hf => Or.inl (h f hf)

theorem mono (hle : d ≤ e) (h : Settles steps d n) : Settles steps e n := by
  induction d generalizing e n with
  | zero => exact of_kept h
  | succ d ih =>
    obtain ⟨e, rfl⟩ := Nat.exists_eq_add_of_le' (Nat.le_trans (Nat.le_add_left 1 d) hle)
    intro f hf
    refine (h f hf).imp_right fun ⟨new, hnew, hall⟩ => ⟨new, hnew, fun k hk => ?_⟩
    exact ih (Nat.le_of_succ_le_succ hle) (hall k hk)

/-- What a step does to the statement. -/
theorem step (h : Settles steps d n) {f : Replacement} (hf : f ∈ steps) :
    f n = .ok none ∨ ∃ new, f n = .ok (some new) ∧ ∀ k ∈ new, Settles steps (d - 1) k := by
  cases d with
  | zero => exact Or.inl (h f hf)
  | succ d => exact h f hf

end Settles

/-! ## Rounds -/

section
variable {steps tried : List Replacement} {d : Nat} {body : List Node}

/-- The statement settles in `d` rounds, or in one more by a step that has not been tried. -/
def Pending (steps tried : List Replacement) (d : Nat) (n : Node) : Prop :=
  Settles steps d n ∨ Settles steps (d + 1) n ∧ ∀ f ∈ tried, f n = .ok none

theorem Pending.settles {n : Node} (h : Pending steps tried d n) (hall : steps ⊆ tried) :
    Settles steps d n := by
  rcases h with h | ⟨-, hnone⟩
  · exact h
  · exact .of_kept fun f hf => hnone f (hall hf)

theorem sweep_of_kept {f : Replacement} (h : ∀ n ∈ body, f n = .ok none) :
    sweep f body = .ok (body, false) := by
  induction body with
  | nil => rfl
  | cons n rest ih =>
    obtain ⟨hn, hrest⟩ := List.forall_mem_cons.1 h
    rw [sweep, hn, ih hrest]
    rfl

theorem sweep_of_pending {f : Replacement} (hf : f ∈ steps)
    (h : ∀ n ∈ body, Pending steps tried d n) :
    ∃ swept changed, sweep f body = .ok (swept, changed) ∧
      ∀ n ∈ swept, Pending steps (f :: tried) d n := by
  induction body with
  | nil => exact ⟨[], false, rfl, nofun⟩
  | cons n rest ih =>
    obtain ⟨hn, hrest⟩ := List.forall_mem_cons.1 h
    obtain ⟨swept, changed, hsweep, hswept⟩ := ih hrest
    have hstep : f n = .ok none ∧ Pending steps (f :: tried) d n ∨
        ∃ new, f n = .ok (some new) ∧ ∀ k ∈ new, Settles steps d k := by
      rcases hn with hn | ⟨hn, htried⟩
      · refine (hn.step hf).imp (fun hnone => ⟨hnone, Or.inl hn⟩) fun ⟨new, hnew, hall⟩ =>
          ⟨new, hnew, ?_⟩
        exact fun k hk => (hall k hk).mono (Nat.sub_le d 1)
      · exact (hn.step hf).imp_left fun hnone =>
          ⟨hnone, Or.inr ⟨hn, List.forall_mem_cons.2 ⟨hnone, htried⟩⟩⟩
    rcases hstep with ⟨hnone, hkept⟩ | ⟨new, hnew, hall⟩
    · refine ⟨n :: swept, changed, ?_, List.forall_mem_cons.2 ⟨hkept, hswept⟩⟩
      rw [sweep, hnone, hsweep]
      rfl
    · refine ⟨new ++ swept, true, ?_,
        List.forall_mem_append.2 ⟨fun k hk => Or.inl (hall k hk), hswept⟩⟩
      rw [sweep, hnew, hsweep]
      rfl

theorem applyRules_of_kept {rules : List Rule}
    (h : ∀ n ∈ body, ∀ r ∈ rules, r.replacement? n = .ok none) :
    Desugaring.applyRules rules body = .ok (body, false) := by
  induction rules with
  | nil => rfl
  | cons r rules ih =>
    rw [Desugaring.applyRules, sweep_of_kept fun n hn => h n hn r List.mem_cons_self]
    show (Desugaring.applyRules rules body >>= _) = _
    rw [ih fun n hn r hr => h n hn r (List.mem_cons_of_mem _ hr)]
    rfl

theorem applyRules_of_pending (rules : List Rule) (hrules : ∀ r ∈ rules, r.replacement? ∈ steps)
    (h : ∀ n ∈ body, Pending steps tried d n) :
    ∃ final changed, Desugaring.applyRules rules body = .ok (final, changed) ∧
      ∀ n ∈ final, Pending steps ((rules.map Rule.replacement?).reverse ++ tried) d n := by
  induction rules generalizing body tried with
  | nil => exact ⟨body, false, rfl, h⟩
  | cons r rules ih =>
    obtain ⟨hr, hothers⟩ := List.forall_mem_cons.1 hrules
    obtain ⟨swept, changed, hsweep, hswept⟩ := sweep_of_pending hr h
    obtain ⟨final, changed', hfinal, hall⟩ := ih hothers hswept
    refine ⟨final, changed || changed', ?_, by simpa using hall⟩
    rw [Desugaring.applyRules, hsweep]
    show (Desugaring.applyRules rules swept >>= _) = _
    rw [hfinal]
    rfl

/-- A round without a change is the last one. -/
theorem roundsFrom_of_unchanged {final : List Node} (h : Desugaring.round body = .ok (final, false))
    (done limit : Nat) :
    Desugaring.roundsFrom done limit body =
      .ok (if done + 1 ≤ done + limit then some (final, done + 1) else none) := by
  cases limit with
  | zero => rw [Desugaring.roundsFrom, if_neg (by omega)]
  | succ limit =>
    rw [Desugaring.roundsFrom, h, if_pos (by omega)]
    rfl

/-- A round over statements that settle succeeds. If it replaces any, they settle in one round
less. -/
theorem round_of_settles (h : ∀ n ∈ body, Settles desugaringSteps d n) :
    ∃ final changed, Desugaring.round body = .ok (final, changed) ∧
      (changed = true → 0 < d ∧ ∀ n ∈ final, Settles desugaringSteps (d - 1) n) := by
  cases d with
  | zero =>
    refine ⟨body, false, applyRules_of_kept fun n hn r hr => ?_, nofun⟩
    obtain ⟨entry, hentry, rfl⟩ := List.mem_map.1 hr
    exact h n hn _ (List.mem_map_of_mem hentry)
  | succ d =>
    have hpending : ∀ n ∈ body, Pending desugaringSteps [] d n :=
      fun n hn => Or.inr ⟨h n hn, List.forall_mem_nil _⟩
    have hsteps : ∀ r ∈ Desugaring.rules.map (·.2), r.replacement? ∈ desugaringSteps := by
      intro r hr
      obtain ⟨entry, hentry, rfl⟩ := List.mem_map.1 hr
      exact List.mem_map_of_mem hentry
    obtain ⟨final, changed, hfinal, hall⟩ := applyRules_of_pending _ hsteps hpending
    refine ⟨final, changed, hfinal,
      fun _ => ⟨Nat.succ_pos d, fun n hn => (hall n hn).settles fun f hf => ?_⟩⟩
    simpa [desugaringSteps] using hf

/-- Desugaring comes to rest after a number of rounds that does not depend on the limit; a limit
below that number is not enough. -/
theorem roundsFrom_eq_of_settles (h : ∀ n ∈ body, Settles desugaringSteps d n) (done : Nat) :
    ∃ out rounds, done < rounds ∧ rounds ≤ done + d + 1 ∧ ∀ limit,
      Desugaring.roundsFrom done limit body =
        .ok (if rounds ≤ done + limit then some (out, rounds) else none) := by
  induction d generalizing body done with
  | zero =>
    obtain ⟨final, changed, hround, hchanged⟩ := round_of_settles h
    obtain rfl : changed = false := by
      cases changed with
      | false => rfl
      | true => exact absurd (hchanged rfl).1 (Nat.lt_irrefl 0)
    exact ⟨final, done + 1, by omega, by omega, roundsFrom_of_unchanged hround done⟩
  | succ d ih =>
    obtain ⟨final, changed, hround, hchanged⟩ := round_of_settles h
    cases changed with
    | false => exact ⟨final, done + 1, by omega, by omega, roundsFrom_of_unchanged hround done⟩
    | true =>
      obtain ⟨out, rounds, hlt, hle, heq⟩ := ih (hchanged rfl).2 (done + 1)
      refine ⟨out, rounds, by omega, by omega, fun limit => ?_⟩
      cases limit with
      | zero => rw [Desugaring.roundsFrom, if_neg (by omega)]
      | succ limit =>
        rw [Desugaring.roundsFrom, hround]
        show Desugaring.roundsFrom (done + 1) limit final = _
        rw [heq limit, Nat.add_right_comm, Nat.add_assoc]

/-- Desugaring comes to rest. -/
theorem roundsFrom_of_settles (h : ∀ n ∈ body, Settles desugaringSteps d n) (done : Nat)
    {limit : Nat} (hd : d < limit) :
    ∃ result, Desugaring.roundsFrom done limit body = .ok (some result) := by
  obtain ⟨out, rounds, -, hle, heq⟩ := roundsFrom_eq_of_settles h done
  exact ⟨(out, rounds), by rw [heq, if_pos (by omega)]⟩

/-- Inlining comes to rest. -/
theorem rounds_of_settles {t : MacroTable} {desugar : String → Except CompileError Definition}
    (h : ∀ n ∈ body, Settles [Inlining.inline? t desugar] d n) {limit : Nat} (hd : d < limit) :
    ∃ out, Inlining.rounds t desugar limit body = .ok (some out) := by
  induction limit generalizing d body with
  | zero => cases hd
  | succ limit ih =>
    rw [Inlining.rounds]
    cases d with
    | zero =>
      rw [sweep_of_kept fun n hn => h n hn _ List.mem_cons_self]
      exact ⟨body, rfl⟩
    | succ d =>
      have hpending : ∀ n ∈ body, Pending [Inlining.inline? t desugar] [] d n :=
        fun n hn => Or.inr ⟨h n hn, List.forall_mem_nil _⟩
      obtain ⟨swept, changed, hsweep, hswept⟩ := sweep_of_pending List.mem_cons_self hpending
      rw [hsweep]
      cases changed with
      | false => exact ⟨swept, rfl⟩
      | true =>
        exact ih (fun n hn => (hswept n hn).settles (List.Subset.refl _))
          (Nat.lt_of_succ_lt_succ hd)

end

/-! ## Statements made of primitives -/

/-- The steps replace local cells, conditionals, loops and calls only. -/
def LeavesPrimitives (steps : List Replacement) : Prop :=
  ∀ tag, tag ∉ [Tag.localCell, .ifBlock, .whileBlock, .callMacro] → ∀ children, ∀ f ∈ steps,
    f (.compound tag children) = .ok none

theorem desugaringSteps_leavesPrimitives : LeavesPrimitives desugaringSteps := by
  intro tag htag
  simp only [List.mem_cons, List.not_mem_nil, or_false, not_or] at htag
  exact desugaringSteps_none ⟨Ne.symm htag.1, Ne.symm htag.2.1, Ne.symm htag.2.2.1⟩

theorem inline?_leavesPrimitives (t : MacroTable)
    (desugar : String → Except CompileError Definition) :
    LeavesPrimitives [Inlining.inline? t desugar] := by
  intro tag htag
  simp only [List.mem_cons, List.not_mem_nil, or_false, not_or] at htag
  exact inline?_none (Ne.symm htag.2.2.2)

namespace LeavesPrimitives

variable {steps : List Replacement} (h : LeavesPrimitives steps) {d : Nat} {body : List Node}
include h

theorem primitive {tag : Tag} {children : List Node}
    (htag : tag ∉ [Tag.localCell, .ifBlock, .whileBlock, .callMacro]) :
    Settles steps d (.compound tag children) :=
  .of_kept (h tag htag children)

theorem inScope (hbody : ∀ n ∈ body, Settles steps d n) :
    ∀ n ∈ Statement.inScope body, Settles steps d n := by
  rw [Statement.inScope, List.forall_mem_cons, List.forall_mem_append, List.forall_mem_singleton]
  exact ⟨h.primitive (by decide), hbody, h.primitive (by decide)⟩

theorem localStatements (name : Node) : ∀ n ∈ localStatements name, Settles steps d n := by
  simp only [Desugaring.localStatements, List.forall_mem_cons]
  exact ⟨h.primitive (by decide), h.primitive (by decide), h.primitive (by decide),
    List.forall_mem_nil _⟩

theorem invoke (b : Builtin) (args : List Atom) : Settles steps d (Statement.invoke b args) :=
  h.primitive (by decide)

theorem expandedIf (c : Atom) (hbody : ∀ n ∈ body, Settles steps d n) :
    ∀ n ∈ expandedIf c body, Settles steps d n := by
  refine h.inScope ?_
  simp only [List.forall_mem_append, List.forall_mem_cons]
  exact ⟨⟨⟨h.localStatements _, h.invoke _ _, h.invoke _ _, List.forall_mem_nil _⟩, hbody⟩,
    h.invoke _ _, h.invoke _ _, List.forall_mem_nil _⟩

theorem whileStatements (c : Atom) (hbody : ∀ n ∈ body, Settles steps d n) :
    ∀ n ∈ whileStatements c body, Settles steps d n := by
  refine h.inScope ?_
  simp only [List.forall_mem_append, List.forall_mem_singleton]
  exact ⟨⟨h.invoke _ _, hbody⟩, h.invoke _ _⟩

end LeavesPrimitives

/-! ## Desugaring -/

/-- How often replacements follow each other when the block is desugared. The hidden cell of a
conditional needs one more. -/
def Block.nesting : Block → Nat
  | done => 0
  | localCell _ rest => max 1 rest.nesting
  | ifNonzero _ body rest => max (max 1 body.nesting + 1) rest.nesting
  | whileNonzero _ body rest => max (body.nesting + 1) rest.nesting
  | call _ _ rest | builtin _ _ rest => rest.nesting

theorem Settles.of_replaced {n : Node} {new : List Node} {d : Nat}
    (hsteps : ∀ f ∈ desugaringSteps, f n = .ok none ∨ f n = .ok (some new))
    (hnew : ∀ k ∈ new, Settles desugaringSteps d k) : Settles desugaringSteps (d + 1) n :=
  fun f hf => (hsteps f hf).imp_right fun h => ⟨new, h, hnew⟩

theorem Block.settles_localCell (name : Node) :
    Settles desugaringSteps 1 (.compound .localCell [name]) :=
  .of_replaced (desugaringSteps_localCell name).1
    (desugaringSteps_leavesPrimitives.localStatements name)

/-- The statements for a conditional settle with those of its body, and in one round at least, since
its hidden cell is still to be declared. -/
theorem Block.settles_ifStatements (c : Atom) {body : List Node} {d : Nat} (hd : 1 ≤ d)
    (hbody : ∀ n ∈ body, Settles desugaringSteps d n) :
    ∀ n ∈ ifStatements c body, Settles desugaringSteps d n := by
  have hprim := desugaringSteps_leavesPrimitives
  apply hprim.inScope
  simp only [List.forall_mem_append, List.forall_mem_cons]
  exact ⟨⟨⟨(settles_localCell _).mono hd, hprim.invoke _ _, hprim.invoke _ _, nofun⟩, hbody⟩,
    hprim.invoke _ _, hprim.invoke _ _, nofun⟩

theorem Block.settles_nodes (block : Block) :
    ∀ n ∈ block.nodes, Settles desugaringSteps block.nesting n := by
  have hprim := desugaringSteps_leavesPrimitives
  induction block with
  | done => nofun
  | localCell x rest ih =>
    refine List.forall_mem_cons.2 ⟨(settles_localCell _).mono (Nat.le_max_left _ _), fun n hn => ?_⟩
    exact (ih n hn).mono (Nat.le_max_right _ _)
  | ifNonzero c body rest ihbody ihrest =>
    refine List.forall_mem_cons.2 ⟨?_, fun n hn => (ihrest n hn).mono (Nat.le_max_right _ _)⟩
    refine Settles.mono (Nat.le_max_left _ _)
      (.of_replaced (desugaringSteps_ifNonzero c body.nodes).1 ?_)
    exact settles_ifStatements c (Nat.le_max_left _ _) fun n hn =>
      (ihbody n hn).mono (Nat.le_max_right _ _)
  | whileNonzero c body rest ihbody ihrest =>
    refine List.forall_mem_cons.2 ⟨?_, fun n hn => (ihrest n hn).mono (Nat.le_max_right _ _)⟩
    refine Settles.mono (Nat.le_max_left _ _)
      (.of_replaced (desugaringSteps_whileNonzero c body.nodes).1 ?_)
    exact hprim.whileStatements c ihbody
  | call f args rest ih =>
    exact List.forall_mem_cons.2 ⟨.of_kept (desugaringSteps_none (by decide) _), ih⟩
  | builtin b args rest ih => exact List.forall_mem_cons.2 ⟨hprim.invoke b args, ih⟩

/-- A macro whose blocks are not nested deeper than there are rounds is desugared. -/
theorem MacroProgram.desugar_of_nesting {p : MacroProgram} {name : String} {m : Macro}
    (hm : p.find? name = some m) {limit : Nat} (hnesting : m.body.nesting < limit) :
    p.table.desugar limit name =
      .ok ⟨m.name, m.params.map .visible, Statement.inScope m.body.desugared⟩ := by
  obtain ⟨⟨body, rounds⟩, hrounds⟩ := roundsFrom_of_settles m.body.settles_nodes 0 hnesting
  have hok : p.table.desugar limit name = .ok ⟨m.name, m.params.map .visible,
      Statement.inScope body⟩ := by
    refine MacroTable.desugar_ok_iff.2 ⟨m.definition, body, rounds, ?_, hrounds, rfl⟩
    rw [p.find?_table, hm]
    rfl
  obtain ⟨m', hm', heq⟩ := desugar_eq_ok hok
  obtain rfl : m = m' := Option.some.inj (hm.symm.trans hm')
  rw [hok, heq]

end TapeToolchain
