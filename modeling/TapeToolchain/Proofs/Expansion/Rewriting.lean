import TapeToolchain.Expansion.Inlining
import TapeToolchain.Proofs.Actions

/-!
Rounds of replacement, seen as a tree. A round replaces statements of the top level only, and what
comes of a statement is looked at in later rounds. When the rounds have come to rest, every
statement has been replaced by what its replacement leads to (`Rewrites`), whatever the order of the
rounds was; so results about expanded bodies go by the structure of the replacements and not by
rounds.
-/

namespace TapeToolchain

/-- A step that replaces some statements. -/
abbrev Replacement := Node → Except CompileError (Option (List Node))

/-- The second body is what the steps make of the first: statements that no step replaces stay, and
the others give way to what their replacements lead to in turn, at most `d` times in a row. -/
inductive Rewrites (steps : List Replacement) : (d : Nat) → List Node → List Node → Prop where
  | nil {d : Nat} : Rewrites steps d [] []
  | keep {d : Nat} {n : Node} {rest out : List Node} :
      (∀ f ∈ steps, f n = .ok none) → Rewrites steps d rest out →
      Rewrites steps d (n :: rest) (n :: out)
  | replace {d : Nat} {f : Replacement} {n : Node} {new rest out₁ out₂ : List Node} :
      f ∈ steps → f n = .ok (some new) → Rewrites steps d new out₁ →
      Rewrites steps (d + 1) rest out₂ → Rewrites steps (d + 1) (n :: rest) (out₁ ++ out₂)

namespace Rewrites

variable {steps : List Replacement} {d : Nat}

theorem succ {body out : List Node} (h : Rewrites steps d body out) :
    Rewrites steps (d + 1) body out := by
  induction h with
  | nil => exact nil
  | keep hn _ ih => exact keep hn ih
  | replace hf hn _ _ ih₁ ih₂ => exact replace hf hn ih₁ ih₂

theorem split {a b out : List Node} (h : Rewrites steps d (a ++ b) out) :
    ∃ out₁ out₂, out = out₁ ++ out₂ ∧ Rewrites steps d a out₁ ∧ Rewrites steps d b out₂ := by
  induction a generalizing out with
  | nil => exact ⟨[], out, rfl, nil, h⟩
  | cons n a ih =>
    cases h with
    | keep hn hrest =>
      obtain ⟨out₁, out₂, rfl, h₁, h₂⟩ := ih hrest
      exact ⟨n :: out₁, out₂, rfl, keep hn h₁, h₂⟩
    | @replace d f _ new _ o₁ _ hf hn hnew hrest =>
      obtain ⟨out₁, out₂, rfl, h₁, h₂⟩ := ih hrest
      exact ⟨o₁ ++ out₁, out₂, by rw [List.append_assoc], replace hf hn hnew h₁, h₂⟩

theorem kept {n : Node} {rest out : List Node} (h : Rewrites steps d (n :: rest) out)
    (hn : ∀ f ∈ steps, f n = .ok none) :
    ∃ out', out = n :: out' ∧ Rewrites steps d rest out' := by
  cases h with
  | keep _ hrest => exact ⟨_, rfl, hrest⟩
  | replace hf hn' _ _ =>
    rw [hn _ hf] at hn'
    cases hn'

theorem keptAll {a rest out : List Node} (h : Rewrites steps d (a ++ rest) out)
    (ha : ∀ n ∈ a, ∀ f ∈ steps, f n = .ok none) :
    ∃ out', out = a ++ out' ∧ Rewrites steps d rest out' := by
  induction a generalizing out with
  | nil => exact ⟨out, rfl, h⟩
  | cons n a ih =>
    obtain ⟨out', rfl, h'⟩ := h.kept (ha n List.mem_cons_self)
    obtain ⟨out'', rfl, h''⟩ := ih h' fun m hm => ha m (List.mem_cons_of_mem _ hm)
    exact ⟨out'', rfl, h''⟩

theorem of_kept {body : List Node} (h : ∀ n ∈ body, ∀ f ∈ steps, f n = .ok none) :
    Rewrites steps d body body := by
  induction body with
  | nil => exact nil
  | cons n rest ih =>
    exact keep (h n List.mem_cons_self) (ih fun m hm => h m (List.mem_cons_of_mem _ hm))

/-! ## Sweeps and rounds -/

theorem sweep_cons {f : Replacement} {n : Node} {rest swept : List Node} {changed : Bool}
    (h : sweep f (n :: rest) = .ok (swept, changed)) :
    ∃ swept' changed', sweep f rest = .ok (swept', changed') ∧
      (f n = .ok none ∧ swept = n :: swept' ∧ changed = changed' ∨
        ∃ new, f n = .ok (some new) ∧ swept = new ++ swept' ∧ changed = true) := by
  rw [sweep] at h
  obtain ⟨replacement, hf, h⟩ := except_bind_eq_ok.1 h
  obtain ⟨⟨swept', changed'⟩, hrest, h⟩ := except_bind_eq_ok.1 h
  refine ⟨swept', changed', hrest, ?_⟩
  cases replacement with
  | none => cases h; exact Or.inl ⟨hf, rfl, rfl⟩
  | some new => cases h; exact Or.inr ⟨new, hf, rfl, rfl⟩

/-- A sweep succeeds if no step of it fails. -/
theorem sweep_of_steps {f : Replacement} {body : List Node} (h : ∀ n ∈ body, ∃ x, f n = .ok x) :
    ∃ swept changed, sweep f body = .ok (swept, changed) := by
  induction body with
  | nil => exact ⟨[], false, rfl⟩
  | cons n rest ih =>
    obtain ⟨⟨x, hx⟩, hrest⟩ := List.forall_mem_cons.1 h
    obtain ⟨swept, changed, hsweep⟩ := ih hrest
    rw [sweep, hx, hsweep]
    cases x with
    | none => exact ⟨_, _, rfl⟩
    | some new => exact ⟨_, _, rfl⟩

/-- What a successful sweep has done: no step failed, the statements that it leaves are those that
were kept and those that replaced others, and it says whether there was a replacement. -/
theorem sweep_spec {f : Replacement} {body swept : List Node} {changed : Bool}
    (h : sweep f body = .ok (swept, changed)) :
    (∀ n ∈ body, ∃ x, f n = .ok x) ∧
      (∀ k, k ∈ swept ↔
        ∃ n ∈ body, f n = .ok none ∧ k = n ∨ ∃ new, f n = .ok (some new) ∧ k ∈ new) ∧
      (changed = true ↔ ∃ n ∈ body, ∃ new, f n = .ok (some new)) := by
  induction body generalizing swept changed with
  | nil => cases h; simp
  | cons n rest ih =>
    obtain ⟨swept', changed', hrest, hn⟩ := sweep_cons h
    obtain ⟨hsteps, hmem, hchanged⟩ := ih hrest
    rcases hn with ⟨hn, rfl, rfl⟩ | ⟨new, hn, rfl, rfl⟩
    · simpa [hn, hmem, hchanged] using hsteps
    · simpa [hn, hmem] using hsteps

/-- What a swept body leads to, the body led to. -/
theorem of_sweep {f : Replacement} (hf : f ∈ steps) {body swept out : List Node} {changed : Bool}
    (hs : sweep f body = .ok (swept, changed)) (h : Rewrites steps d swept out) :
    Rewrites steps (d + 1) body out := by
  induction body generalizing swept changed out with
  | nil => cases hs; exact h.succ
  | cons n rest ih =>
    obtain ⟨swept', changed', hrest, ⟨hn, rfl, -⟩ | ⟨new, hn, rfl, -⟩⟩ := sweep_cons hs
    · cases h with
      | keep hnone h' => exact keep hnone (ih hrest h')
      | replace hg hn' hnew h' => exact replace hg hn' hnew.succ (ih hrest h')
    · obtain ⟨out₁, out₂, rfl, h₁, h₂⟩ := h.split
      exact replace hf hn h₁ (ih hrest h₂)

theorem sweep_unchanged {f : Replacement} {body swept : List Node}
    (h : sweep f body = .ok (swept, false)) : swept = body ∧ ∀ n ∈ body, f n = .ok none := by
  induction body generalizing swept with
  | nil => cases h; exact ⟨rfl, nofun⟩
  | cons n rest ih =>
    obtain ⟨swept', changed', hrest, ⟨hn, rfl, rfl⟩ | ⟨new, -, -, hc⟩⟩ := sweep_cons h
    · obtain ⟨rfl, hall⟩ := ih hrest
      refine ⟨rfl, fun m hm => ?_⟩
      rcases List.mem_cons.1 hm with rfl | hm
      · exact hn
      · exact hall m hm
    · cases hc

theorem of_applyRules {rules : List Rule} (hr : ∀ r ∈ rules, r.replacement? ∈ steps)
    {body final out : List Node} {changed : Bool}
    (hs : Desugaring.applyRules rules body = .ok (final, changed))
    (h : Rewrites steps d final out) : Rewrites steps (d + rules.length) body out := by
  induction rules generalizing body changed with
  | nil => cases hs; exact h
  | cons r rules ih =>
    rw [Desugaring.applyRules] at hs
    obtain ⟨⟨swept, c₁⟩, hsweep, hs⟩ := except_bind_eq_ok.1 hs
    obtain ⟨⟨final', c₂⟩, hrest, hs⟩ := except_bind_eq_ok.1 hs
    cases hs
    have hlater := ih (fun r' hr' => hr r' (List.mem_cons_of_mem _ hr')) hrest
    exact of_sweep (hr r List.mem_cons_self) hsweep hlater

theorem applyRules_unchanged {rules : List Rule} {body final : List Node}
    (h : Desugaring.applyRules rules body = .ok (final, false)) :
    final = body ∧ ∀ n ∈ body, ∀ r ∈ rules, r.replacement? n = .ok none := by
  induction rules generalizing body with
  | nil => cases h; exact ⟨rfl, nofun⟩
  | cons r rules ih =>
    rw [Desugaring.applyRules] at h
    obtain ⟨⟨swept, c₁⟩, hsweep, h⟩ := except_bind_eq_ok.1 h
    obtain ⟨⟨final', c₂⟩, hrest, h⟩ := except_bind_eq_ok.1 h
    obtain ⟨rfl, hc⟩ : final' = final ∧ (c₁ || c₂) = false := by
      injection h with h
      injection h with h₁ h₂
      exact ⟨h₁, h₂⟩
    obtain ⟨rfl, rfl⟩ : c₁ = false ∧ c₂ = false := by simpa using hc
    obtain ⟨rfl, hall⟩ := sweep_unchanged hsweep
    obtain ⟨rfl, hothers⟩ := ih hrest
    refine ⟨rfl, fun n hn r' hr' => ?_⟩
    rcases List.mem_cons.1 hr' with rfl | hr'
    · exact hall n hn
    · exact hothers n hn r' hr'

end Rewrites

def desugaringSteps : List Replacement :=
  Desugaring.rules.map fun entry => entry.2.replacement?

/-- Desugaring that comes to rest has replaced everything that it can. -/
theorem rewrites_of_roundsFrom {done limit k : Nat} {body out : List Node}
    (h : Desugaring.roundsFrom done limit body = .ok (some (out, k))) :
    ∃ d, Rewrites desugaringSteps d body out := by
  induction limit generalizing done body with
  | zero => cases h
  | succ limit ih =>
    rw [Desugaring.roundsFrom] at h
    obtain ⟨⟨next, changed⟩, hround, h⟩ := except_bind_eq_ok.1 h
    cases changed with
    | true =>
      obtain ⟨d, hd⟩ := ih h
      refine ⟨_, Rewrites.of_applyRules (fun r hr => ?_) hround hd⟩
      obtain ⟨entry, hentry, rfl⟩ := List.mem_map.1 hr
      exact List.mem_map.2 ⟨entry, hentry, rfl⟩
    | false =>
      cases h
      obtain ⟨rfl, hall⟩ := Rewrites.applyRules_unchanged hround
      refine ⟨0, Rewrites.of_kept fun n hn f hf => ?_⟩
      obtain ⟨entry, hentry, rfl⟩ := List.mem_map.1 hf
      exact hall n hn entry.2 (List.mem_map.2 ⟨entry, hentry, rfl⟩)

/-- Inlining that comes to rest has replaced every call. -/
theorem rewrites_of_rounds {t : MacroTable} {desugar : String → Except CompileError Definition}
    {limit : Nat} {body out : List Node}
    (h : Inlining.rounds t desugar limit body = .ok (some out)) :
    ∃ d, Rewrites [Inlining.inline? t desugar] d body out := by
  induction limit generalizing body with
  | zero => cases h
  | succ limit ih =>
    rw [Inlining.rounds] at h
    obtain ⟨⟨next, changed⟩, hsweep, h⟩ := except_bind_eq_ok.1 h
    cases changed with
    | true =>
      obtain ⟨d, hd⟩ := ih h
      exact ⟨d + 1, Rewrites.of_sweep List.mem_cons_self hsweep hd⟩
    | false =>
      cases h
      obtain ⟨rfl, hall⟩ := Rewrites.sweep_unchanged hsweep
      refine ⟨0, Rewrites.of_kept fun n hn f hf => ?_⟩
      rw [List.mem_singleton.1 hf]
      exact hall n hn

/-! ## Desugared macros and expanded entries -/

namespace MacroTable

variable {t : MacroTable}

theorem desugar_ok_iff {limit : Nat} {name : String} {d : Definition} :
    t.desugar limit name = .ok d ↔ ∃ source body rounds, t.find? name = some source ∧
      Desugaring.fixedPoint limit source.body = .ok (some (body, rounds)) ∧
      d = { source with body := Statement.inScope body } := by
  rw [desugar]
  cases t.find? name with
  | none => simp
  | some source =>
    simp only [except_bind_eq_ok, Option.some.injEq]
    constructor
    · intro ⟨result, hresult, hd⟩
      cases result with
      | none => cases hd
      | some result =>
        cases hd
        exact ⟨source, result.1, result.2, rfl, hresult, rfl⟩
    · intro ⟨_, body, rounds, hsource, hresult, hd⟩
      cases hsource
      exact ⟨some (body, rounds), hresult, by rw [hd]; rfl⟩

theorem expand_ok_iff {limits : RoundLimits} {entry : String} {out : List Node} :
    t.expand limits entry = .ok out ↔ ∃ d, t.desugar limits.desugaring entry = .ok d ∧
      Inlining.rounds t (t.desugar limits.desugaring) limits.inlining d.body = .ok (some out) := by
  rw [expand, Inlining.expandWith, except_bind_eq_ok]
  refine exists_congr fun d => and_congr_right fun _ => ?_
  rw [except_bind_eq_ok]
  constructor
  · intro ⟨result, hrounds, h⟩
    cases result with
    | none => cases h
    | some body =>
      cases h
      exact hrounds
  · intro hrounds
    exact ⟨some out, hrounds, rfl⟩

end MacroTable

end TapeToolchain
