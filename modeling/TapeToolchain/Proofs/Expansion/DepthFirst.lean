import TapeToolchain.Proofs.Expansion.CallGraph
import TapeToolchain.Proofs.Expansion.Memory
import TapeToolchain.Proofs.Language.Expansion

/-!
Inlining depth first: each callee is inlined on its own before its body takes the place of the call
(`Unfolds`). What rounds make is the same, so expansion is described without rounds. They only
decide whether the chains of calls are short enough.
-/

namespace TapeToolchain

/-- Declarations of parameters, each set to what its argument means outside of the scope. -/
def parameterScope : List Symbol → List Node → List Node
  | x :: params, a :: arguments =>
    .compound .envDeclare [.literal (.name x)] ::
    .compound .envSet [.literal (.name x), .compound .outerEnvGet [a]] ::
    parameterScope params arguments
  | _, _ => []

/-- A call whose callee's body is inlined already: a scope for the parameters, and in it one for the
body. -/
def callScope (params : List Symbol) (arguments inner : List Node) : List Node :=
  [.compound .envBegin []] ++ parameterScope params arguments ++
    [.compound .envBegin []] ++ inner ++ [.compound .envEnd [], .compound .envEnd []]

theorem parameterScope_eq (params : List Symbol) (arguments : List Node) :
    parameterScope params arguments =
      (List.zipWith Inlining.bindParameter params arguments).flatten := by
  fun_induction parameterScope params arguments with
  | case1 x params a arguments ih => rw [ih]; rfl
  | case2 params arguments h =>
    cases params with
    | nil => rfl
    | cons x params =>
      cases arguments with
      | nil => rfl
      | cons a arguments => exact absurd rfl (h x params a arguments rfl)

theorem callScope_eq (params : List Symbol) (arguments inner : List Node) :
    callScope params arguments inner =
      Statement.inScope ((List.zipWith Inlining.bindParameter params arguments).flatten ++
        Statement.inScope inner) := by
  simp [callScope, parameterScope_eq, Statement.inScope, Statement.envBegin, Statement.envEnd]

namespace MacroTable

section
variable (t : MacroTable) (limit : Nat)

/-- The body with every call inlined, depth first: a call of a macro gives way to a scope that binds
its parameters in order and holds the macro's own body, inlined in turn, in a scope of its own. -/
inductive Unfolds : List Node → List Node → Prop where
  | nil : Unfolds [] []
  | keep {n : Node} {rest out : List Node} : n.call? = none → Unfolds rest out →
      Unfolds (n :: rest) (n :: out)
  | builtin {n : Node} {symbol : Symbol} {arguments rest out : List Node} {b : Builtin} :
      n.call? = some (.literal (.name symbol), arguments) → t.find? symbol.text = none →
      Builtin.ofName? symbol.text = some b → Unfolds rest out →
      Unfolds (n :: rest) (directCall b.name arguments :: out)
  | inlined {n : Node} {symbol : Symbol} {arguments body inner rest out : List Node}
      {d : Definition} :
      n.call? = some (.literal (.name symbol), arguments) → t.desugar limit symbol.text = .ok d →
      d.params.length = arguments.length → d.body = Statement.inScope body →
      Unfolds body inner → Unfolds rest out →
      Unfolds (n :: rest) (callScope d.params arguments inner ++ out)

/-- The terms are the desugared body of the entry with every call inlined, depth first. -/
def IsExpansion (entry : String) (out : List Node) : Prop :=
  ∃ d body inner, t.desugar limit entry = .ok d ∧ d.body = Statement.inScope body ∧
    Unfolds t limit body inner ∧ out = Statement.inScope inner

end

variable {t : MacroTable} {limit : Nat}

/-! ## Depth first -/

/-- Inlined statements are no calls. -/
theorem Unfolds.call?_eq_none {body out : List Node} (h : Unfolds t limit body out) :
    ∀ n ∈ out, n.call? = none := by
  induction h with
  | nil => exact List.forall_mem_nil _
  | keep hn _ ih => exact List.forall_mem_cons.2 ⟨hn, ih⟩
  | builtin _ _ _ _ ih => exact List.forall_mem_cons.2 ⟨rfl, ih⟩
  | @inlined n symbol arguments body inner rest out d _ _ _ _ _ _ ihinner ih =>
    intro k hk
    by_cases hcall : k.call? = none
    · exact hcall
    · simp only [callScope_eq, List.mem_append, mem_inScope hcall, not_mem_bindParameters hcall,
        false_or] at hk
      exact hk.elim (ihinner k) (ih k)

/-- There is at most one way to inline. -/
theorem Unfolds.unique {body out out' : List Node} (h : Unfolds t limit body out)
    (h' : Unfolds t limit body out') : out = out' := by
  induction h generalizing out' with
  | nil => cases h'; rfl
  | keep hn _ ih =>
    cases h' with
    | keep _ h' => rw [ih h']
    | builtin hcall _ _ _ => simp [hn] at hcall
    | inlined hcall _ _ _ _ _ => simp [hn] at hcall
  | builtin hcall hfind hb _ ih =>
    cases h' with
    | keep hn _ => simp [hn] at hcall
    | builtin hcall' _ hb' h' =>
      obtain ⟨rfl, rfl⟩ : _ ∧ _ := by simpa [hcall] using hcall'
      obtain rfl : _ = _ := by simpa [hb] using hb'
      rw [ih h']
    | inlined hcall' hd _ _ _ _ =>
      obtain ⟨rfl, rfl⟩ : _ ∧ _ := by simpa [hcall] using hcall'
      simp [desugar_of_find?_none hfind] at hd
  | inlined hcall hd _ hbody _ _ ihinner ih =>
    cases h' with
    | keep hn _ => simp [hn] at hcall
    | builtin hcall' hfind _ _ =>
      obtain ⟨rfl, rfl⟩ : _ ∧ _ := by simpa [hcall] using hcall'
      simp [desugar_of_find?_none hfind] at hd
    | inlined hcall' hd' _ hbody' hinner' h' =>
      obtain ⟨rfl, rfl⟩ : _ ∧ _ := by simpa [hcall] using hcall'
      obtain rfl : _ = _ := by simpa [hd] using hd'
      obtain rfl : _ = _ := by simpa [hbody, Statement.inScope] using hbody'
      rw [ihinner hinner', ih h']

/-- What rounds make is what inlining depth first makes. The induction is on how often calls are
replaced in a row, since the body of a callee is no part of the body that calls it. -/
theorem Unfolds.of_rewrites {k : Nat} {body out : List Node}
    (h : Rewrites [Inlining.inline? t (t.desugar limit)] k body out) :
    Unfolds t limit body out := by
  induction k using Nat.strongRecOn generalizing body out with
  | ind k ih =>
    induction body generalizing out with
    | nil => cases h; exact .nil
    | cons n rest ihrest =>
      cases h with
      | keep hnone hrest =>
        exact .keep (inline?_eq_none.1 (hnone _ List.mem_cons_self)) (ihrest hrest)
      | @replace k f _ new _ out₁ out₂ hf hn hnew hrest =>
        rw [List.mem_singleton.1 hf] at hn
        obtain ⟨symbol, arguments, hcall, hexpand⟩ := inline?_eq_some.1 hn
        rcases expandCall_ok_iff.1 hexpand with ⟨b, hfind, hb, rfl⟩ | ⟨d, hd, hlength, rfl⟩
        -- a direct call of a built-in is never replaced again; the body of a macro is inlined in
        -- the rounds that follow
        · obtain ⟨u, rfl, hnil⟩ := hnew.kept (inline?_none (by decide) _)
          cases hnil
          exact .builtin hcall hfind hb (ihrest hrest)
        · obtain ⟨source, body, -, -, hbody⟩ := desugar_eq_ok hd
          obtain ⟨inner, rfl, hinner⟩ := inlines_callBody hbody hnew
          rw [Inlining.callBody, ← callScope_eq]
          show Unfolds t limit (n :: rest) (callScope d.params arguments inner ++ out₂)
          exact .inlined hcall hd hlength hbody (ih k (Nat.lt_succ_self k) hinner) (ihrest hrest)

/-! ## Expansion -/

section
variable {limits : RoundLimits} {entry : String}

theorem isExpansion_of_expand {out : List Node} (h : t.expand limits entry = .ok out) :
    IsExpansion t limits.desugaring entry out := by
  obtain ⟨d, hd, hrounds⟩ := expand_ok_iff.1 h
  obtain ⟨source, body, -, -, hbody⟩ := desugar_eq_ok hd
  obtain ⟨k, hrewrites⟩ := rewrites_of_rounds hrounds
  rw [hbody, ← List.append_nil (Statement.inScope body)] at hrewrites
  obtain ⟨inner, out', rfl, hinner, hnil⟩ := inlines_inScope hrewrites
  cases hnil
  exact ⟨d, body, inner, hd, hbody, .of_rewrites hinner, List.append_nil _⟩

theorem IsExpansion.unique {out out' : List Node} (h : IsExpansion t limit entry out)
    (h' : IsExpansion t limit entry out') : out = out' := by
  obtain ⟨d, body, inner, hd, hbody, hinner, rfl⟩ := h
  obtain ⟨d', body', inner', hd', hbody', hinner', rfl⟩ := h'
  obtain rfl : d = d' := by simpa [hd] using hd'
  obtain rfl : body = body' := by simpa [hbody, Statement.inScope] using hbody'
  rw [hinner.unique hinner']

theorem IsExpansion.call?_eq_none {out : List Node} (h : IsExpansion t limit entry out) :
    ∀ n ∈ out, n.call? = none := by
  obtain ⟨d, body, inner, -, -, hinner, rfl⟩ := h
  intro n hn
  by_cases hcall : n.call? = none
  · exact hcall
  · exact hinner.call?_eq_none n ((mem_inScope hcall).1 hn)

theorem WellCalled.inlined (h : WellCalled t limit entry) {k : Nat} {m : String} {d : Definition}
    (hchain : CallChain t limit entry k m) (hd : t.desugar limit m = .ok d) {n : Node}
    (hn : n ∈ d.body) : ∃ r, Inlining.inline? t (t.desugar limit) n = .ok r := by
  apply inline?_of_fits (h.fits k m d hchain hd n hn)
  intro callee hcallee
  exact h.desugars (k + 1) callee (hchain.next ⟨d, n, hd, hn, hcallee⟩)

/-- An expansion that succeeds has made its way through the graph of calls. -/
theorem wellCalled_of_expand {out : List Node} (h : t.expand limits entry = .ok out) :
    WellCalled t limits.desugaring entry ∧
      ∀ k m, CallChain t limits.desugaring entry k m → k < limits.inlining := by
  obtain ⟨d, hd, hrounds⟩ := expand_ok_iff.1 h
  -- each chain of calls is followed by the rounds, layer by layer
  have hlayers := fun {k m} (hchain : CallChain t limits.desugaring entry k m) =>
    (layer_start hd).of_rounds hrounds (Nat.zero_le k) hchain
  refine ⟨⟨?_, ?_, ?_⟩, ?_⟩
  · obtain ⟨source, -, hfind, -⟩ := desugar_eq_ok hd
    simp [hfind]
  · intro k m hchain hfind
    cases hchain with
    | start => exact ⟨d, hd⟩
    | @next k caller _ hcaller hcall =>
      obtain ⟨d', n, hd', hn, hcallee⟩ := hcall
      obtain ⟨r, hr⟩ := (hlayers hcaller).2 d' hd' n hn
      exact (fits_of_inline? hr).2 m hcallee hfind
  · intro k m d' hchain hd' n hn
    obtain ⟨r, hr⟩ := (hlayers hchain).2 d' hd' n hn
    exact (fits_of_inline? hr).1
  · intro k m hchain
    have hlt := (hlayers hchain).1
    omega

/-- If nothing is wrong with the calls, expansion succeeds, or there is a chain of calls as long as
the limit and expansion says that it is too long. -/
theorem WellCalled.expand_cases (h : WellCalled t limits.desugaring entry) :
    (t.expand limits entry = .error (.roundLimit .inlining entry limits.inlining) ∧
        ∃ m, CallChain t limits.desugaring entry limits.inlining m) ∨
      ∃ out, t.expand limits entry = .ok out := by
  obtain ⟨d, hd⟩ := h.desugars 0 entry .start h.defined
  have hcases := (layer_start hd).rounds_cases ⟨entry, .start⟩
    (fun k m d' hchain hd' n hn => h.inlined hchain hd' hn) limits.inlining
  rw [Nat.zero_add] at hcases
  rcases hcases with ⟨hnone, hchain⟩ | ⟨out, hout⟩
  · refine Or.inl ⟨?_, hchain⟩
    rw [expand, Inlining.expandWith, hd]
    show (Inlining.rounds t (t.desugar limits.desugaring) limits.inlining d.body >>= _) = _
    rw [hnone]
    rfl
  · exact Or.inr ⟨out, expand_ok_iff.2 ⟨d, hd, hout⟩⟩

end

end MacroTable

open MacroTable (CallChain WellCalled Acyclic IsExpansion)

/-- **Inlining by rounds is inlining depth first, and recursion is refused.** For every table, entry
and limits, expansion gives the same with and without a memory of desugared macros. It succeeds just
if the entry is defined, every macro that it leads to is desugared, all their calls fit, the calls
form no cycle and every chain of calls from the entry is shorter than the limit on inlining rounds.
Then the result is the one expansion of the entry depth first, and no statement of it is a call. If
the entry leads into a cycle, expansion fails under every limit; and where nothing else is wrong, it
fails because of the limit as soon as there is a chain as long as that. -/
theorem expansion_is_depth_first (t : MacroTable) (limits : RoundLimits) (entry : String) :
    answerOf (Desugared.expand t limits entry) .empty = t.expand limits entry ∧
      ((∃ out, t.expand limits entry = .ok out) ↔
        WellCalled t limits.desugaring entry ∧ Acyclic t limits.desugaring entry ∧
          ∀ k m, CallChain t limits.desugaring entry k m → k < limits.inlining) ∧
      (∀ out, t.expand limits entry = .ok out → IsExpansion t limits.desugaring entry out ∧
        (∀ other, IsExpansion t limits.desugaring entry other → other = out) ∧
        ∀ n ∈ out, n.call? = none) ∧
      (¬ Acyclic t limits.desugaring entry →
        ∀ inlining, ∃ cause, t.expand ⟨limits.desugaring, inlining⟩ entry = .error cause) ∧
      (WellCalled t limits.desugaring entry →
        (∃ k m, CallChain t limits.desugaring entry k m ∧ limits.inlining ≤ k) →
        t.expand limits entry = .error (.roundLimit .inlining entry limits.inlining)) := by
  refine ⟨Desugared.answerOf_expand_empty t limits entry, ⟨?_, ?_⟩, ?_, ?_, ?_⟩
  · intro ⟨out, hout⟩
    obtain ⟨hwell, hshort⟩ := MacroTable.wellCalled_of_expand hout
    exact ⟨hwell, MacroTable.acyclic_of_bounded hshort, hshort⟩
  · intro ⟨hwell, _, hshort⟩
    rcases hwell.expand_cases with ⟨-, m, hchain⟩ | hout
    · exact absurd (hshort _ m hchain) (Nat.lt_irrefl _)
    · exact hout
  · intro out hout
    have hexpansion := MacroTable.isExpansion_of_expand hout
    exact ⟨hexpansion, fun other hother => hother.unique hexpansion, hexpansion.call?_eq_none⟩
  · intro hcycle inlining
    cases hout : t.expand ⟨limits.desugaring, inlining⟩ entry with
    | error cause => exact ⟨cause, rfl⟩
    | ok out =>
      obtain ⟨-, hshort⟩ := MacroTable.wellCalled_of_expand hout
      exact absurd (MacroTable.acyclic_of_bounded hshort) hcycle
  · intro hwell ⟨k, m, hchain, hle⟩
    rcases hwell.expand_cases with ⟨herror, -⟩ | ⟨out, hout⟩
    · exact herror
    · have hlt := (MacroTable.wellCalled_of_expand hout).2 k m hchain
      omega

def relayed : MacroTable :=
  ⟨[⟨"main", [], [Statement.localCell "x", Statement.call "reset" ["x"]]⟩,
    ⟨"reset", [.visible "c"], [Statement.call "clear" ["c"]]⟩]⟩

def circular : MacroTable :=
  ⟨[⟨"main", [], [Statement.call "main" []]⟩]⟩

/-- The longest chain has two calls, so that three rounds are needed; no limit is enough for a
cycle. -/
theorem expansion_is_depth_first_relayed :
    (∃ out, relayed.expand ⟨8, 3⟩ "main" = .ok out ∧ IsExpansion relayed 8 "main" out ∧
      out =
        [.compound .envBegin [],
         .compound .envDeclare [.literal "x"],
         .compound .envSet [.literal "x", .compound .allocateLocal []],
         .compound .freeLocalOnEnvExit [.compound .envGet [.literal "x"]],
         .compound .envBegin [],
         .compound .envDeclare [.literal "c"],
         .compound .envSet [.literal "c", .compound .outerEnvGet [.literal "x"]],
         .compound .envBegin [],
         directCall "clear" [.literal "c"],
         .compound .envEnd [], .compound .envEnd [], .compound .envEnd []] ∧
      ∀ n ∈ out, n.call? = none) ∧
    CallChain relayed 8 "main" 2 "clear" ∧
    relayed.expand ⟨8, 2⟩ "main" = .error (.roundLimit .inlining "main" 2) ∧
    ∀ inlining, ∃ cause, circular.expand ⟨8, inlining⟩ "main" = .error cause := by
  obtain ⟨-, hiff, hout, -⟩ := expansion_is_depth_first relayed ⟨8, 3⟩ "main"
  obtain ⟨-, -, -, -, hlong⟩ := expansion_is_depth_first relayed ⟨8, 2⟩ "main"
  obtain ⟨-, -, -, hcycle, -⟩ := expansion_is_depth_first circular ⟨8, 0⟩ "main"
  have hreset : CallChain relayed 8 "main" 1 "reset" :=
    .next .start ⟨_, Statement.call "reset" ["x"], rfl,
      .tail _ (.tail _ (.tail _ (.tail _ (.head _)))), rfl⟩
  have hclear : CallChain relayed 8 "main" 2 "clear" :=
    .next hreset ⟨_, Statement.call "clear" ["c"], rfl, .tail _ (.head _), rfl⟩
  refine ⟨⟨_, rfl, (hout _ rfl).1, rfl, (hout _ rfl).2.2⟩, hclear, ?_, ?_⟩
  · exact hlong (hiff.1 ⟨_, rfl⟩).1 ⟨2, "clear", hclear, Nat.le_refl 2⟩
  · apply hcycle
    intro hacyclic
    apply hacyclic 0 "main" .start 0
    exact .next .start ⟨_, Statement.call "main" [], rfl, .tail _ (.head _), rfl⟩

end TapeToolchain
