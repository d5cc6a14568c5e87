import TapeToolchain.Proofs.Expansion.Desugared

/-!
Inlining and the graph of calls. Rounds inline every call of the top level at once, so they go
through the graph breadth first: after `k` rounds the calls at the top level are those of the macros
that `k` calls lead to (`Layer`). Hence the rounds come to rest just after the longest chain of
calls, and a cycle exhausts every limit.
-/

namespace TapeToolchain

/-- The name that a call calls, if it is a name. -/
def Node.callee? (n : Node) : Option String :=
  match n.call? with
  | some (.literal (.name symbol), _) => some symbol.text
  | _ => none

namespace MacroTable

variable (t : MacroTable) (limit : Nat)

/-! ## Calls -/

/-- A statement of the macro's body, desugared in at most `limit` rounds, calls a macro or a
built-in. -/
def Calls (caller callee : String) : Prop :=
  ∃ d n, t.desugar limit caller = .ok d ∧ n ∈ d.body ∧ n.callee? = some callee

/-- A chain of `k` calls leads from the first to the second. -/
inductive CallChain (first : String) : (k : Nat) → String → Prop where
  | start : CallChain first 0 first
  | next {k : Nat} {caller callee : String} :
      CallChain first k caller → Calls t limit caller callee → CallChain first (k + 1) callee

/-- If the statement is a call, then of a macro that takes so many arguments or, where there is no
macro of the name, of a built-in. -/
def CallFits (n : Node) : Prop :=
  ∀ callee arguments, n.call? = some (callee, arguments) →
    ∃ symbol, callee = .literal (.name symbol) ∧
      ((∃ d, t.find? symbol.text = some d ∧ d.params.length = arguments.length) ∨
        t.find? symbol.text = none ∧ ∃ b, Builtin.ofName? symbol.text = some b)

/-- The entry is defined, every macro that it leads to is desugared in `limit` rounds, and all calls
in their bodies fit. -/
structure WellCalled (entry : String) : Prop where
  defined : (t.find? entry).isSome = true
  desugars : ∀ k m, CallChain t limit entry k m → (t.find? m).isSome = true →
    ∃ d, t.desugar limit m = .ok d
  fits : ∀ k m d, CallChain t limit entry k m → t.desugar limit m = .ok d →
    ∀ n ∈ d.body, t.CallFits n

/-- No macro that the entry leads to leads to itself by one or more calls. -/
def Acyclic (entry : String) : Prop :=
  ∀ k m, CallChain t limit entry k m → ∀ j, ¬ CallChain t limit m (j + 1) m

variable {t : MacroTable} {limit : Nat}

/-! ## Chains -/

namespace CallChain

variable {a b c : String} {j k : Nat}

theorem trans (h₁ : CallChain t limit a j b) (h₂ : CallChain t limit b k c) :
    CallChain t limit a (j + k) c := by
  induction h₂ with
  | start => exact h₁
  | next _ hcall ih => exact .next ih hcall

/-- A chain passes through a macro after each number of calls. -/
theorem exists_of_le (h : CallChain t limit a k c) (hle : j ≤ k) :
    ∃ b, CallChain t limit a j b := by
  induction h with
  | start =>
    obtain rfl : j = 0 := by omega
    exact ⟨a, .start⟩
  | @next k caller callee hchain hcall ih =>
    rcases Nat.lt_or_ge k j with hlt | hge
    · obtain rfl : j = k + 1 := by omega
      exact ⟨callee, hchain.next hcall⟩
    · exact ih hge

/-- A cycle can be gone through any number of times. -/
theorem repeated (h : CallChain t limit a (k + 1) a) (n : Nat) :
    ∃ i, n ≤ i ∧ CallChain t limit a i a := by
  induction n with
  | zero => exact ⟨0, Nat.le_refl 0, .start⟩
  | succ n ih =>
    obtain ⟨i, hle, hi⟩ := ih
    exact ⟨i + (k + 1), by omega, hi.trans h⟩

end CallChain

/-- Chains that are shorter than some number lead into no cycle. -/
theorem acyclic_of_bounded {entry : String} {bound : Nat}
    (h : ∀ k m, CallChain t limit entry k m → k < bound) : Acyclic t limit entry := by
  intro k m hchain j hcycle
  obtain ⟨i, hle, hi⟩ := hcycle.repeated bound
  have hlt := h (k + i) m (hchain.trans hi)
  omega

/-! ## Desugared macros -/

/-- What is kept of a macro, and what its body has become. -/
theorem desugar_eq_ok {name : String} {d : Definition} (h : t.desugar limit name = .ok d) :
    ∃ source body, t.find? name = some source ∧ d.params = source.params ∧
      d.body = Statement.inScope body := by
  obtain ⟨source, body, -, hsource, -, rfl⟩ := desugar_ok_iff.1 h
  exact ⟨source, body, hsource, rfl, rfl⟩

theorem desugar_of_find?_none {name : String} (h : t.find? name = none) :
    t.desugar limit name = .error (.unknownMacro name) := by
  rw [desugar, h]

/-! ## Inlining a call -/

/-- What a call is replaced by, if it can be. -/
theorem expandCall_ok_iff {name : String} {arguments new : List Node} :
    Inlining.expandCall t (t.desugar limit) name arguments = .ok new ↔
      (∃ b, t.find? name = none ∧ Builtin.ofName? name = some b ∧
        new = [Inlining.builtinCall b arguments]) ∨
        ∃ d, t.desugar limit name = .ok d ∧ d.params.length = arguments.length ∧
          new = Inlining.callBody d arguments := by
  rw [Inlining.expandCall]
  cases hfind : t.find? name with
  | none =>
    rw [desugar_of_find?_none hfind]
    cases hb : Builtin.ofName? name with
    | none => simp [throw, throwThe, MonadExceptOf.throw]
    | some b => simp [pure, Except.pure, eq_comm]
  | some source =>
    simp only [except_bind_eq_ok, reduceCtorEq, false_and, exists_false, false_or]
    refine exists_congr fun d => and_congr_right fun _ => ?_
    split
    · next hlength => simp [hlength, pure, Except.pure, eq_comm]
    · next hlength => simp [hlength, throw, throwThe, MonadExceptOf.throw]

theorem inline?_eq_some {n : Node} {new : List Node} :
    Inlining.inline? t (t.desugar limit) n = .ok (some new) ↔
      ∃ symbol arguments, n.call? = some (.literal (.name symbol), arguments) ∧
        Inlining.expandCall t (t.desugar limit) symbol.text arguments = .ok new := by
  have hmap : ∀ x : Except CompileError (List Node), x.map some = .ok (some new) ↔ x = .ok new := by
    intro x
    cases x <;> simp [Except.map]
  rw [Inlining.inline?_eq]
  cases n.call? with
  | none => simp
  | some parts =>
    obtain ⟨callee, arguments⟩ := parts
    cases callee with
    | compound _ _ => simp [Node.atom?]
    | literal a =>
      cases a with
      | name symbol => simp [Node.atom?, hmap, and_assoc]
      | int _ | text _ | address _ => simp [Node.atom?]

theorem inline?_eq_none {n : Node} :
    Inlining.inline? t (t.desugar limit) n = .ok none ↔ n.call? = none := by
  have hmap : ∀ x : Except CompileError (List Node), x.map some ≠ .ok none := by
    intro x
    cases x <;> simp [Except.map]
  rw [Inlining.inline?_eq]
  split
  · next h => simp [h]
  · next h =>
    rw [h]
    split
    · simp [hmap]
    · simp

theorem callee?_eq_some {n : Node} {m : String} :
    n.callee? = some m ↔
      ∃ symbol arguments, n.call? = some (.literal (.name symbol), arguments) ∧
        symbol.text = m := by
  rw [Node.callee?]
  split
  · next symbol arguments h => simp [h, and_assoc]
  · next h =>
    constructor
    · intro hm
      cases hm
    · intro ⟨symbol, arguments, hcall, _⟩
      exact absurd hcall (h symbol arguments)

theorem fits_of_inline? {n : Node} {r : Option (List Node)}
    (h : Inlining.inline? t (t.desugar limit) n = .ok r) :
    t.CallFits n ∧ ∀ m, n.callee? = some m → (t.find? m).isSome = true →
      ∃ d, t.desugar limit m = .ok d := by
  cases r with
  | none =>
    have hnone := inline?_eq_none.1 h
    simp [CallFits, callee?_eq_some, hnone]
  | some new =>
    obtain ⟨symbol, arguments, hcall, hexpand⟩ := inline?_eq_some.1 h
    have hmacro : (∃ d, t.desugar limit symbol.text = .ok d ∧ d.params.length = arguments.length) ∨
        t.find? symbol.text = none ∧ ∃ b, Builtin.ofName? symbol.text = some b := by
      rcases expandCall_ok_iff.1 hexpand with ⟨b, hfind, hb, -⟩ | ⟨d, hd, hlength, -⟩
      · exact Or.inr ⟨hfind, b, hb⟩
      · exact Or.inl ⟨d, hd, hlength⟩
    constructor
    · intro callee args hparts
      obtain ⟨rfl, rfl⟩ : .literal (.name symbol) = callee ∧ arguments = args := by
        simpa [hcall] using hparts
      refine ⟨symbol, rfl, hmacro.imp_left ?_⟩
      intro ⟨d, hd, hlength⟩
      obtain ⟨source, -, hfind, hparams, -⟩ := desugar_eq_ok hd
      exact ⟨source, hfind, hparams ▸ hlength⟩
    · intro m hm hfind
      obtain rfl : symbol.text = m := by simpa [callee?_eq_some, hcall] using hm
      rcases hmacro with ⟨d, hd, -⟩ | ⟨hnone, -⟩
      · exact ⟨d, hd⟩
      · simp [hnone] at hfind

theorem inline?_of_fits {n : Node} (hfits : t.CallFits n)
    (hdesugars : ∀ m, n.callee? = some m → (t.find? m).isSome = true →
      ∃ d, t.desugar limit m = .ok d) :
    ∃ r, Inlining.inline? t (t.desugar limit) n = .ok r := by
  cases hcall : n.call? with
  | none => exact ⟨none, inline?_eq_none.2 hcall⟩
  | some parts =>
    obtain ⟨callee, arguments⟩ := parts
    obtain ⟨symbol, rfl, hfits⟩ := hfits callee arguments hcall
    rcases hfits with ⟨source, hfind, hlength⟩ | ⟨hfind, b, hb⟩
    · have hcallee : n.callee? = some symbol.text :=
        callee?_eq_some.2 ⟨symbol, arguments, hcall, rfl⟩
      obtain ⟨d, hd⟩ := hdesugars symbol.text hcallee (by simp [hfind])
      obtain ⟨source', -, hfind', hparams, -⟩ := desugar_eq_ok hd
      obtain rfl : source = source' := by simpa [hfind] using hfind'
      have hexpand : Inlining.expandCall t (t.desugar limit) symbol.text arguments =
          .ok (Inlining.callBody d arguments) :=
        expandCall_ok_iff.2 (Or.inr ⟨d, hd, hparams ▸ hlength, rfl⟩)
      exact ⟨_, inline?_eq_some.2 ⟨symbol, arguments, hcall, hexpand⟩⟩
    · have hexpand : Inlining.expandCall t (t.desugar limit) symbol.text arguments =
          .ok [Inlining.builtinCall b arguments] :=
        expandCall_ok_iff.2 (Or.inl ⟨b, hfind, hb, rfl⟩)
      exact ⟨_, inline?_eq_some.2 ⟨symbol, arguments, hcall, hexpand⟩⟩

section
variable {k : Node} (hk : k.call? ≠ none)
include hk

theorem ne_of_call {tag : Tag} (htag : tag ≠ .callMacro) (children : List Node) :
    k ≠ .compound tag children := by
  rintro rfl
  apply hk
  apply Option.eq_none_iff_forall_ne_some.2
  intro ⟨callee, arguments⟩ hcall
  have hsame := Node.call?_eq_some.1 hcall
  simp [htag] at hsame

theorem mem_inScope {body : List Node} : k ∈ Statement.inScope body ↔ k ∈ body := by
  have hbegin : k ≠ Statement.envBegin := ne_of_call hk (by decide) _
  have hend : k ≠ Statement.envEnd := ne_of_call hk (by decide) _
  simp [Statement.inScope, hbegin, hend]

theorem not_mem_bindParameters (params : List Symbol) (arguments : List Node) :
    k ∉ (List.zipWith Inlining.bindParameter params arguments).flatten := by
  intro hmem
  obtain ⟨group, hgroup, hmem⟩ := List.mem_flatten.1 hmem
  obtain ⟨i, hi, rfl⟩ := List.mem_iff_getElem.1 hgroup
  simp only [List.getElem_zipWith, Inlining.bindParameter, List.mem_cons, List.not_mem_nil,
    or_false] at hmem
  rcases hmem with h | h
  · exact ne_of_call hk (by decide) _ h
  · exact ne_of_call hk (by decide) _ h

end

/-- The calls among what replaces a statement are those of the callee's body. A built-in has
none. -/
theorem mem_of_inline? {n k : Node} {new : List Node}
    (h : Inlining.inline? t (t.desugar limit) n = .ok (some new)) (hk : k.call? ≠ none) :
    k ∈ new ↔ ∃ m d, n.callee? = some m ∧ t.desugar limit m = .ok d ∧ k ∈ d.body := by
  obtain ⟨symbol, arguments, hcall, hexpand⟩ := inline?_eq_some.1 h
  have hcallee : n.callee? = some symbol.text := callee?_eq_some.2 ⟨symbol, arguments, hcall, rfl⟩
  rcases expandCall_ok_iff.1 hexpand with ⟨b, hfind, hb, rfl⟩ | ⟨d, hd, hlength, rfl⟩
  · have hne : k ≠ Inlining.builtinCall b arguments := by
      intro hk'
      apply hk
      rw [hk']
      rfl
    simp [hcallee, hne, desugar_of_find?_none hfind]
  · simp [Inlining.callBody, mem_inScope hk, not_mem_bindParameters hk, hcallee, hd]

/-! ## Layers -/

/-- The calls at the top level are those in the bodies of the macros that `k` calls lead to. -/
def Layer (t : MacroTable) (limit : Nat) (entry : String) (k : Nat) (body : List Node) : Prop :=
  ∀ n, n.call? ≠ none →
    (n ∈ body ↔ ∃ m d, CallChain t limit entry k m ∧ t.desugar limit m = .ok d ∧ n ∈ d.body)

section
variable {entry : String} {k rounds : Nat} {body : List Node}

theorem layer_start {d : Definition} (hd : t.desugar limit entry = .ok d) :
    Layer t limit entry 0 d.body := by
  intro n _
  constructor
  · intro hn
    exact ⟨entry, d, .start, hd, hn⟩
  · intro ⟨m, d', hchain, hd', hn⟩
    cases hchain
    obtain rfl : d = d' := by simpa [hd] using hd'
    exact hn

/-- A round goes on to the next layer, and changes something just if there is a chain that reaches
it. -/
theorem Layer.sweep (h : Layer t limit entry k body) {swept : List Node} {changed : Bool}
    (hs : sweep (Inlining.inline? t (t.desugar limit)) body = .ok (swept, changed)) :
    Layer t limit entry (k + 1) swept ∧
    (changed = true ↔ ∃ m, CallChain t limit entry (k + 1) m) := by
  obtain ⟨hsteps, hmem, hchanged⟩ := Rewrites.sweep_spec hs
  -- a call of a macro that the layer holds is replaced in this round
  have hreplaced : ∀ {caller callee : String} {d : Definition} {n : Node},
      CallChain t limit entry k caller →
      t.desugar limit caller = .ok d → n ∈ d.body → n.callee? = some callee →
      n ∈ body ∧ ∃ new, Inlining.inline? t (t.desugar limit) n = .ok (some new) := by
    intro caller callee d n hchain hd hn hcallee
    obtain ⟨symbol, arguments, hcall, -⟩ := callee?_eq_some.1 hcallee
    have hbody : n ∈ body := (h n (by simp [hcall])).2 ⟨caller, d, hchain, hd, hn⟩
    obtain ⟨x, hx⟩ := hsteps n hbody
    cases x with
    | none => simp [inline?_eq_none.1 hx] at hcall
    | some new => exact ⟨hbody, new, hx⟩
  -- and what is replaced was a call of such a macro
  have hcalls : ∀ {n : Node} {new : List Node}, n ∈ body →
      Inlining.inline? t (t.desugar limit) n = .ok (some new) →
      ∃ m, n.callee? = some m ∧ CallChain t limit entry (k + 1) m := by
    intro n new hn hnew
    obtain ⟨symbol, arguments, hcall, -⟩ := inline?_eq_some.1 hnew
    obtain ⟨caller, d, hchain, hd, hbody⟩ := (h n (by simp [hcall])).1 hn
    have hcallee : n.callee? = some symbol.text := callee?_eq_some.2 ⟨symbol, arguments, hcall, rfl⟩
    exact ⟨symbol.text, hcallee, hchain.next ⟨d, n, hd, hbody, hcallee⟩⟩
  constructor
  · intro c hc
    rw [hmem]
    constructor
    · intro ⟨n, hn, hkept⟩
      rcases hkept with ⟨hnone, rfl⟩ | ⟨new, hnew, hc'⟩
      · exact absurd (inline?_eq_none.1 hnone) hc
      · obtain ⟨m, hm, hchain⟩ := hcalls hn hnew
        obtain ⟨m', d, hm', hd, hmemd⟩ := (mem_of_inline? hnew hc).1 hc'
        obtain rfl : m = m' := by simpa [hm] using hm'
        exact ⟨m, d, hchain, hd, hmemd⟩
    · intro ⟨m, d, hchain, hd, hc'⟩
      cases hchain with
      | @next _ caller _ hcaller hcall =>
        obtain ⟨d', n, hd', hn, hcallee⟩ := hcall
        obtain ⟨hbody, new, hnew⟩ := hreplaced hcaller hd' hn hcallee
        exact ⟨n, hbody, Or.inr ⟨new, hnew, (mem_of_inline? hnew hc).2 ⟨m, d, hcallee, hd, hc'⟩⟩⟩
  · rw [hchanged]
    constructor
    · intro ⟨n, hn, new, hnew⟩
      obtain ⟨m, -, hchain⟩ := hcalls hn hnew
      exact ⟨m, hchain⟩
    · intro ⟨m, hchain⟩
      cases hchain with
      | @next _ caller _ hcaller hcall =>
        obtain ⟨d, n, hd, hn, hcallee⟩ := hcall
        obtain ⟨hbody, new, hnew⟩ := hreplaced hcaller hd hn hcallee
        exact ⟨n, hbody, new, hnew⟩

/-- Rounds that come to rest have seen every layer: chains end before the limit, and all statements
on the way could be inlined. -/
theorem Layer.of_rounds (h : Layer t limit entry k body) {out : List Node}
    (hrounds : Inlining.rounds t (t.desugar limit) rounds body = .ok (some out)) {j : Nat}
    {m : String} (hkj : k ≤ j) (hchain : CallChain t limit entry j m) :
    j < k + rounds ∧ ∀ d, t.desugar limit m = .ok d → ∀ n ∈ d.body,
      ∃ r, Inlining.inline? t (t.desugar limit) n = .ok r := by
  induction rounds generalizing k body with
  | zero => cases hrounds
  | succ rounds ih =>
    rw [Inlining.rounds] at hrounds
    obtain ⟨⟨next, changed⟩, hsweep, hrounds⟩ := except_bind_eq_ok.1 hrounds
    obtain ⟨hnext, hchanged⟩ := h.sweep hsweep
    rcases Nat.eq_or_lt_of_le hkj with rfl | hlt
    · refine ⟨by omega, fun d hd n hn => ?_⟩
      by_cases hcall : n.call? = none
      · exact ⟨none, inline?_eq_none.2 hcall⟩
      · have hbody : n ∈ body := (h n hcall).2 ⟨m, d, hchain, hd, hn⟩
        exact (Rewrites.sweep_spec hsweep).1 n hbody
    · obtain rfl : changed = true := hchanged.2 (hchain.exists_of_le hlt)
      obtain ⟨hbound, hinlined⟩ := ih hnext hrounds hlt
      exact ⟨by omega, hinlined⟩

/-- If all statements can be inlined, the rounds come to rest, or there is a chain as long as the
limit. -/
theorem Layer.rounds_cases (h : Layer t limit entry k body)
    (hstart : ∃ m, CallChain t limit entry k m)
    (hinlined : ∀ j m d, CallChain t limit entry j m → t.desugar limit m = .ok d → ∀ n ∈ d.body,
      ∃ r, Inlining.inline? t (t.desugar limit) n = .ok r) (rounds : Nat) :
    (Inlining.rounds t (t.desugar limit) rounds body = .ok none ∧
      ∃ m, CallChain t limit entry (k + rounds) m) ∨
      ∃ out, Inlining.rounds t (t.desugar limit) rounds body = .ok (some out) := by
  induction rounds generalizing k body with
  | zero => exact Or.inl ⟨rfl, hstart⟩
  | succ rounds ih =>
    have hsteps : ∀ n ∈ body, ∃ r, Inlining.inline? t (t.desugar limit) n = .ok r := by
      intro n hn
      by_cases hcall : n.call? = none
      · exact ⟨none, inline?_eq_none.2 hcall⟩
      · obtain ⟨m, d, hchain, hd, hmem⟩ := (h n hcall).1 hn
        exact hinlined k m d hchain hd n hmem
    obtain ⟨next, changed, hsweep⟩ := Rewrites.sweep_of_steps hsteps
    obtain ⟨hnext, hchanged⟩ := h.sweep hsweep
    rw [Inlining.rounds, hsweep]
    cases changed with
    | false => exact Or.inr ⟨next, rfl⟩
    | true =>
      rw [show k + (rounds + 1) = k + 1 + rounds by omega]
      exact ih hnext (hchanged.1 rfl)

end

end MacroTable

end TapeToolchain
