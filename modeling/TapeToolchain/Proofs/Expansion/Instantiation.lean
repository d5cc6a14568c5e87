import TapeToolchain.Expansion.Pattern

/-!
Patterns as descriptions of subjects. Instantiation goes the other way than matching: it puts a
subject together from captured parts. A discarded part is not among them, so a choice of subjects
says what stands in its place. For patterns that capture no name twice, matching finds exactly the
captures from which instantiation gives the subject back.

A sequence pattern is a first pattern in front of a shorter sequence pattern (`matchInto_seq_cons`),
so that both ways of taking a sequence apart are one case (`Inverts.inFront`).
-/

namespace TapeToolchain

namespace Subject

/-- Puts a part in front of a sequence. A tag makes a compound term of it, and a term a longer
sequence. -/
def cons? : Subject → Subject → Option Subject
  | .tag head, .seq children => some (.node (.compound head children))
  | .node first, .seq rest => some (.seq (first :: rest))
  | _, _ => none

/-- Taking a sequence apart is the inverse of putting it together. -/
theorem uncons?_eq_some {s first rest : Subject} :
    s.uncons? = some (first, rest) ↔ cons? first rest = some s := by
  constructor
  · intro h
    unfold uncons? at h
    split at h
    · cases h
      rfl
    · cases h
      rfl
    · cases h
  · intro h
    unfold cons? at h
    split at h
    · cases h
      rfl
    · cases h
      rfl
    · cases h

theorem length?_of_uncons? {s first rest : Subject} (h : s.uncons? = some (first, rest)) (n : Nat) :
    s.length? = some (n + 1) ↔ rest.length? = some n := by
  unfold uncons? at h
  split at h
  · cases h
    simp [length?]
  · cases h
    simp [length?]
  · cases h

theorem length?_eq_zero {s : Subject} : s.length? = some 0 ↔ s = .seq [] := by
  cases s with
  | tag t => simp [length?]
  | node node => cases node <;> simp [length?]
  | seq nodes => simp [length?]

end Subject

/-! ## Captures -/

namespace Bindings

theorem lookup_cons (name : String) (entry : String × Subject) (rest : List (String × Subject)) :
    (entry :: rest).lookup name = if name = entry.1 then some entry.2 else rest.lookup name := by
  obtain ⟨key, part⟩ := entry
  by_cases h : name = key
  · simp [h]
  · have hbeq : (name == key) = false := by simpa using h
    simp [List.lookup_cons, h, hbeq]

theorem lookup_insertSorted (name other : String) (part : Subject)
    (captures : List (String × Subject)) :
    (insertSorted name part captures).lookup other =
      if other = name then some part else captures.lookup other := by
  induction captures with
  | nil => simp [insertSorted, lookup_cons]
  | cons first rest ih =>
    simp only [insertSorted]
    split
    · rw [lookup_cons]
    · split
      · next heq =>
        rw [lookup_cons, lookup_cons, ← heq]
        split <;> rfl
      · next hne =>
        rw [lookup_cons, lookup_cons, ih]
        by_cases h : other = name
        · subst h
          simp [hne]
        · simp [h]

theorem find?_insert (b : Bindings) (name other : String) (part : Subject) :
    (b.insert name part).find? other = if other = name then some part else b.find? other :=
  lookup_insertSorted name other part b.captures

theorem lookup_eq_none_of_lt {name : String} {captures : List (String × Subject)}
    (h : ∀ entry ∈ captures, name < entry.1) : captures.lookup name = none := by
  rw [List.lookup_eq_none_iff]
  intro entry hentry
  have hne : name ≠ entry.1 := fun heq => String.lt_irrefl _ (heq ▸ h entry hentry)
  simpa using hne

/-- Captures in order are determined by what is found among them. -/
theorem captures_ext {a b : List (String × Subject)} (ha : a.Pairwise fun x y => x.1 < y.1)
    (hb : b.Pairwise fun x y => x.1 < y.1) (h : ∀ name, a.lookup name = b.lookup name) : a = b := by
  induction a generalizing b with
  | nil =>
    cases b with
    | nil => rfl
    | cons second _ => simpa [lookup_cons] using h second.1
  | cons first rest ih =>
    cases b with
    | nil => simpa [lookup_cons] using h first.1
    | cons second others =>
      obtain ⟨hfirst, hrest⟩ := List.pairwise_cons.1 ha
      obtain ⟨hsecond, hothers⟩ := List.pairwise_cons.1 hb
      -- a first name that comes earlier in one list is not found in the other
      have hle : ∀ {x y : String × Subject} {xs ys : List (String × Subject)},
          (∀ entry ∈ ys, y.1 < entry.1) →
          (∀ name, (x :: xs).lookup name = (y :: ys).lookup name) → ¬ x.1 < y.1 := by
        intro x y xs ys hys hall hlt
        have hnone : (y :: ys).lookup x.1 = none := lookup_eq_none_of_lt fun entry hentry => by
          rcases List.mem_cons.1 hentry with rfl | hentry
          · exact hlt
          · exact String.lt_trans hlt (hys entry hentry)
        have hx := hall x.1
        rw [hnone] at hx
        simp [lookup_cons] at hx
      have hname : first.1 = second.1 :=
        String.le_antisymm (String.not_lt.1 (hle hfirst fun name => (h name).symm))
          (String.not_lt.1 (hle hsecond h))
      have hpart : first.2 = second.2 := by
        have := h first.1
        simpa [lookup_cons, hname] using this
      have hentry : first = second := Prod.ext hname hpart
      subst hentry
      congr 1
      apply ih hrest hothers
      intro name
      by_cases heq : name = first.1
      · subst heq
        rw [lookup_eq_none_of_lt hfirst, lookup_eq_none_of_lt hsecond]
      · have := h name
        simpa [lookup_cons, heq] using this

theorem ext_find? {a b : Bindings} (h : ∀ name, a.find? name = b.find? name) : a = b := by
  obtain ⟨captures, hordered⟩ := a
  obtain ⟨captures', hordered'⟩ := b
  have heq : captures = captures' := captures_ext hordered hordered' h
  subst heq
  rfl

/-- The captures are those of the given names. -/
def Capture (b : Bindings) (names : List String) : Prop :=
  ∀ name, (b.find? name).isSome ↔ name ∈ names

end Bindings

namespace Pattern

/-! ## Instantiation -/

/-- The subject of a first part and a rest, if there are both and they go together. -/
def inFront (first rest : Option Subject) : Option Subject :=
  first.bind fun first => rest.bind fun rest => Subject.cons? first rest

mutual

/-- The subject that the pattern describes. A captured part is taken from the captures. A discarded
part is taken from the choice, which has one for each way into the pattern: `false` leads to a first
part, `true` to the rest. -/
def instantiate : Pattern → Bindings → (List Bool → Subject) → Option Subject
  | bind name, b, _ => b.find? name
  | discard, _, choice => some (choice [])
  | never, _, _ => none
  | tag t, _, _ => some (.tag t)
  | atom a, _, _ => some (.node (.literal a))
  | cons head tail, b, choice =>
    inFront (head.instantiate b fun way => choice (false :: way))
      (tail.instantiate b fun way => choice (true :: way))
  | seq items, b, choice => instantiateAll items b choice

/-- The sequence that patterns describe element by element. -/
def instantiateAll : List Pattern → Bindings → (List Bool → Subject) → Option Subject
  | [], _, _ => some (.seq [])
  | item :: items, b, choice =>
    inFront (item.instantiate b fun way => choice (false :: way))
      (instantiateAll items b fun way => choice (true :: way))

end

mutual

/-- The patterns that are not made of others. -/
def leaves : Pattern → List Pattern
  | cons head tail => head.leaves ++ tail.leaves
  | seq items => leavesAll items
  | bind name => [bind name]
  | discard => [discard]
  | never => [never]
  | tag t => [tag t]
  | atom a => [atom a]

def leavesAll : List Pattern → List Pattern
  | [] => []
  | item :: items => item.leaves ++ leavesAll items

end

/-- A sequence of patterns matches as the first of them in front of the others. -/
theorem matchInto_seq_cons (item : Pattern) (items : List Pattern) (s : Subject) (b : Bindings) :
    (seq (item :: items)).matchInto s b = (cons item (seq items)).matchInto s b := by
  simp only [matchInto, matchItems, List.length_cons]
  cases h : s.uncons? with
  | none => simp
  | some parts =>
    obtain ⟨first, rest⟩ := parts
    simp only [Subject.length?_of_uncons? h]
    split
    · rfl
    · simp

/-! ## Matching and instantiation -/

/-- Matching, which adds captures of the given names to those made before, goes back on an
instantiation that uses these names only. -/
structure Inverts (names : List String) (matching : Subject → Bindings → Option Bindings)
    (inst : Bindings → (List Bool → Subject) → Option Subject) : Prop where
  /-- What is instantiated depends on the captures of these names only. -/
  congr : ∀ {b b' : Bindings} (choice), (∀ name ∈ names, b.find? name = b'.find? name) →
    inst b choice = inst b' choice
  /-- What matches is instantiated from what is captured, and other captures are kept. -/
  sound : ∀ {s b b'}, matching s b = some b' →
    (∃ choice, inst b' choice = some s) ∧ (∀ name ∈ names, (b'.find? name).isSome) ∧
      ∀ name, name ∉ names → b'.find? name = b.find? name
  /-- What is instantiated matches, and is captured as it was. -/
  complete : ∀ {s b choice}, inst b choice = some s → ∀ before, ∃ b', matching s before = some b' ∧
    (∀ name ∈ names, b'.find? name = b.find? name) ∧ ∀ name, name ∉ names →
      b'.find? name = before.find? name

namespace Inverts

/-- A pattern without names matches what it can be instantiated to. -/
theorem of_unnamed {matching : Subject → Bindings → Option Bindings} {P : Subject → Prop}
    {inst : Bindings → (List Bool → Subject) → Option Subject}
    (hmatching : ∀ s b b', matching s b = some b' ↔ P s ∧ b' = b)
    (hcongr : ∀ b b' choice, inst b choice = inst b' choice)
    (hinst : ∀ s b, P s ↔ ∃ choice, inst b choice = some s) : Inverts [] matching inst where
  congr choice _ := hcongr _ _ choice
  sound {s b b'} h := by
    obtain ⟨hP, rfl⟩ := (hmatching s b b').1 h
    exact ⟨(hinst s b').1 hP, by simp, by simp⟩
  complete {s b choice} h before := by
    have hP : P s := (hinst s b).2 ⟨choice, h⟩
    exact ⟨before, (hmatching s before before).2 ⟨hP, rfl⟩, by simp, by simp⟩

/-- A pattern that matches one subject only. -/
theorem of_constant {matching : Subject → Bindings → Option Bindings} {only : Subject}
    (hmatching : ∀ s b b', matching s b = some b' ↔ s = only ∧ b' = b) :
    Inverts [] matching fun _ _ => some only := by
  apply of_unnamed hmatching
  · intro b b' choice
    rfl
  · intro s b
    constructor
    · intro h
      exact ⟨fun _ => s, by rw [h]⟩
    · intro h
      obtain ⟨choice, h⟩ := h
      exact (Option.some.inj h).symm

/-- A first part in front of a rest, with different names in both. -/
theorem inFront {names names' : List String} {first rest : Subject → Bindings → Option Bindings}
    {inst inst' : Bindings → (List Bool → Subject) → Option Subject}
    (hfirst : Inverts names first inst) (hrest : Inverts names' rest inst')
    (hdisjoint : ∀ name ∈ names, name ∉ names') :
    Inverts (names ++ names')
      (fun s b =>
        match s.uncons? with
        | none => none
        | some (head, tail) => (first head b).bind fun b => rest tail b)
      (fun b choice =>
        Pattern.inFront (inst b fun way => choice (false :: way))
          (inst' b fun way => choice (true :: way))) where
  congr {b b'} choice h := by
    rw [hfirst.congr _ fun name hname => h name (List.mem_append_left _ hname),
      hrest.congr _ fun name hname => h name (List.mem_append_right _ hname)]
  sound {s b b'} h := by
    cases hs : s.uncons? with
    | none => simp [hs] at h
    | some parts =>
      obtain ⟨head, tail⟩ := parts
      simp only [hs] at h
      obtain ⟨b₁, hhead, htail⟩ := Option.bind_eq_some_iff.1 h
      obtain ⟨⟨choice₁, hinst₁⟩, hsome₁, hkeep₁⟩ := hfirst.sound hhead
      obtain ⟨⟨choice₂, hinst₂⟩, hsome₂, hkeep₂⟩ := hrest.sound htail
      refine ⟨⟨fun way => if way.head? = some true then choice₂ way.tail else choice₁ way.tail, ?_⟩,
        ?_, ?_⟩
      · -- the captures of the first part are still there after the rest
        have hsame : inst b' choice₁ = inst b₁ choice₁ :=
          hfirst.congr choice₁ fun name hname => hkeep₂ name (hdisjoint name hname)
        simp only [List.head?_cons, List.tail_cons, Option.some.injEq, Bool.false_eq_true, if_false,
          if_true]
        rw [hsame, hinst₁, hinst₂]
        exact Subject.uncons?_eq_some.1 hs
      · intro name hname
        by_cases h₂ : name ∈ names'
        · exact hsome₂ name h₂
        · rw [hkeep₂ name h₂]
          exact hsome₁ name ((List.mem_append.1 hname).resolve_right h₂)
      · intro name hname
        rw [List.mem_append, not_or] at hname
        rw [hkeep₂ name hname.2, hkeep₁ name hname.1]
  complete {s b choice} h before := by
    obtain ⟨head, hhead, h⟩ := Option.bind_eq_some_iff.1 h
    obtain ⟨tail, htail, h⟩ := Option.bind_eq_some_iff.1 h
    obtain ⟨b₁, hmatch₁, hsame₁, hkeep₁⟩ := hfirst.complete hhead before
    obtain ⟨b₂, hmatch₂, hsame₂, hkeep₂⟩ := hrest.complete htail b₁
    refine ⟨b₂, ?_, ?_, ?_⟩
    · simp only [Subject.uncons?_eq_some.2 h, hmatch₁, Option.bind_some, hmatch₂]
    · intro name hname
      by_cases h₂ : name ∈ names'
      · exact hsame₂ name h₂
      · rw [hkeep₂ name h₂]
        exact hsame₁ name ((List.mem_append.1 hname).resolve_right h₂)
    · intro name hname
      rw [List.mem_append, not_or] at hname
      rw [hkeep₂ name hname.2, hkeep₁ name hname.1]

theorem bind (name : String) :
    Inverts [name] (Pattern.bind name).matchInto (Pattern.bind name).instantiate where
  congr _ h := by
    simp only [instantiate]
    exact h name (List.mem_singleton.2 rfl)
  sound {s b b'} h := by
    simp only [matchInto, Option.some.injEq] at h
    subst h
    simp only [instantiate, Bindings.find?_insert]
    refine ⟨⟨fun _ => s, by simp⟩, by simp, ?_⟩
    intro other hother
    rw [if_neg (by simpa using hother)]
  complete {s b choice} h before := by
    simp only [instantiate] at h
    refine ⟨before.insert name s, by simp [matchInto], ?_, ?_⟩
    · intro other hother
      rw [List.mem_singleton.1 hother, Bindings.find?_insert, if_pos rfl, h]
    · intro other hother
      rw [Bindings.find?_insert, if_neg (by simpa using hother)]

end Inverts

theorem matchInto_tag {t : Tag} {s : Subject} {b b' : Bindings} :
    (tag t).matchInto s b = some b' ↔ s = .tag t ∧ b' = b := by
  cases s with
  | tag found =>
    simp only [matchInto, Subject.tag.injEq]
    split
    · next heq => simp [heq, eq_comm]
    · next hne => simp [Ne.symm hne]
  | node n => simp [matchInto]
  | seq nodes => simp [matchInto]

theorem matchInto_atom {a : Atom} {s : Subject} {b b' : Bindings} :
    (atom a).matchInto s b = some b' ↔ s = .node (.literal a) ∧ b' = b := by
  cases s with
  | tag found => simp [matchInto]
  | node n =>
    cases n with
    | literal found =>
      simp only [matchInto, Subject.node.injEq, Node.literal.injEq]
      split
      · next heq => simp [heq, eq_comm]
      · next hne => simp [Ne.symm hne]
    | compound t children => simp [matchInto]
  | seq nodes => simp [matchInto]

theorem matchInto_seq_nil {s : Subject} {b b' : Bindings} :
    (seq []).matchInto s b = some b' ↔ s = .seq [] ∧ b' = b := by
  rw [← Subject.length?_eq_zero]
  simp only [matchInto, matchItems, List.length_nil]
  split
  · next heq => simp [heq, eq_comm]
  · next hne => simp [hne]

mutual

/-- Matching with a pattern that captures no name twice is the inverse of its instantiation. -/
theorem inverts : ∀ p : Pattern, p.names.Nodup → Inverts p.names p.matchInto p.instantiate
  | bind name, _ => .bind name
  | discard, _ => by
    apply Inverts.of_unnamed (P := fun _ => True)
    · simp [matchInto, eq_comm]
    · simp [instantiate]
    · intro s b
      simp only [instantiate, true_iff]
      exact ⟨fun _ => s, rfl⟩
  | never, _ => by
    apply Inverts.of_unnamed (P := fun _ => False) <;> simp [matchInto, instantiate]
  | tag t, _ => .of_constant fun _ _ _ => matchInto_tag
  | atom a, _ => .of_constant fun _ _ _ => matchInto_atom
  | cons head tail, h => by
    obtain ⟨hhead, htail, hdisjoint⟩ := List.nodup_append.1 h
    exact (inverts head hhead).inFront (inverts tail htail) fun name hname hmem =>
      hdisjoint name hname name hmem rfl
  | seq items, h => inverts_seq items h

theorem inverts_seq : ∀ items : List Pattern, (namesAll items).Nodup →
    Inverts (namesAll items) (seq items).matchInto (seq items).instantiate
  | [], _ => .of_constant fun _ _ _ => matchInto_seq_nil
  | item :: items, h => by
    obtain ⟨hitem, hitems, hdisjoint⟩ := List.nodup_append.1 h
    have hmatching : (seq (item :: items)).matchInto = (cons item (seq items)).matchInto :=
      funext fun s => funext fun b => matchInto_seq_cons item items s b
    rw [hmatching]
    exact (inverts item hitem).inFront (inverts_seq items hitems)
      fun name hname hmem => hdisjoint name hname name hmem rfl

end

/-! ## Discarded parts, and patterns that match nothing -/

mutual

/-- Where nothing is discarded, there is nothing to choose. -/
theorem instantiate_of_no_discard (b : Bindings) : ∀ (p : Pattern), discard ∉ p.leaves →
    ∀ choice choice', p.instantiate b choice = p.instantiate b choice'
  | bind _, _, _, _ | never, _, _, _ | tag _, _, _, _ | atom _, _, _, _ => rfl
  | discard, h, _, _ => absurd (List.mem_singleton.2 rfl) h
  | cons head tail, h, choice, choice' => by
    simp only [leaves, List.mem_append, not_or] at h
    simp only [instantiate]
    rw [instantiate_of_no_discard b head h.1 _ fun way => choice' (false :: way),
      instantiate_of_no_discard b tail h.2 _ fun way => choice' (true :: way)]
  | seq items, h, choice, choice' => instantiateAll_of_no_discard b items h choice choice'

theorem instantiateAll_of_no_discard (b : Bindings) :
    ∀ (items : List Pattern), discard ∉ leavesAll items →
    ∀ choice choice', instantiateAll items b choice = instantiateAll items b choice'
  | [], _, _, _ => rfl
  | item :: items, h, choice, choice' => by
    simp only [leavesAll, List.mem_append, not_or] at h
    simp only [instantiateAll]
    rw [instantiate_of_no_discard b item h.1 _ fun way => choice' (false :: way),
      instantiateAll_of_no_discard b items h.2 _ fun way => choice' (true :: way)]

end

/-- A first part or a rest that matches nothing. -/
theorem matchInto_cons_eq_none {head tail : Pattern} (h : (∀ s b, head.matchInto s b = none) ∨
    ∀ s b, tail.matchInto s b = none) (s : Subject) (b : Bindings) :
    (cons head tail).matchInto s b = none := by
  simp only [matchInto]
  split
  · rfl
  · rcases h with h | h
    · rw [h, Option.bind_none]
    · simp only [h, Option.bind_fun_none]

mutual

theorem matchInto_of_never : ∀ p : Pattern, never ∈ p.leaves → ∀ s b, p.matchInto s b = none
  | bind _, h | discard, h | tag _, h | atom _, h => by simp [leaves] at h
  | never, _ => by simp [matchInto]
  | cons head tail, h => by
    rw [leaves, List.mem_append] at h
    exact matchInto_cons_eq_none (h.imp (matchInto_of_never head) (matchInto_of_never tail))
  | seq items, h => matchInto_seq_of_never items h

theorem matchInto_seq_of_never : ∀ items : List Pattern, never ∈ leavesAll items → ∀ s b,
    (seq items).matchInto s b = none
  | [], h => by simp [leavesAll] at h
  | item :: items, h => by
    rw [leavesAll, List.mem_append] at h
    intro s b
    rw [matchInto_seq_cons]
    exact matchInto_cons_eq_none
      (h.imp (matchInto_of_never item) (matchInto_seq_of_never items)) s b

end

theorem validate_eq_ok {p : Pattern} : p.validate = .ok () ↔ p.names.Nodup := by
  have hnodup : firstRepeated? [] p.names = none ↔ p.names.Nodup := by
    rw [firstRepeated?_eq_none]
    simp
  rw [← hnodup, validate]
  cases firstRepeated? [] p.names <;> simp

/-- Matching from scratch. -/
theorem match?_eq_some {p : Pattern} (hvalid : p.validate = .ok ()) {s : Subject} {b : Bindings} :
    p.match? s = some b ↔ b.Capture p.names ∧ ∃ choice, p.instantiate b choice = some s := by
  have hinverts := inverts p (validate_eq_ok.1 hvalid)
  have hempty : ∀ name, Bindings.empty.find? name = none := fun _ => rfl
  constructor
  · intro h
    obtain ⟨hinst, hsome, hkeep⟩ := hinverts.sound h
    refine ⟨fun name => ⟨fun hname => ?_, hsome name⟩, hinst⟩
    by_cases hmem : name ∈ p.names
    · exact hmem
    · rw [hkeep name hmem, hempty] at hname
      cases hname
  · intro h
    obtain ⟨hcapture, choice, hinst⟩ := h
    obtain ⟨b', hmatch, hsame, hkeep⟩ := hinverts.complete hinst .empty
    have heq : b' = b := by
      apply Bindings.ext_find?
      intro name
      by_cases hname : name ∈ p.names
      · exact hsame name hname
      · rw [hkeep name hname, hempty]
        exact (Option.not_isSome_iff_eq_none.1 (mt (hcapture name).1 hname)).symm
    rw [match?, hmatch, heq]

/-- **Matching is the inverse of instantiation.** Take a pattern that captures no name twice. It
matches a subject with certain captures exactly if these are the captures of its names, and the
pattern, instantiated with them and with some choice of subjects for what it discards, is the
subject. If it discards nothing, the choice does not matter. A pattern with a part that matches
nothing matches nothing. -/
theorem matching_inverts_instantiation (p : Pattern) (s : Subject) :
    (p.validate = .ok () → ∀ b, p.match? s = some b ↔
      b.Capture p.names ∧ ∃ choice, p.instantiate b choice = some s) ∧
    (p.validate = .ok () → discard ∉ p.leaves → ∀ b choice, p.match? s = some b ↔
      b.Capture p.names ∧ p.instantiate b choice = some s) ∧
    (never ∈ p.leaves → p.match? s = none) := by
  refine ⟨fun hvalid b => match?_eq_some hvalid, fun hvalid hdiscard b choice => ?_,
    fun hnever => ?_⟩
  · rw [match?_eq_some hvalid]
    refine and_congr_right fun _ => ⟨fun h => ?_, fun h => ⟨choice, h⟩⟩
    obtain ⟨choice', h⟩ := h
    rw [instantiate_of_no_discard b p hdiscard choice choice', h]
  · exact matchInto_of_never p hnever s .empty

/-- A call with its callee, its first argument and the rest of them. -/
def callPattern (rest : Pattern) : Pattern :=
  .compound .callMacro [.compound .name [.bind "callee"],
    .cons (.tag .arguments) (.cons (.bind "first") rest)]

/-- The captures of a call of `f` with a first argument `x`. -/
def callCaptures : Bindings :=
  (Bindings.empty.insert "callee" (.node (.literal "f"))).insert "first" (.node (.literal "x"))

theorem names_callPattern (rest : Pattern) :
    (callPattern rest).names = "callee" :: "first" :: rest.names := by
  simp [callPattern, compound, names, namesAll]

theorem find?_callCaptures (name : String) : callCaptures.find? name =
    if name = "first" then some (.node (.literal "x"))
    else if name = "callee" then some (.node (.literal "f")) else none := by
  simp only [callCaptures, Bindings.find?_insert]
  rfl

/-- The other arguments of a call are discarded, captured, or not to be. -/
theorem matching_inverts_instantiation_call :
    (callPattern discard).validate = .ok () ∧ (callPattern (bind "others")).validate = .ok () ∧
    (callPattern discard).match? (.node (Statement.call "f" ["x", "y"])) = some callCaptures ∧
    (callPattern (bind "others")).match? (.node (Statement.call "f" ["x", "y"])) =
      some (callCaptures.insert "others" (.seq [.literal "y"])) ∧
    (callPattern never).match? (.node (Statement.call "f" ["x", "y"])) = none := by
  obtain ⟨hdiscard, -, -⟩ :=
    matching_inverts_instantiation (callPattern discard) (.node (Statement.call "f" ["x", "y"]))
  obtain ⟨-, hbind, -⟩ :=
    matching_inverts_instantiation (callPattern (bind "others"))
      (.node (Statement.call "f" ["x", "y"]))
  obtain ⟨-, -, hnever⟩ :=
    matching_inverts_instantiation (callPattern never) (.node (Statement.call "f" ["x", "y"]))
  refine ⟨by rfl, by rfl, ?_, ?_, hnever (by simp [callPattern, compound, leaves, leavesAll])⟩
  · refine (hdiscard (by rfl) callCaptures).2 ⟨fun name => ?_, fun _ => .seq [.literal "y"], by rfl⟩
    simp only [find?_callCaptures, names_callPattern, names]
    grind
  · refine (hbind (by rfl) (by simp [callPattern, compound, leaves, leavesAll]) _
      fun _ => .seq []).2 ⟨fun name => ?_, by rfl⟩
    simp only [Bindings.find?_insert, find?_callCaptures, names_callPattern, names]
    grind

end Pattern

end TapeToolchain
