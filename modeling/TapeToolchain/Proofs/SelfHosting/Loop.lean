import TapeToolchain.Proofs.Preliminaries
import TapeToolchain.Proofs.SelfHosting.Step
import TapeToolchain.Proofs.Source.Pieces

/-!
The loop of the assembler. In each round the assembler reads a piece of the text, as far as the
length of a run fits in a byte, and writes the assembly of what it has read; so at its end it has
written that of the whole text.
-/

namespace TapeToolchain

open SelfHosting

/-! ## Pieces and their assembly -/

/-- A single immediate is enough for a cell, and for a distance that fits in it. -/
theorem Repeatable.immediates_eq {kind : Repeatable} {k : Nat} (hpos : 0 < k)
    (hk : kind = .left ∨ kind = .right → k < 0x100) : kind.immediates k = [k % 0x100] := by
  have hsplit : k < 0x100 → splitDistance k = [k % 0x100] := by
    intro hlt
    rw [splitDistance, Nat.mod_eq_of_lt hlt]
    rcases Nat.lt_or_eq_of_le (Nat.le_of_lt_succ hlt) with hlt | rfl
    · rw [Nat.div_eq_of_lt hlt, Nat.mod_eq_of_lt hlt, if_neg (Nat.ne_of_gt hpos)]
      rfl
    · rfl
  cases kind with
  | right => exact hsplit (hk (Or.inr rfl))
  | left => exact hsplit (hk (Or.inl rfl))
  | increment | decrement => rfl

theorem textBytes_join (texts : List String) :
    textBytes (String.join texts) = texts.flatMap textBytes := by
  rw [textBytes, String.toList_join, List.map_flatMap]
  rfl

theorem textBytes_run {f : Fragments} {kind : Repeatable} {k : Nat} (hpos : 0 < k)
    (hk : kind = .left ∨ kind = .right → k < 0x100) :
    textBytes (f.run .immediates kind k) =
      textBytes ((f.immediate kind).render (UInt8.ofNat k).toNat) := by
  rw [Fragments.run, Repeatable.immediates_eq hpos hk, textBytes_join, UInt8.toNat_ofNat']
  simp

namespace Content

/-- The labels of the open loops, as they are stacked. -/
def stackBytes (s : Content) : List UInt8 :=
  s.opened.flatMap fun label => (counterBytes label).reverse

/-- The text that is written for what has been read. -/
def output (s : Content) (f : Fragments) : List UInt8 :=
  textBytes (f.programStart ++ String.join (s.commands.map (f.command .immediates)))

/-- The desk of the assembler when it has read so much. -/
def desk (s : Content) (f : Fragments) (n c : UInt8) (text : List UInt8) : Desk :=
  ⟨s.nextLabel, n, c, text, s.stackBytes, s.output f⟩

theorem output_push (s : Content) (f : Fragments) (command : Command) :
    (s.push command).output f = s.output f ++ textBytes (f.command .immediates command) := by
  simp [output, push, textBytes_join]

theorem desk_push (s : Content) (f : Fragments) (command : Command) (n c : UInt8)
    (text : List UInt8) :
    (s.push command).desk f n c text =
      (s.desk f n c text).write (textBytes (f.command .immediates command)) := by
  rw [desk, output_push]
  rfl

/-- Labels are given out in order. -/
def Labelled (s : Content) : Prop :=
  ∀ label ∈ s.opened, label < s.nextLabel

variable {s s' : Content} {f : Fragments} {c : Char} {k : Nat} {n : UInt8} {text : List UInt8}

theorem Labelled.take (h : s.Labelled) {piece : Char × Nat} (htake : s.take piece = some s') :
    s'.Labelled ∧ s.nextLabel ≤ s'.nextLabel := by
  unfold Content.take at htake
  split at htake
  case h_8 =>
    cases htake
    refine ⟨List.forall_mem_cons.2 ⟨Nat.lt_succ_self _, fun label hlabel => ?_⟩, Nat.le_succ _⟩
    exact Nat.lt_succ_of_lt (h label hlabel)
  case h_9 =>
    split at htake
    · cases htake
    · next label opened hopened =>
      cases htake
      exact ⟨fun l hl => h l (hopened ▸ List.mem_cons_of_mem _ hl), Nat.le_refl _⟩
  all_goals cases htake; exact ⟨h, Nat.le_refl _⟩

theorem Labelled.takeAll (h : s.Labelled) {ps : List (Char × Nat)}
    (htake : s.takeAll ps = some s') : s.nextLabel ≤ s'.nextLabel := by
  induction ps generalizing s with
  | nil => cases htake; exact Nat.le_refl _
  | cons piece ps ih =>
    rw [takeAll_cons] at htake
    obtain ⟨s₁, hfirst, hrest⟩ := Option.bind_eq_some_iff.1 htake
    obtain ⟨hlabelled, hle⟩ := h.take hfirst
    exact Nat.le_trans hle (ih hlabelled hrest)

/-- A run of a repeatable instruction is assembled in one round. -/
theorem acts_run {kind : Repeatable} (hc : Repeatable.ofChar? c = some kind) (hpos : 0 < k)
    (hk : kind = .left ∨ kind = .right → k < 0x100) (htake : s.take (c, k) = some s') :
    (s.desk f (UInt8.ofNat k) c.toUInt8 text).Acts f (s'.desk f 0 c.toUInt8 text) := by
  rw [take_repeatable hc] at htake
  obtain rfl := Option.some.inj htake
  obtain rfl := Repeatable.eq_toChar hc
  rw [desk_push, Fragments.command, textBytes_run hpos hk]
  exact .run kind rfl

/-- Every other character is assembled in a round of its own. -/
theorem acts_single (hc : Repeatable.ofChar? c = none) (hbyte : c.toNat < 0x100)
    (hlabels : s.Labelled) (hnext : s'.nextLabel ≤ 0x10000) (htake : s.take (c, 1) = some s')
    (n : UInt8) : (s.desk f n c.toUInt8 text).Acts f (s'.desk f (n - 1) c.toUInt8 text) := by
  have hle := (hlabels.take htake).2
  cases hi : Instruction.ofChar? c with
  | none =>
    simp only [take, hi] at htake
    cases htake
    refine .comment fun i hsame => ?_
    have hchar : c = i.toChar := Char.toUInt8_inj hbyte (by cases i <;> decide) hsame
    rw [hchar, Instruction.ofChar?_toChar] at hi
    cases hi
  | some i =>
    simp only [take, hi] at htake
    obtain rfl := Instruction.eq_toChar hi
    cases i with
    | right | left | increment | decrement => simp [Repeatable.ofChar?, hi] at hc
    | read => cases htake; rw [desk_push]; exact .read rfl
    | write => cases htake; rw [desk_push]; exact .write rfl
    | loopBegin =>
      cases htake
      have hout : (s.push (.beginLoop s.nextLabel)).output f =
          s.output f ++ textBytes (f.loopBegin.render (s.nextLabel % 0x10000)) := by
        rw [Nat.mod_eq_of_lt (show s.nextLabel < 0x10000 from hnext), output_push]
        rfl
      show Desk.Acts f _ ⟨_, _, _, _, _, (s.push _).output f⟩
      rw [hout]
      exact .loopBegin rfl
    | loopEnd =>
      cases hopened : s.opened with
      | nil => rw [hopened] at htake; cases htake
      | cons label opened =>
        rw [hopened] at htake
        cases htake
        have hlabel : label < 0x10000 :=
          Nat.lt_of_lt_of_le (hlabels label (hopened ▸ List.mem_cons_self)) (Nat.le_trans hle hnext)
        have hout : (s.push (.endLoop label)).output f =
            s.output f ++ textBytes (f.loopEnd.render (label % 0x10000)) := by
          rw [Nat.mod_eq_of_lt hlabel, output_push]
          rfl
        show Desk.Acts f _ ⟨_, _, _, _, _, (s.push _).output f⟩
        rw [hout]
        refine .loopEnd label _ rfl ?_
        show s.stackBytes = _
        rw [stackBytes, hopened]
        rfl

end Content

/-! ## Rounds -/

/-- A run as the assembler counts it. The length of a run is kept in one byte, where zero stands for
256. -/
def countedRun (r : Char × Nat) : Char × Nat :=
  if (Repeatable.ofChar? r.1).isSome then r else (r.1, (r.2 - 1) % 0x100 + 1)

/-- A text that the assembler can work on: characters are bytes other than zero, and the length of a
run of moves is a byte. -/
structure Workable (rs : List (Char × Nat)) : Prop where
  separate : SeparateRuns rs
  bytes : ∀ r ∈ rs, 0 < r.1.toNat ∧ r.1.toNat < 0x100
  moves : ∀ r ∈ rs, r.1 = '<' ∨ r.1 = '>' → r.2 < 0x100

def byteRuns (rs : List (Char × Nat)) : List (UInt8 × Nat) :=
  rs.map fun r => (r.1.toUInt8, r.2)

namespace Workable

variable {r : Char × Nat} {rs : List (Char × Nat)}

theorem tail (h : Workable (r :: rs)) : Workable rs :=
  ⟨h.separate.tail, fun s hs => h.bytes s (List.mem_cons_of_mem _ hs),
    fun s hs => h.moves s (List.mem_cons_of_mem _ hs)⟩

theorem separate_bytes (h : Workable rs) : SeparateRuns (byteRuns rs) :=
  h.separate.map (fun _ => id) fun r hr s hs hne hsame =>
    hne (Char.toUInt8_inj (h.bytes r hr).2 (h.bytes s hs).2 hsame)

theorem bytes_ne_zero (h : Workable rs) : ∀ r ∈ byteRuns rs, r.1 ≠ 0 := by
  intro r hr
  obtain ⟨s, hs, rfl⟩ := List.mem_map.1 hr
  exact Char.toUInt8_ne_zero (h.bytes s hs)

/-- The first run may be of another length. -/
theorem replace (h : Workable (r :: rs)) {j : Nat} (hpos : 0 < j)
    (hj : r.1 = '<' ∨ r.1 = '>' → j < 0x100) : Workable ((r.1, j) :: rs) := by
  obtain ⟨-, hpositive⟩ := List.forall_mem_cons.1 h.separate.positive
  obtain ⟨hbyte, hbytes⟩ := List.forall_mem_cons.1 h.bytes
  obtain ⟨-, hmoves⟩ := List.forall_mem_cons.1 h.moves
  exact ⟨⟨List.forall_mem_cons.2 ⟨hpos, hpositive⟩,
    List.isChain_cons.2 (List.isChain_cons.1 h.separate.apart)⟩,
    List.forall_mem_cons.2 ⟨hbyte, hbytes⟩, List.forall_mem_cons.2 ⟨hj, hmoves⟩⟩

end Workable

/-- The store at the start of a round, with the number of pieces that are left. Either a run is on
the desk, or the text has been read to its end. -/
inductive AtWork (f : Fragments) (final : Content) : Nat → Store → Prop where
  | run {s : Content} {c : Char} {j : Nat} {rest : List (Char × Nat)} {found missing copy : UInt8} :
      Workable ((c, j) :: rest) → (Repeatable.ofChar? c = none → j ≤ 0x100) → s.Labelled →
      s.takeAll (pieces ((c, j) :: rest.map countedRun)) = some final →
      AtWork f final (pieces ((c, j) :: rest.map countedRun)).length
        ((s.desk f (UInt8.ofNat j) c.toUInt8 (runsText (byteRuns rest))).store c.toUInt8 found
          missing copy)
  | done {found missing copy : UInt8} :
      AtWork f final 0 ((final.desk f 1 0 []).store 0 found missing copy)

theorem countedRun_repeatable {r : Char × Nat} {kind : Repeatable}
    (hc : Repeatable.ofChar? r.1 = some kind) : countedRun r = r := by
  simp [countedRun, hc]

theorem countedRun_single {r : Char × Nat} (hc : Repeatable.ofChar? r.1 = none) :
    countedRun r = (r.1, (r.2 - 1) % 0x100 + 1) := by
  simp [countedRun, hc]

namespace AtWork

variable {f : Fragments} {final s : Content} {rest : List (Char × Nat)}
    {found missing copy n c : UInt8}
  {text : List UInt8}

/-- The next run comes to the desk. -/
theorem read (h : Workable rest) (hlabelled : s.Labelled)
    (htake : s.takeAll (pieces (rest.map countedRun)) = some final) :
    AtWork f final (pieces (rest.map countedRun)).length
      (((s.desk f n c text).read (byteRuns rest)).store ((s.desk f n c text).read (byteRuns rest)).c
        found missing copy) := by
  cases rest with
  | nil => cases htake; exact .done
  | cons r rest =>
    have hpos := h.separate.positive r List.mem_cons_self
    rw [List.map_cons] at htake ⊢
    cases hc : Repeatable.ofChar? r.1 with
    | some kind =>
      rw [countedRun_repeatable hc] at htake ⊢
      exact .run h (fun hnone => by rw [hc] at hnone; cases hnone) hlabelled htake
    | none =>
      rw [countedRun_single hc] at htake ⊢
      have hbyte : UInt8.ofNat r.2 = UInt8.ofNat ((r.2 - 1) % 0x100 + 1) := by
        rw [← UInt8.toNat_inj, UInt8.toNat_ofNat', UInt8.toNat_ofNat']
        omega
      have hmoves : r.1 = '<' ∨ r.1 = '>' → (r.2 - 1) % 0x100 + 1 < 0x100 := by
        rintro (hmove | hmove) <;> (rw [hmove] at hc; cases hc)
      show AtWork f final _
        ((s.desk f (UInt8.ofNat r.2) r.1.toUInt8 (runsText (byteRuns rest))).store _ _ _ _)
      rw [hbyte]
      exact .run (h.replace (Nat.succ_pos _) hmoves) (fun _ => by omega) hlabelled htake

/-- A round brings the assembler one piece further. -/
theorem step {p : MacroProgram} (hlib : HasLibrary p) (hfinal : final.nextLabel ≤ 0x10000) {m : Nat}
    {st : Store} (h : AtWork f final m st) (hgoes : st.get 5 ≠ 0) :
    Ends p mainScope (Assembler.stepBlock f) st fun st' => ∃ m' < m, AtWork f final m' st' := by
  cases h with
  | done => exact absurd rfl hgoes
  | @run s c j rest found missing copy hwork hcount hlabelled htake =>
    have hpos : 0 < j := hwork.separate.positive _ List.mem_cons_self
    have hbyte : 0 < c.toNat ∧ c.toNat < 0x100 := hwork.bytes _ List.mem_cons_self
    have hreads : ∀ {s' : Content} {found missing copy : UInt8} {k : Nat}, s'.Labelled →
        s'.takeAll (pieces (rest.map countedRun)) = some final →
          (pieces (rest.map countedRun)).length < k →
        Ends p mainScope Assembler.nextBlock
          ((s'.desk f 0 c.toUInt8 (runsText (byteRuns rest))).store c.toUInt8 found missing copy)
          fun st' => ∃ m' < k, AtWork f final m' st' := by
      intro s' found missing copy k hlabelled' htake' hlt
      refine (ends_nextBlock_read hlib rfl hwork.tail.separate_bytes hwork.tail.bytes_ne_zero
        rfl).mono ?_
      rintro _ rfl
      exact ⟨_, hlt, .read hwork.tail hlabelled' htake'⟩
    cases hc : Repeatable.ofChar? c with
    | some kind =>
      rw [pieces_cons, pieces_repeatable hc, List.singleton_append] at htake ⊢
      rw [Content.takeAll_cons] at htake
      obtain ⟨s', hfirst, hrest⟩ := Option.bind_eq_some_iff.1 htake
      have hmoves : kind = .left ∨ kind = .right → j < 0x100 := by
        intro hkind
        refine hwork.moves _ List.mem_cons_self ?_
        rw [Repeatable.eq_toChar hc]
        rcases hkind with rfl | rfl
        · exact Or.inl rfl
        · exact Or.inr rfl
      refine (Content.acts_run hc hpos hmoves hfirst).ends hlib fun found missing => ?_
      exact hreads (hlabelled.take hfirst).1 hrest (Nat.lt_succ_self _)
    | none =>
      obtain ⟨j, rfl⟩ := Nat.exists_eq_add_one_of_ne_zero (Nat.ne_of_gt hpos)
      have hsplit : pieces ((c, j + 1) :: rest.map countedRun) = (c, 1) ::
          pieces ((c, j) :: rest.map countedRun) := by
        rw [pieces_cons, pieces_single hc, pieces_cons (c, j), pieces_single hc]
        rfl
      rw [hsplit] at htake ⊢
      rw [Content.takeAll_cons] at htake
      obtain ⟨s', hfirst, hrest⟩ := Option.bind_eq_some_iff.1 htake
      obtain ⟨hlabelled', -⟩ := hlabelled.take hfirst
      have hnext := Nat.le_trans (hlabelled'.takeAll hrest) hfinal
      have hless : UInt8.ofNat (j + 1) - 1 = UInt8.ofNat j := by
        rw [UInt8.ofNat_add]
        grind
      have hacts : (s.desk f (UInt8.ofNat (j + 1)) c.toUInt8 (runsText (byteRuns rest))).Acts f
          (s'.desk f (UInt8.ofNat j) c.toUInt8 (runsText (byteRuns rest))) :=
        hless ▸ Content.acts_single hc hbyte.2 hlabelled hnext hfirst _
      refine hacts.ends hlib fun found missing => ?_
      rcases Nat.eq_zero_or_pos j with rfl | hj
      · rw [pieces_cons, pieces_single hc, List.replicate_zero, List.nil_append] at hrest ⊢
        exact hreads hlabelled' hrest (Nat.lt_succ_self _)
      · -- the run is not used up, and what comes after it differs
        have hlt : j < 0x100 := hcount hc
        have hstays : UInt8.ofNat j ≠ 0 := by
          intro hzero
          have := congrArg UInt8.toNat hzero
          rw [UInt8.toNat_ofNat_of_lt' hlt] at this
          exact Nat.ne_of_gt hj this
        have hother : (runsText (byteRuns rest)).headD 0 ≠ c.toUInt8 :=
          headD_ne hwork.separate_bytes (Char.toUInt8_ne_zero hbyte)
        refine (ends_nextBlock_stay hlib hstays hother).mono ?_
        rintro _ rfl
        refine ⟨_, Nat.lt_succ_self _,
          .run (hwork.replace hj ?_) (fun _ => Nat.le_of_lt hlt) hlabelled' hrest⟩
        rintro (hmove | hmove) <;> (rw [show c = _ from hmove] at hc; cases hc)

end AtWork

/-- **The assembler writes the assembly of what it counts.** -/
theorem ends_main {p : MacroProgram} (hlib : HasLibrary p) {f : Fragments} {rs : List (Char × Nat)}
    (hwork : Workable rs) {final : Content}
    (htake : Content.start.takeAll (pieces (rs.map countedRun)) = some final)
    (hfinal : final.nextLabel ≤ 0x10000) :
    Ends p [] (Assembler.main f).body ⟨[], some [], runsText (byteRuns rs), []⟩
      (fun st => st.input = [] ∧ st.output = final.output f ++ textBytes f.programEnd) := by
  refine .declare 0 rfl fun _ => .declare 1 rfl fun _ => ?_
  refine .called ⟨[0, 0], some [], runsText (byteRuns rs), []⟩
    (hlib Library.counterInit (by simp [Library.macros])) rfl
    (show [0, 1].Nodup by decide) (ends_counterInit _ _) rfl ?_
  refine .declare 2 rfl fun _ => .declare 3 rfl fun _ => .declare 4 rfl fun _ => ?_
  let first : Desk := (Content.start.desk f 0 0 []).read (byteRuns rs)
  refine .called ⟨[0, 0, first.n, first.c, first.text.headD 0], some [], first.text.tail, []⟩
    (hlib Library.inputInit (by simp [Library.macros])) rfl (show [2, 3, 4].Nodup by decide)
    (ends_inputInit hlib hwork.separate_bytes hwork.bytes_ne_zero) ?_ ?_
  · cases rs <;> rfl
  refine .declare 5 rfl fun _ => ?_
  refine .called
    ⟨[0, 0, first.n, first.c, first.text.headD 0, first.c], some [], first.text.tail, []⟩
    (hlib Library.inputHasNext (by simp [Library.macros])) rfl (show [2, 3, 4, 5].Nodup by decide)
    (.straight 1 ⟨[first.n, first.c, first.text.headD 0, first.c], none, first.text.tail, []⟩
      rfl (.done rfl)) rfl ?_
  refine ends_put f.programStart ?_
  refine .declare 6 rfl fun found => .declare 7 rfl fun missing => .declare 8 rfl fun copy => ?_
  refine .loop (fun m st => AtWork f final m st) rfl (n := (pieces (rs.map countedRun)).length)
    ?_ ?_ ?_
  · have hstart : AtWork f final _ (first.store first.c found missing copy) :=
      .read hwork (List.forall_mem_nil _) htake
    have hlabel : first.label = 0 := by cases rs <;> rfl
    have hstack : first.stack = [] := by cases rs <;> rfl
    have houtput : first.output = textBytes f.programStart := by
      have : first.output = Content.start.output f := by cases rs <;> rfl
      rw [this, Content.output]
      exact congrArg textBytes (String.append_empty)
    rw [Desk.store, hlabel, hstack, houtput] at hstart
    exact hstart
  · exact fun m st hst hgoes => hst.step hlib hfinal hgoes
  · rintro m st hst hzero
    cases hst with
    | run hwork => exact absurd hzero (Char.toUInt8_ne_zero (hwork.bytes _ List.mem_cons_self))
    | done => exact ends_put f.programEnd (.done ⟨rfl, rfl⟩)

end TapeToolchain
