import TapeToolchain.Proofs.Source.Reading
import TapeToolchain.Proofs.Text.Runs

/-!
A program read in pieces. The places of commands matter for one thing only: whether repeatable
instructions touch each other. So the commands can be told from the runs of the text without places
(`Source.takeAll_pieces`): a run of a repeatable instruction is one piece, and every other character
is a piece by itself.
-/

namespace TapeToolchain

/-- The repeatable instruction that a character writes. -/
def Repeatable.ofChar? (c : Char) : Option Repeatable :=
  match Instruction.ofChar? c with
  | some .right => some .right
  | some .left => some .left
  | some .increment => some .increment
  | some .decrement => some .decrement
  | _ => none

theorem Repeatable.eq_toChar {c : Char} {kind : Repeatable} (h : ofChar? c = some kind) :
    c = kind.instruction.toChar := by
  unfold ofChar? at h
  split at h
  · next hc => cases h; exact Instruction.eq_toChar hc
  · next hc => cases h; exact Instruction.eq_toChar hc
  · next hc => cases h; exact Instruction.eq_toChar hc
  · next hc => cases h; exact Instruction.eq_toChar hc
  · cases h

/-- The pieces of a text that is given by its runs. -/
def pieces (rs : List (Char × Nat)) : List (Char × Nat) :=
  rs.flatMap fun r => if (Repeatable.ofChar? r.1).isSome then [r] else List.replicate r.2 (r.1, 1)

theorem pieces_cons (r : Char × Nat) (rs : List (Char × Nat)) :
    pieces (r :: rs) = pieces [r] ++ pieces rs := by
  simp [pieces]

theorem pieces_repeatable {c : Char} {kind : Repeatable} (hc : Repeatable.ofChar? c = some kind)
    (k : Nat) : pieces [(c, k)] = [(c, k)] := by
  simp [pieces, hc]

theorem pieces_single {c : Char} (hc : Repeatable.ofChar? c = none) (k : Nat) :
    pieces [(c, k)] = List.replicate k (c, 1) := by
  simp [pieces, hc]

/-- What has been read, without places: the commands in order, the labels of the open loops, the
innermost first, and the label of the next loop. -/
structure Content where
  commands : List Command
  opened : List Nat
  nextLabel : Nat

namespace Content

def start : Content :=
  ⟨[], [], 0⟩

def push (s : Content) (command : Command) : Content :=
  { s with commands := s.commands ++ [command] }

/-- Reads a piece, unless it closes a loop that is not open. -/
def take (s : Content) (piece : Char × Nat) : Option Content :=
  match Instruction.ofChar? piece.1 with
  | none => some s
  | some .right => some (s.push (.run .right piece.2))
  | some .left => some (s.push (.run .left piece.2))
  | some .increment => some (s.push (.run .increment piece.2))
  | some .decrement => some (s.push (.run .decrement piece.2))
  | some .read => some (s.push .read)
  | some .write => some (s.push .write)
  | some .loopBegin =>
    some { s.push (.beginLoop s.nextLabel) with opened := s.nextLabel :: s.opened, nextLabel :=
      s.nextLabel + 1 }
  | some .loopEnd =>
    match s.opened with
    | [] => none
    | label :: opened => some { s.push (.endLoop label) with opened }

def takeAll (s : Content) (ps : List (Char × Nat)) : Option Content :=
  ps.foldlM take s

theorem takeAll_append (s : Content) (ps qs : List (Char × Nat)) :
    s.takeAll (ps ++ qs) = (s.takeAll ps).bind fun s => s.takeAll qs :=
  List.foldlM_append

theorem takeAll_cons (s : Content) (piece : Char × Nat) (ps : List (Char × Nat)) :
    s.takeAll (piece :: ps) = (s.take piece).bind fun s => s.takeAll ps := rfl

theorem take_repeatable {c : Char} {kind : Repeatable} (hc : Repeatable.ofChar? c = some kind)
    (s : Content) (k : Nat) : s.take (c, k) = some (s.push (.run kind k)) := by
  rw [Repeatable.eq_toChar hc]
  cases kind <;> rfl

theorem take_comment {c : Char} (hc : Instruction.ofChar? c = none) (s : Content) (k : Nat) :
    s.take (c, k) = some s := by
  rw [take, hc]

end Content

/-! ## Tokens with their places -/

/-- The tokens of a text that starts at a place. -/
def tokensFrom (pos : Position) : List Char → List Token
  | [] => []
  | c :: rest =>
    ((Instruction.ofChar? c).map (⟨·, .single pos⟩)).toList ++ tokensFrom (pos.after c) rest

theorem offset_after (pos : Position) (c : Char) : (pos.after c).offset = pos.offset + 1 := by
  rw [Position.after]
  split <;> rfl

def Position.afterAll (pos : Position) (text : List Char) : Position :=
  text.foldl after pos

theorem tokensFrom_append (pos : Position) (a b : List Char) :
    tokensFrom pos (a ++ b) = tokensFrom pos a ++ tokensFrom (pos.afterAll a) b := by
  induction a generalizing pos with
  | nil => rfl
  | cons c a ih => simp [tokensFrom, ih, Position.afterAll]

theorem Source.tokens_scan (text : List Char) (s : Scan) :
    (text.foldl Scan.push s).seen.reverse.filterMap
      (fun (c, span) => (Instruction.ofChar? c).map (Token.mk · span)) =
      s.seen.reverse.filterMap (fun (c, span) => (Instruction.ofChar? c).map (Token.mk · span)) ++
        tokensFrom s.position text := by
  induction text generalizing s with
  | nil => simp [tokensFrom]
  | cons c text ih =>
    rw [List.foldl_cons, ih, Scan.push, tokensFrom, List.reverse_cons, List.filterMap_append,
      List.append_assoc]
    congr 2

theorem Source.tokens_eq (s : Source) : s.tokens = tokensFrom .start s.text.toList :=
  tokens_scan s.text.toList ⟨.start, []⟩

/-! ## Reading a run -/

namespace Reading

/-- What the reading holds, its places being forgotten. -/
def content (r : Reading) : Content :=
  ⟨r.commands.reverse.map (·.command), r.opened.map (·.1), r.nextLabel⟩

theorem content_push (r : Reading) (command : Command) (span : Span) :
    (r.push command span).content = r.content.push command := by
  simp [content, push, Content.push]

/-- Before the place there is no run that the character could be taken into. -/
def Before (r : Reading) (pos : Position) (c : Char) : Prop :=
  ∀ kind count span earlier, r.commands = ⟨.run kind count, span⟩ :: earlier →
    span.stop.offset ≤ pos.offset ∧ (span.stop.offset = pos.offset → kind.instruction.toChar ≠ c)

theorem step_repeatable (r : Reading) (kind : Repeatable) (span : Span) :
    r.step ⟨kind.instruction, span⟩ = r.pushRepeatable kind span := by
  cases kind <;> rfl

theorem tokensFrom_repeatable (pos : Position) (kind : Repeatable) (rest : List Char) :
    tokensFrom pos (kind.instruction.toChar :: rest) =
      ⟨kind.instruction, .single pos⟩ :: tokensFrom (pos.after kind.instruction.toChar) rest := by
  rw [tokensFrom, Instruction.ofChar?_toChar]
  rfl

/-- A run grows by the instructions that touch it. -/
theorem read_more {kind : Repeatable} (k : Nat) {j : Nat} {span : Span}
    {earlier : List PlacedCommand} {r : Reading} {pos : Position}
    (hr : r.commands = ⟨.run kind j, span⟩ :: earlier) (hpos : span.stop.offset = pos.offset) :
    ∃ span', span'.stop.offset = pos.offset + k ∧
      (tokensFrom pos (List.replicate k kind.instruction.toChar)).foldl step r =
        { r with commands := ⟨.run kind (j + k), span'⟩ :: earlier } := by
  induction k generalizing j span r pos with
  | zero =>
    exact ⟨span, hpos, by rw [List.replicate_zero, tokensFrom, List.foldl_nil, Nat.add_zero, ← hr]⟩
  | succ k ih =>
    rw [List.replicate_succ, tokensFrom_repeatable, List.foldl_cons, step_repeatable]
    have hpush : r.pushRepeatable kind (.single pos) =
        { r with commands := ⟨.run kind (j + 1), span.join (.single pos)⟩ :: earlier } := by
      rw [pushRepeatable, hr]
      exact if_pos ⟨rfl, hpos⟩
    have htouch : (span.join (.single pos)).stop.offset =
        (pos.after kind.instruction.toChar).offset :=
      (offset_after _ _).symm
    obtain ⟨span', hstop, hfold⟩ := ih
      (r := { r with commands := ⟨.run kind (j + 1), span.join (.single pos)⟩ :: earlier }) rfl
      htouch
    refine ⟨span', ?_, ?_⟩
    · rw [hstop, offset_after]
      omega
    · rw [hpush, hfold, Nat.add_assoc, Nat.add_comm 1 k]

/-- A run that touches no other one of its kind is one command. -/
theorem read_run {kind : Repeatable} {k : Nat} (hk : 0 < k) {r : Reading} {pos : Position}
    (hbefore : r.Before pos kind.instruction.toChar) :
    ∃ span, span.stop.offset = pos.offset + k ∧
      (tokensFrom pos (List.replicate k kind.instruction.toChar)).foldl step r =
        r.push (.run kind k) span := by
  obtain ⟨k, rfl⟩ := Nat.exists_eq_add_one_of_ne_zero (Nat.ne_of_gt hk)
  have hpush : r.pushRepeatable kind (.single pos) = r.push (.run kind 1) (.single pos) := by
    rw [pushRepeatable]
    split
    · next last count before earlier hr =>
      refine if_neg fun ⟨hkind, htouch⟩ => ?_
      exact (hbefore _ _ _ _ hr).2 htouch (by rw [hkind])
    · rfl
  rw [List.replicate_succ, tokensFrom_repeatable, List.foldl_cons, step_repeatable, hpush]
  have htouch : (Span.single pos).stop.offset = (pos.after kind.instruction.toChar).offset :=
    (offset_after _ _).symm
  obtain ⟨span, hstop, hfold⟩ := read_more k (r := r.push (.run kind 1) (.single pos)) rfl htouch
  refine ⟨span, ?_, ?_⟩
  · rw [hstop, offset_after]
    omega
  · rw [hfold, Nat.add_comm 1 k]
    rfl

/-- A closing bracket without a partner is not forgotten. -/
theorem unmatched_of_step {r : Reading} {token : Token} (h : (r.step token).unmatched = []) :
    r.unmatched = [] := by
  obtain ⟨i, span⟩ := token
  cases i with
  | right | left | increment | decrement => rwa [step, (r.pushRepeatable_brackets _ _).2.1] at h
  | read | write | loopBegin => exact h
  | loopEnd =>
    cases hopened : r.opened with
    | nil => simp only [step, hopened] at h; cases h
    | cons first opened => simp only [step, hopened] at h; exact h

theorem unmatched_of_foldl {tokens : List Token} {r : Reading}
    (h : (tokens.foldl step r).unmatched = []) : r.unmatched = [] := by
  induction tokens generalizing r with
  | nil => exact h
  | cons token rest ih => exact unmatched_of_step (ih h)

/-- A character that is a piece by itself. The last command is then no run, unless nothing has been
read. -/
theorem read_single {c : Char} (hc : Repeatable.ofChar? c = none) {r : Reading} {pos : Position}
    (hmatched : ((tokensFrom pos [c]).foldl step r).unmatched = []) :
    r.content.take (c, 1) = some ((tokensFrom pos [c]).foldl step r).content ∧
      (((tokensFrom pos [c]).foldl step r).commands = r.commands ∨
        ∃ command span, (∀ kind count, command ≠ .run kind count) ∧
          ((tokensFrom pos [c]).foldl step r).commands = ⟨command, span⟩ :: r.commands) := by
  simp only [tokensFrom, List.append_nil] at hmatched ⊢
  cases hi : Instruction.ofChar? c with
  | none => exact ⟨by simp only [Content.take, hi]; rfl, Or.inl rfl⟩
  | some i =>
    rw [hi] at hmatched
    cases i with
    | right | left | increment | decrement => simp [Repeatable.ofChar?, hi] at hc
    | read =>
      exact ⟨by simp [Content.take, hi, content, step, push, Content.push],
        Or.inr ⟨.read, .single pos, by simp, rfl⟩⟩
    | write =>
      exact ⟨by simp [Content.take, hi, content, step, push, Content.push],
        Or.inr ⟨.write, .single pos, by simp, rfl⟩⟩
    | loopBegin =>
      exact ⟨by simp [Content.take, hi, content, step, push, Content.push],
        Or.inr ⟨.beginLoop r.nextLabel, .single pos, by simp, rfl⟩⟩
    | loopEnd =>
      simp only [Option.map_some, Option.toList_some, List.foldl_cons, List.foldl_nil,
        step] at hmatched ⊢
      cases hopened : r.opened with
      | nil => rw [hopened] at hmatched; cases hmatched
      | cons first opened =>
        exact ⟨by simp [Content.take, hi, content, push, Content.push, hopened],
          Or.inr ⟨.endLoop first.1, .single pos, by simp, rfl⟩⟩

theorem before_single {c : Char} (hc : Repeatable.ofChar? c = none) {r : Reading} {pos : Position}
    (hmatched : ((tokensFrom pos [c]).foldl step r).unmatched = []) (hbefore : r.Before pos c)
    (d : Char) : ((tokensFrom pos [c]).foldl step r).Before (pos.after c) d := by
  intro kind count span earlier hr
  rw [offset_after]
  rcases (read_single hc hmatched).2 with hsame | ⟨command, _, hne, hlast⟩
  · have hle := (hbefore kind count span earlier (hsame ▸ hr)).1
    exact ⟨by omega, fun h => by omega⟩
  · obtain ⟨hhead, -⟩ := List.cons.inj (hlast.symm.trans hr)
    exact absurd (congrArg PlacedCommand.command hhead) (hne kind count)

theorem read_singles {c : Char} (hc : Repeatable.ofChar? c = none) (k : Nat) {r : Reading}
    {pos : Position}
    (hmatched : ((tokensFrom pos (List.replicate k c)).foldl step r).unmatched = []) :
    r.content.takeAll (List.replicate k (c, 1)) =
        some ((tokensFrom pos (List.replicate k c)).foldl step r).content ∧
      (r.Before pos c → 0 < k → ∀ d, ((tokensFrom pos (List.replicate k c)).foldl step r).Before
        (pos.afterAll (List.replicate k c)) d) := by
  induction k generalizing r pos with
  | zero => exact ⟨rfl, fun _ h => absurd h (Nat.lt_irrefl 0)⟩
  | succ k ih =>
    have hsplit : tokensFrom pos (List.replicate (k + 1) c) =
        tokensFrom pos [c] ++ tokensFrom (pos.after c) (List.replicate k c) :=
      tokensFrom_append pos [c] _
    rw [hsplit, List.foldl_append] at hmatched ⊢
    have hfirst := unmatched_of_foldl hmatched
    obtain ⟨htake, hthen⟩ := ih hmatched
    refine ⟨?_, fun hbefore _ d => ?_⟩
    · rw [List.replicate_succ, Content.takeAll_cons, (read_single hc hfirst).1, Option.bind_some,
        htake]
    · rcases Nat.eq_zero_or_pos k with rfl | hk
      · exact before_single hc hfirst hbefore d
      · exact hthen (before_single hc hfirst hbefore c) hk d

theorem offset_afterAll (pos : Position) (text : List Char) :
    (pos.afterAll text).offset = pos.offset + text.length := by
  induction text generalizing pos with
  | nil => rfl
  | cons c text ih =>
    rw [Position.afterAll, List.foldl_cons, ← Position.afterAll, ih, offset_after, List.length_cons]
    omega

/-- A run of the text is read. -/
theorem read_pieces {c : Char} {k : Nat} (hk : 0 < k) {r : Reading} {pos : Position}
    (hbefore : r.Before pos c)
    (hmatched : ((tokensFrom pos (List.replicate k c)).foldl step r).unmatched = []) :
    r.content.takeAll (pieces [(c, k)]) =
      some ((tokensFrom pos (List.replicate k c)).foldl step r).content ∧
      ∀ d, d ≠ c → ((tokensFrom pos (List.replicate k c)).foldl step r).Before
        (pos.afterAll (List.replicate k c)) d := by
  cases hc : Repeatable.ofChar? c with
  | none =>
    obtain ⟨htake, hthen⟩ := read_singles hc k hmatched
    exact ⟨pieces_single hc k ▸ htake, fun d _ => hthen hbefore hk d⟩
  | some kind =>
    have htake := Content.take_repeatable hc r.content k
    have hpieces := pieces_repeatable hc k
    obtain rfl := Repeatable.eq_toChar hc
    obtain ⟨span, hstop, hfold⟩ := read_run hk hbefore
    rw [hfold]
    refine ⟨?_, fun d hd kind' count span' earlier hr => ?_⟩
    · rw [hpieces, Content.takeAll_cons, htake, r.content_push]
      rfl
    · obtain ⟨hhead, -⟩ := List.cons.inj hr
      cases hhead
      rw [offset_afterAll, List.length_replicate]
      exact ⟨by omega, fun _ => Ne.symm hd⟩

/-- The runs of a text are read one after the other. -/
theorem read_all {rs : List (Char × Nat)} (hrs : SeparateRuns rs) {r : Reading} {pos : Position}
    (hbefore : ∀ s ∈ rs.head?, r.Before pos s.1)
    (hmatched : ((tokensFrom pos (runsText rs)).foldl step r).unmatched = []) :
    r.content.takeAll (pieces rs) = some ((tokensFrom pos (runsText rs)).foldl step r).content := by
  induction rs generalizing r pos with
  | nil => rfl
  | cons s rs ih =>
    rw [runsText_cons, tokensFrom_append, List.foldl_append] at hmatched ⊢
    obtain ⟨htake, hthen⟩ := read_pieces (hrs.positive s List.mem_cons_self) (hbefore s rfl)
      (unmatched_of_foldl hmatched)
    rw [pieces_cons, Content.takeAll_append, htake, Option.bind_some]
    refine ih hrs.tail (fun t ht => hthen t.1 ?_) hmatched
    obtain ⟨rest, rfl⟩ : ∃ rest, rs = t :: rest := ⟨rs.tail, (List.cons_head?_tail ht).symm⟩
    exact Ne.symm (List.isChain_cons_cons.1 hrs.apart).1

end Reading

/-- **A program is read in pieces.** -/
theorem Source.takeAll_pieces {s : Source} {p : Program} (h : s.program = .ok p)
    {rs : List (Char × Nat)} (hrs : SeparateRuns rs) (htext : s.text.toList = runsText rs) :
    Content.start.takeAll (pieces rs) = some ⟨p.commands.map (·.command), [], p.loops⟩ := by
  rw [program, Program.ofTokens, s.tokens_eq, htext] at h
  obtain ⟨hmatched, hopened, rfl⟩ := Reading.finish_eq_ok.1 h
  have hread := @Reading.read_all rs hrs .start .start (fun _ _ _ _ _ _ hr => by cases hr) hmatched
  rw [show Reading.start.content = Content.start from rfl] at hread
  rw [hread, Reading.content, hopened]
  rfl

end TapeToolchain
