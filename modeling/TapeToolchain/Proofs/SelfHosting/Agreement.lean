import TapeToolchain.Proofs.Assembly.Ascii
import TapeToolchain.Proofs.Compilation.Success
import TapeToolchain.Proofs.SelfHosting.Loop

/-!
The assembler as a program on the tape. It compiles for every target (`compiles`), and what its code
writes is the assembly of the text, but for runs of single instructions that are too long to be
counted in a byte (`compiled_assembler_writes_assembly`).
-/

namespace TapeToolchain

/-! ## Texts -/

/-- The texts among the operands of a block. -/
def Block.texts (block : Block) : List String :=
  block.operands.filterMap fun
    | .text t => some t
    | _ => none

theorem Block.printable_of_texts {block : Block} (h : ∀ t ∈ block.texts, IsAscii t) :
    ∀ a ∈ block.operands, a.Printable := by
  intro a ha
  cases a with
  | text t =>
    have ht : t ∈ block.texts := List.mem_filterMap.2 ⟨.text t, ha, rfl⟩
    exact fun c hc => Nat.le_of_lt (Nat.lt_trans (h t ht c hc) (by decide))
  | name _ | int _ | address _ => trivial

namespace SelfHosting

/-! ## The assembler compiles -/

variable {f : Fragments}

theorem mem_program {m : Macro} : m ∈ (program f).macros ↔ m ∈ macros f :=
  MacroProgram.mem_foldl_add

theorem find?_program_of_mem {m : Macro} (h : m ∈ macros f) :
    (program f).find? m.name = some m := by
  rw [find?_program]
  have hfound : ((macros f).find? fun e => e.name == m.name).isSome :=
    List.find?_isSome.2 ⟨m, h, by simp⟩
  obtain ⟨e, he⟩ := Option.isSome_iff_exists.1 hfound
  have hname : e.name = m.name := by simpa using List.find?_some he
  rw [he, List.inj_on_of_nodup_map (names_nodup f) (List.mem_of_find?_eq_some he) h hname]

theorem hasLibrary_program (f : Fragments) : HasLibrary (program f) :=
  fun _ hm => find?_program_of_mem (List.mem_append_left _ hm)

theorem main_mem (f : Fragments) : Assembler.main f ∈ macros f :=
  List.mem_append_right _ (List.mem_singleton.2 rfl)

theorem texts_library : ∀ m ∈ Library.macros, m.body.texts = [] := by
  decide

theorem texts_main (f : Fragments) : (Assembler.main f).body.texts =
    [f.programStart, f.incrementBy.before, f.incrementBy.after, f.decrementBy.before,
      f.decrementBy.after, f.leftBy.before, f.leftBy.after, f.rightBy.before, f.rightBy.after,
      f.loopBegin.first, f.loopBegin.second, f.loopBegin.third, f.loopEnd.first, f.loopEnd.second,
      f.loopEnd.third, f.readChar, f.writeChar, f.programEnd] := rfl

theorem printable_program (hf : f.AllAscii) :
    ∀ m ∈ (program f).macros, ∀ a ∈ m.body.operands, a.Printable := by
  intro m hm
  refine Block.printable_of_texts ?_
  rcases List.mem_append.1 (mem_program.1 hm) with hm | hm
  · rw [texts_library m hm]
    exact nofun
  · rw [List.mem_singleton.1 hm, texts_main]
    have hplus := hf.immediate .increment
    have hminus := hf.immediate .decrement
    have hleft := hf.immediate .left
    have hright := hf.immediate .right
    simp only [List.forall_mem_cons]
    exact ⟨hf.programStart, hplus.before, hplus.after, hminus.before, hminus.after, hleft.before,
      hleft.after, hright.before, hright.after, hf.loopBegin.first, hf.loopBegin.second,
      hf.loopBegin.third, hf.loopEnd.first,
      hf.loopEnd.second, hf.loopEnd.third, hf.readChar, hf.writeChar, hf.programEnd, by simp⟩

theorem structured_program (target : Target) :
    ∀ m ∈ (program target.fragments).macros, (program target.fragments).Structured m.body := by
  cases target <;> decide +kernel

theorem nestsBelow_program (target : Target) : (program target.fragments).NestsBelow 256 := by
  cases target <;> decide +kernel

theorem fit_program (target : Target) : (program target.fragments).fit 30000 6 [] ⟨0, 0, 0, true⟩
    (Assembler.main target.fragments).body = some 0 := by
  cases target <;> decide +kernel

theorem compiles (target : Target) :
    ∃ l, compile {} (program target.fragments).table "main" = .ok l :=
  compile_of_fit (structured_program target) (find?_program_of_mem (main_mem _))
    (printable_program target.allAscii_fragments) (nestsBelow_program target) (by decide)
    (by decide) (fit_program target)

/-! ## What the assembler counts -/

/-- A run of an instruction that is assembled each by itself is counted in a byte: a run of more
than 256 is taken for its rest. -/
def shortRun (r : Char × Nat) : Char × Nat :=
  if r.1 ∈ ['.', ',', '[', ']'] then (r.1, (r.2 - 1) % 0x100 + 1) else r

/-- The text as the assembler takes it. -/
def shortened (text : String) : String :=
  String.ofList (runsText ((runs text.toList).map shortRun))

theorem fst_shortRun (r : Char × Nat) : (shortRun r).1 = r.1 := by
  rw [shortRun]
  split <;> rfl

theorem separate_shortRun {rs : List (Char × Nat)} (h : SeparateRuns rs) :
    SeparateRuns (rs.map shortRun) := by
  refine h.map (fun r hr => ?_) fun r _ s _ hne => by rwa [fst_shortRun, fst_shortRun]
  rw [shortRun]
  split
  · exact Nat.succ_pos _
  · exact hr

theorem shortened_of_short {text : String}
    (h : ∀ r ∈ runs text.toList, r.1 ∈ ['.', ',', '[', ']'] → r.2 ≤ 0x100) :
    shortened text = text := by
  have hsame : (runs text.toList).map shortRun = runs text.toList := by
    refine (List.map_congr_left fun r hr => ?_).trans (List.map_id _)
    rw [shortRun]
    split
    · next hmem =>
      have hle := h r hr hmem
      have hpos := (separateRuns_runs text.toList).positive r hr
      refine Prod.ext rfl ?_
      show (r.2 - 1) % 0x100 + 1 = r.2
      omega
    · rfl
  rw [shortened, hsame, runsText_runs, String.ofList_toList]

/-- Comments are not assembled, however many there are. -/
theorem takeAll_comments {c : Char} (hc : Instruction.ofChar? c = none) (s : Content) (k : Nat) :
    s.takeAll (List.replicate k (c, 1)) = some s := by
  induction k with
  | zero => rfl
  | succ k ih =>
    rw [List.replicate_succ, Content.takeAll_cons, Content.take_comment hc, Option.bind_some, ih]

theorem takeAll_counted (s : Content) (rs : List (Char × Nat)) :
    s.takeAll (pieces (rs.map countedRun)) = s.takeAll (pieces (rs.map shortRun)) := by
  induction rs generalizing s with
  | nil => rfl
  | cons r rs ih =>
    have hfirst : s.takeAll (pieces [countedRun r]) = s.takeAll (pieces [shortRun r]) := by
      cases hc : Repeatable.ofChar? r.1 with
      | some kind =>
        have hshort : shortRun r = r := by
          rw [shortRun, if_neg]
          rw [Repeatable.eq_toChar hc]
          cases kind <;> decide
        rw [countedRun_repeatable hc, hshort]
      | none =>
        rw [countedRun_single hc]
        by_cases hmem : r.1 ∈ ['.', ',', '[', ']']
        · rw [shortRun, if_pos hmem]
        · have hcomment : Instruction.ofChar? r.1 = none := by
            cases hi : Instruction.ofChar? r.1 with
            | none => rfl
            | some i =>
              rw [Instruction.eq_toChar hi] at hc hmem
              cases i with
              | right | left | increment | decrement => cases hc
              | read | write | loopBegin | loopEnd => exact absurd (by decide) hmem
          rw [shortRun, if_neg hmem, pieces_single hc, ← Prod.mk.eta (p := r), pieces_single hc,
            takeAll_comments hcomment, takeAll_comments hcomment]
    rw [List.map_cons, List.map_cons, pieces_cons, pieces_cons (shortRun r), Content.takeAll_append,
      Content.takeAll_append, hfirst]
    exact congrArg _ (funext ih)

theorem textBytes_assembly {prog : Program} {s : Content}
    (h : s.commands = prog.commands.map (·.command)) (target : Target) :
    textBytes (prog.assembly target .immediates) =
      s.output target.fragments ++ textBytes target.fragments.programEnd := by
  rw [Content.output, h, List.map_map, ← textBytes_append]
  rfl

/-- The code of the assembler writes the assembly of the text as it takes it. -/
theorem compiled_halts {target : Target} {l : Listing}
    (hl : compile {} (program target.fragments).table "main" = .ok l) {name text : String}
    {prog : Program} (hchars : ∀ c ∈ text.toList, 0 < c.toNat ∧ c.toNat < 0x80)
    (hmoves : ∀ r ∈ runs text.toList, r.1 = '<' ∨ r.1 = '>' → r.2 < 0x100)
    (hprog : Source.program ⟨name, shortened text⟩ = .ok prog) (hloops : prog.loops ≤ 0x10000)
    (cells : Int → UInt8) :
    l.Halts cells (textBytes text) (textBytes (prog.assembly target .immediates)) [] := by
  have hseparate := separateRuns_runs text.toList
  have hwork : Workable (runs text.toList) := by
    refine ⟨hseparate, fun r hr => ?_, hmoves⟩
    obtain ⟨hpos, hascii⟩ := hchars r.1 (runsText_runs text.toList ▸ hseparate.fst_mem hr)
    exact ⟨hpos, Nat.lt_trans hascii (by decide)⟩
  have htake : Content.start.takeAll (pieces ((runs text.toList).map countedRun)) =
      some ⟨prog.commands.map (·.command), [], prog.loops⟩ := by
    rw [takeAll_counted]
    exact Source.takeAll_pieces hprog (separate_shortRun hseparate) (String.toList_ofList ..)
  have hinput : runsText (byteRuns (runs text.toList)) = textBytes text := by
    rw [byteRuns, ← map_runsText, runsText_runs]
    rfl
  have hends := ends_main (hasLibrary_program target.fragments) (f := target.fragments) hwork
    htake hloops
  rw [hinput] at hends
  obtain ⟨st, ⟨hin, hout⟩, hhalts⟩ :=
    compile_halts (structured_program target) (find?_program_of_mem (main_mem _)) hl
    hends cells
  rw [hin, hout, ← textBytes_assembly rfl] at hhalts
  exact hhalts

/-- **The assembler on the tape agrees with the assembler that it is made of, as far as a byte can
count.** For every target the assembler compiles. Give its code any ASCII text without zeros in
which no 256 moves in the same direction follow each other, and whose brackets match, with at most
65536 loops, once its runs of reads, writes and brackets are shortened. Whatever the cells hold at
first, the code halts with all of the text read, and it has written the assembly of the shortened
text, which is ASCII too. Texts in which such runs are not longer than 256 are not shortened. -/
theorem compiled_assembler_writes_assembly (target : Target) :
    ∃ table l, assembler target = .ok table ∧ compile {} table "main" = .ok l ∧
      ∀ (name text : String) (prog : Program), (∀ c ∈ text.toList, 0 < c.toNat ∧ c.toNat < 0x80) →
        (∀ r ∈ runs text.toList, r.1 = '<' ∨ r.1 = '>' → r.2 < 0x100) →
        Source.program ⟨name, shortened text⟩ = .ok prog → prog.loops ≤ 0x10000 →
        (∀ cells, l.Halts cells (textBytes text)
          (textBytes (prog.assembly target .immediates)) []) ∧
        IsAscii (prog.assembly target .immediates) ∧
        ((∀ r ∈ runs text.toList, r.1 ∈ ['.', ',', '[', ']'] → r.2 ≤ 0x100) →
          shortened text = text) := by
  obtain ⟨l, hl⟩ := compiles target
  refine ⟨_, l, assembler_eq target, hl,
    fun name text prog hchars hmoves hprog hloops => ⟨fun cells => ?_, ?_, ?_⟩⟩
  · exact compiled_halts hl hchars hmoves hprog hloops cells
  · exact prog.isAscii_assembly target .immediates
  · exact shortened_of_short

/-- A loop that reads and writes, with a comment. -/
def echoTwice : String :=
  "++[>,.<-] twice"

theorem compiled_assembler_writes_assembly_echoTwice :
    ∃ table l prog, assembler .ia32 = .ok table ∧ compile {} table "main" = .ok l ∧
      Source.program ⟨"echo", echoTwice⟩ = .ok prog ∧ prog.loops = 1 ∧
      l.Halts (fun _ => 0) (textBytes echoTwice)
        (textBytes (prog.assembly .ia32 .immediates)) [] := by
  obtain ⟨table, l, htable, hl, hagrees⟩ := compiled_assembler_writes_assembly .ia32
  obtain ⟨prog, hprog, -, hloops⟩ := Source.program_of_balanced ⟨"echo", echoTwice⟩ (by decide)
  replace hloops : prog.loops = 1 := hloops.trans (by decide)
  have hshort : shortened echoTwice = echoTwice := shortened_of_short (by decide)
  have hchars : echoTwice.toList.all fun c => 0 < c.toNat ∧ c.toNat < 0x80 := by decide
  obtain ⟨hhalts, -⟩ := hagrees "echo" echoTwice prog (by simpa using hchars) (by decide)
    (by rw [hshort, hprog]) (by rw [hloops]; decide)
  exact ⟨table, l, prog, htable, hl, hprog, hloops, hhalts _⟩

/-! ## Runs that are too long -/

/-- A text of writes only. -/
def writes (k : Nat) : String :=
  String.ofList (List.replicate k '.')

/-- Of writes in a row, the assembler on the tape takes whole rounds of the byte that counts them
for none. -/
theorem shortened_writes (k : Nat) : shortened (writes (k + 1)) = writes (k % 0x100 + 1) := by
  rw [shortened, writes, String.toList_ofList, runs_replicate, List.map_singleton, shortRun,
    if_pos (by simp)]
  simp [writes]

theorem program_writes (name : String) (k : Nat) :
    ∃ prog, Source.program ⟨name, writes k⟩ = .ok prog := by
  have hchar : Instruction.ofChar? '.' = some .write := rfl
  have hinstructions : Source.instructions ⟨name, writes k⟩ = List.replicate k .write := by
    rw [Source.instructions, writes, String.toList_ofList, List.filterMap_replicate_of_some hchar]
  obtain ⟨prog, hprog, -⟩ := Source.program_of_balanced ⟨name, writes k⟩
    (hinstructions ▸ Balanced.replicate (by decide) k)
  exact ⟨prog, hprog⟩

theorem takeAll_writes (s : Content) (k : Nat) : s.takeAll (List.replicate k ('.', 1)) =
    some { s with commands := s.commands ++ List.replicate k .write } := by
  induction k generalizing s with
  | zero => simp [Content.takeAll]
  | succ k ih =>
    have htake : s.take ('.', 1) = some (s.push .write) := rfl
    rw [List.replicate_succ, Content.takeAll_cons, htake, Option.bind_some, ih, Content.push,
      List.append_assoc]
    rfl

theorem length_assembly_writes {name : String} {k : Nat} {prog : Program}
    (h : Source.program ⟨name, writes (k + 1)⟩ = .ok prog) (target : Target) :
    prog.loops = 0 ∧ (textBytes (prog.assembly target .immediates)).length =
      (textBytes target.fragments.programStart).length + (k + 1) *
        (textBytes target.fragments.writeChar).length +
        (textBytes target.fragments.programEnd).length := by
  have hruns : SeparateRuns [('.', k + 1)] := ⟨by simp, .singleton _⟩
  have htake := Source.takeAll_pieces h hruns (by simp [writes])
  rw [pieces_single rfl, takeAll_writes] at htake
  obtain ⟨hcommands, -, hloops⟩ := Content.mk.inj (Option.some.inj htake)
  refine ⟨hloops.symm, ?_⟩
  have hassembly : textBytes (prog.assembly target .immediates) = _ :=
    textBytes_assembly (s := ⟨List.replicate (k + 1) .write, [], 0⟩) hcommands target
  rw [hassembly]
  simp [Content.output, textBytes_join, Fragments.command, Nat.add_assoc]

theorem length_writeChar_pos (target : Target) :
    0 < (textBytes target.fragments.writeChar).length := by
  have hne : target.fragments.writeChar ≠ "" := by cases target <;> decide
  simpa [textBytes, List.length_pos_iff] using hne

/-- Of 257 writes in a row the assembler on the tape assembles one. -/
theorem long_run_of_writes_not_assembled : ∃ table l prog,
    assembler .x64 = .ok table ∧ compile {} table "main" = .ok l ∧
    (∀ c ∈ (writes 257).toList, 0 < c.toNat ∧ c.toNat < 0x80) ∧
    (∀ r ∈ runs (writes 257).toList, r.1 = '<' ∨ r.1 = '>' → r.2 < 0x100) ∧
    Source.program ⟨"writes", writes 257⟩ = .ok prog ∧ prog.loops = 0 ∧
    ¬ ∃ rest, l.Halts (fun _ => 0) (textBytes (writes 257))
      (textBytes (prog.assembly .x64 .immediates)) rest := by
  obtain ⟨l, hl⟩ := compiles .x64
  obtain ⟨prog, hprog⟩ := program_writes "writes" 257
  obtain ⟨one, hone⟩ := program_writes "writes" 1
  obtain ⟨hloops, hlength⟩ := length_assembly_writes hprog .x64
  obtain ⟨hloops', hlength'⟩ := length_assembly_writes hone .x64
  have hchars : ∀ c ∈ (writes 257).toList, 0 < c.toNat ∧ c.toNat < 0x80 := by
    intro c hc
    rw [writes, String.toList_ofList] at hc
    rw [List.eq_of_mem_replicate hc]
    decide
  have hmoves : ∀ r ∈ runs (writes 257).toList, r.1 = '<' ∨ r.1 = '>' → r.2 < 0x100 := by
    rw [writes, String.toList_ofList, runs_replicate]
    decide
  refine ⟨_, l, prog, assembler_eq .x64, hl, hchars, hmoves, hprog, hloops, ?_⟩
  rintro ⟨rest, hhalts⟩
  have hhalts' :=
    compiled_halts hl hchars hmoves (shortened_writes 256 ▸ hone) (by omega) fun _ => 0
  have hpos := length_writeChar_pos .x64
  rw [hhalts.output_unique hhalts', hlength'] at hlength
  omega

end SelfHosting

end TapeToolchain
