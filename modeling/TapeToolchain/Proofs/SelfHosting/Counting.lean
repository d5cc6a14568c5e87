import TapeToolchain.Proofs.Compilation.Extension
import TapeToolchain.Proofs.SelfHosting.Agreement

/-!
The macros for numbers by themselves. Any entry may be added to the table of the assembler. One that
counts compiles, however often it counts, and its code writes the label of the number that it has
counted to; one that divides writes the quotient and the remainder of any two bytes that it reads.
-/

namespace TapeToolchain.SelfHosting

open Statement (localCell call invoke)

/-- Counts to `k` and writes the number. -/
def countingBody (k : Nat) : List Node :=
  [localCell "x0", localCell "x1", call "counter_init" ["x0", "x1"]] ++
    List.replicate k (call "counter_inc" ["x0", "x1"]) ++ [call "counter_print" ["x0", "x1"]]

/-- Reads two bytes, divides them, and writes all four numbers. -/
def dividingBody : List Node :=
  [localCell "x", invoke .getChar ["x"], localCell "y", invoke .getChar ["y"], localCell "q",
    localCell "r", call "div" ["x", "y", "q", "r"], invoke .putChar ["x"], invoke .putChar ["y"],
    invoke .putChar ["q"], invoke .putChar ["r"]]

/-! ## The entries as blocks -/

/-- The counter goes on `k` times. -/
def increments : Nat → Block → Block
  | 0, rest => rest
  | k + 1, rest => .call "counter_inc" ["x0", "x1"] (increments k rest)

def printing : Block :=
  .call "counter_print" ["x0", "x1"] .done

def countingBlock (k : Nat) : Block :=
  .localCell "x0" <|
  .localCell "x1" <|
  .call "counter_init" ["x0", "x1"] <|
  increments k printing

def dividingBlock : Block :=
  .localCell "x" <|
  .builtin .getChar ["x"] <|
  .localCell "y" <|
  .builtin .getChar ["y"] <|
  .localCell "q" <|
  .localCell "r" <|
  .call "div" ["x", "y", "q", "r"] <|
  .builtin .putChar ["x"] <|
  .builtin .putChar ["y"] <|
  .builtin .putChar ["q"] <|
  .builtin .putChar ["r"] .done

theorem nodes_increments (k : Nat) (rest : Block) :
    (increments k rest).nodes = List.replicate k (call "counter_inc" ["x0", "x1"]) ++
      rest.nodes := by
  induction k with
  | zero => rfl
  | succ k ih => rw [increments, Block.nodes, ih, List.replicate_succ, List.cons_append]

theorem nodes_countingBlock (k : Nat) : (countingBlock k).nodes = countingBody k := by
  simp only [countingBlock, Block.nodes, nodes_increments, printing, countingBody]
  rfl

theorem locals_increments (k : Nat) (rest : Block) : (increments k rest).locals = rest.locals := by
  induction k with
  | zero => rfl
  | succ k ih => exact ih

theorem nesting_increments (k : Nat) (rest : Block) :
    (increments k rest).nesting = rest.nesting := by
  induction k with
  | zero => rfl
  | succ k ih => exact ih

theorem nesting_countingBlock (k : Nat) : (countingBlock k).nesting = 1 := by
  simp [countingBlock, Block.nesting, nesting_increments, printing]

theorem operands_increments (k : Nat) {a : Atom} (h : a ∈ (increments k printing).operands) :
    a = "x0" ∨ a = "x1" := by
  induction k with
  | zero => simpa [increments, printing, Block.operands] using h
  | succ k ih =>
    rw [increments, Block.operands, List.mem_append] at h
    rcases h with h | h
    · simpa using h
    · exact ih h

/-! ## An entry for the library -/

/-- The macros that any entry may call. -/
def library : MacroProgram :=
  Library.macros.foldl .add ⟨[]⟩

theorem find?_library (name : String) :
    library.find? name = Library.macros.find? fun m => m.name == name :=
  MacroProgram.find?_foldl_add (by decide) name

theorem find?_counterInit : library.find? "counter_init" = some Library.counterInit := by
  rw [find?_library]
  rfl

theorem find?_counterInc : library.find? "counter_inc" = some Library.counterInc := by
  rw [find?_library]
  rfl

theorem extends_library {p : MacroProgram} (hlib : HasLibrary p) : library.Extends p := by
  intro name m hm
  rw [find?_library] at hm
  have hname : m.name = name := by simpa using List.find?_some hm
  rw [← hname]
  exact hlib m (List.mem_of_find?_eq_some hm)

section
variable {target : Target} {m : Macro} (hnew : (program target.fragments).find? m.name = none)
include hnew

theorem hasLibrary_add : HasLibrary ((program target.fragments).add m) :=
  fun e he => MacroProgram.Extends.add hnew e.name e (hasLibrary_program _ e he)

theorem structured_add (hstructured : library.Structured m.body) :
    ∀ e ∈ ((program target.fragments).add m).macros,
      ((program target.fragments).add m).Structured e.body := by
  intro e he
  rcases MacroProgram.mem_add.1 he with rfl | he
  · exact (extends_library (hasLibrary_add hnew)).structured hstructured
  · exact (MacroProgram.Extends.add hnew).structured (structured_program target e he)

theorem printable_add (htexts : ∀ a ∈ m.body.operands, a.Printable) :
    ∀ e ∈ ((program target.fragments).add m).macros, ∀ a ∈ e.body.operands, a.Printable := by
  intro e he
  rcases MacroProgram.mem_add.1 he with rfl | he
  · exact htexts
  · exact printable_program target.allAscii_fragments e he

theorem nestsBelow_add (hnesting : m.body.nesting < 256) :
    ((program target.fragments).add m).NestsBelow 256 := by
  intro e he
  rcases MacroProgram.mem_add.1 he with rfl | he
  · exact hnesting
  · exact nestsBelow_program target e he

/-- An entry that fits with the library can be added to the table of the assembler and compiled, and
its code ends like the entry does wherever the library is. -/
theorem entry_compiles (hparams : m.params = []) (hstructured : library.Structured m.body)
    (htexts : ∀ a ∈ m.body.operands, a.Printable) (hnesting : m.body.nesting < 256)
    (hfit : library.fit 30000 6 [] ⟨0, 0, 0, true⟩ m.body = some 0) :
    ∃ extended l, (program target.fragments).table.define m.name [] m.body.nodes = .ok extended ∧
      compile {} extended m.name = .ok l ∧
      ∀ input output rest, (∀ p, HasLibrary p → Ends p [] m.body ⟨[], some [], input, []⟩ fun st =>
        st.output = output ∧ st.input = rest) → ∀ cells, l.Halts cells input output rest := by
  have hstructured := structured_add hnew hstructured
  have hfind := MacroProgram.find?_add_self hnew
  have hdefine := MacroProgram.define_of_new hnew (by simp [hparams])
  rw [hparams] at hdefine
  obtain ⟨l, hl⟩ : ∃ l, compile {} ((program target.fragments).add m).table m.name = .ok l :=
    compile_of_fit hstructured hfind (printable_add hnew htexts) (nestsBelow_add hnew hnesting)
      (by decide) (by decide) ((extends_library (hasLibrary_add hnew)).fit hfit)
  refine ⟨_, l, hdefine, hl, fun input output rest hends cells => ?_⟩
  obtain ⟨st, ⟨rfl, rfl⟩, hhalts⟩ :=
    compile_halts hstructured hfind hl (hends _ (hasLibrary_add hnew)) cells
  exact hhalts

end

/-! ## Counting -/

/-- The names of a counter that the entry has declared. -/
def counterScope : Environment :=
  [("x1", .var 1), ("x0", .var 0)]

/-- The frame of an entry with a counter. -/
def counterShape : Shape :=
  ⟨2, 2, 0, true⟩

/-- Two cells for the counter are all that the entry declares. -/
theorem fit_declared (rest : Block) (hlocals : rest.locals = []) :
    library.fit 30000 6 [] ⟨0, 0, 0, true⟩ (.localCell "x0" (.localCell "x1" rest)) =
      library.fit 30000 6 counterScope counterShape rest := by
  show library.fitWith 30000 (library.fit 30000 5) [] ⟨0, 0, 0, true⟩
    (.localCell "x0" (.localCell "x1" rest)) = _
  simp only [MacroProgram.fitWith, Block.locals, hlocals]
  rw [if_pos (by decide), if_pos (by decide)]
  rfl

/-- A call of a macro of the counter that leaves the base where it is. -/
theorem fit_call {f : String} {m : Macro} (hfind : library.find? f = some m)
    (hlength : m.params.length = 2) (hparams : m.params.Nodup) (rest : Block)
    (hbody : library.fit 30000 5 (Environment.bind [] m.params [.var 0, .var 1]) ⟨2, 2, 0, false⟩
      m.body = some 0) :
    library.fit 30000 6 counterScope counterShape (.call f ["x0", "x1"] rest) =
      library.fit 30000 6 counterScope counterShape rest := by
  have hplaces : counterScope.places? counterShape.vars counterShape.depth ["x0", "x1"] =
      some [.var 0, .var 1] := rfl
  have hcall : m.params.length = ([("x0" : Atom), "x1"]).length ∧ m.params.Nodup ∧
      (Referent.places [.var 0, .var 1]).Nodup := ⟨hlength, hparams, by decide⟩
  have hcallee :
      library.fit 30000 5 (Environment.bind [] m.params (Referent.renumbered 0 [.var 0, .var 1]))
      ⟨(Referent.places [.var 0, .var 1]).length, counterShape.cells, counterShape.base,
        false⟩ m.body = some 0 := hbody
  show library.fitWith 30000 (library.fit 30000 5) counterScope counterShape
    (.call f ["x0", "x1"] rest) = _
  simp only [MacroProgram.fitWith, hfind, hplaces]
  rw [if_pos hcall, hcallee]
  rfl

theorem fit_increments (k : Nat) (rest : Block) :
    library.fit 30000 6 counterScope counterShape (increments k rest) =
      library.fit 30000 6 counterScope counterShape rest := by
  induction k with
  | zero => rfl
  | succ k ih =>
    rw [increments, fit_call find?_counterInc (by decide) (by decide) _ (by decide +kernel), ih]

theorem fit_countingBlock (k : Nat) :
    library.fit 30000 6 [] ⟨0, 0, 0, true⟩ (countingBlock k) = some 0 := by
  rw [countingBlock, fit_declared (.call _ _ _) (locals_increments k printing),
    fit_call find?_counterInit (by decide) (by decide) _ (by decide +kernel), fit_increments]
  decide +kernel

theorem builtins_increments (k : Nat) : library.builtins (increments k printing) = [] := by
  induction k with
  | zero => decide +kernel
  | succ k ih => simp [increments, MacroProgram.builtins, find?_counterInc, ih]

theorem structured_countingBlock (k : Nat) : library.Structured (countingBlock k) := by
  intro b hb
  simp [countingBlock, MacroProgram.builtins, find?_counterInit, builtins_increments] at hb

theorem printable_countingBlock (k : Nat) : ∀ a ∈ (countingBlock k).operands, a.Printable := by
  intro a ha
  have hname : a = "x0" ∨ a = "x1" := by
    simp only [countingBlock, Block.operands, List.mem_append] at ha
    rcases ha with ha | ha
    · simpa using ha
    · exact operands_increments k ha
  rcases hname with rfl | rfl <;> trivial

theorem ends_increments {p : MacroProgram} (hlib : HasLibrary p) {input output : List UInt8}
    {rest : Block} {Q : Store → Prop} (k j : Nat)
    (hrest : Ends p counterScope rest ⟨counterBytes (j + k), some [], input, output⟩ Q) :
    Ends p counterScope (increments k rest) ⟨counterBytes j, some [], input, output⟩ Q := by
  induction k generalizing j with
  | zero => exact hrest
  | succ k ih =>
    refine .called ⟨counterBytes (j + 1), some [], input, output⟩
      (hlib Library.counterInc (by simp [Library.macros]))
      rfl (by decide) (ends_counterInc j) rfl ?_
    apply ih
    rwa [Nat.add_assoc, Nat.add_comm 1 k]

theorem ends_countingBlock {p : MacroProgram} (hlib : HasLibrary p) (k : Nat) (input : List UInt8) :
    Ends p [] (countingBlock k) ⟨[], some [], input, []⟩ fun st =>
      st.output = textBytes (labelText (k % 0x10000)) ∧ st.input = input := by
  refine .declare 0 rfl fun x => .declare 1 rfl fun y => ?_
  refine .called ⟨counterBytes 0, some [], input, []⟩
    (hlib Library.counterInit (by simp [Library.macros])) rfl
    (by decide) (ends_counterInit x y) rfl ?_
  apply ends_increments hlib k 0
  rw [Nat.zero_add]
  exact .called ⟨counterBytes k, some [], input, textBytes (labelText (k % 0x10000))⟩
    (hlib Library.counterPrint (by simp [Library.macros])) rfl (by decide)
    (ends_counterPrint hlib k) rfl (.done ⟨rfl, rfl⟩)

/-! ## Dividing -/

theorem ends_dividingBlock {p : MacroProgram} (hlib : HasLibrary p) (x y : UInt8) (hy : y ≠ 0)
    (rest : List UInt8) :
    Ends p [] dividingBlock ⟨[], some [], x :: y :: rest, []⟩ fun st =>
      st.output = [x, y, x / y, x % y] ∧ st.input = rest := by
  refine .declare 0 rfl fun _ => .straight 1 ⟨[x], some [], y :: rest, []⟩ rfl ?_
  refine .declare 1 rfl fun _ => .straight 1 ⟨[x, y], some [], rest, []⟩ rfl ?_
  refine .declare 2 rfl fun q => .declare 3 rfl fun r => ?_
  refine .called ⟨[x, y, x / y, x % y], some [], rest, []⟩
    (hlib Library.div (by simp [Library.macros])) rfl (by decide) (ends_div hlib x y q r hy) rfl ?_
  exact .straight 4 ⟨[x, y, x / y, x % y], some [], rest, [x, y, x / y, x % y]⟩ rfl
    (.done ⟨rfl, rfl⟩)

theorem fit_dividingBlock : library.fit 30000 6 [] ⟨0, 0, 0, true⟩ dividingBlock = some 0 := by
  decide +kernel

theorem structured_dividingBlock : library.Structured dividingBlock := by
  decide +kernel

theorem printable_dividingBlock : ∀ a ∈ dividingBlock.operands, a.Printable := by
  simp [dividingBlock, Block.operands, Atom.Printable]

/-! ## The digits of a label -/

theorem toList_labelText_mod (k : Nat) : (labelText (k % 0x10000)).toList =
    [Hex.digit (k / 0x1000 % 16), Hex.digit (k / 0x100 % 16), Hex.digit (k / 0x10 % 16),
      Hex.digit (k % 16)] := by
  have hdigits : (labelText (k % 0x10000)).toList = Hex.lastDigits 4 k := by
    have hlt : k % 0x10000 < 16 ^ 4 := Nat.mod_lt k (by decide)
    rw [labelText, Hex.toList_padded (by decide) hlt]
    exact Hex.lastDigits_mod 4 k
  rw [hdigits]
  simp [Hex.lastDigits, Nat.div_div_eq_div_mul]

/-- **The counter of the assembler on the tape writes the labels of the assembler.** Add to the
table of the assembler an entry, of any name that is not taken, which counts from zero to `k`, one
by one, and writes the counter. For every `k` it compiles, and its code halts, whatever the cells
hold at first, and without reading anything; what it has written is the label of the number `k`
modulo 65536, in four hexadecimal digits. An entry that reads two bytes and divides the first by the
second compiles, too, and its code writes both bytes as they were, their quotient and their
remainder, unless the divisor is zero. -/
theorem compiled_counter_writes_label (target : Target) :
    ∃ table, assembler target = .ok table ∧ ∀ entry, table.find? entry = none →
      (∀ k, ∃ extended l, table.define entry [] (countingBody k) = .ok extended ∧
        compile {} extended entry = .ok l ∧
        (∀ cells input, l.Halts cells input (textBytes (labelText (k % 0x10000))) input) ∧
        (labelText (k % 0x10000)).toList =
          [Hex.digit (k / 0x1000 % 16), Hex.digit (k / 0x100 % 16), Hex.digit (k / 0x10 % 16),
            Hex.digit (k % 16)]) ∧
      ∃ extended l, table.define entry [] dividingBody = .ok extended ∧
        compile {} extended entry = .ok l ∧
        ∀ cells x y rest, y ≠ 0 → l.Halts cells (x :: y :: rest) [x, y, x / y, x % y] rest := by
  refine ⟨_, assembler_eq target, fun entry hentry => ?_⟩
  have hnew : (program target.fragments).find? entry = none := by
    rwa [MacroProgram.find?_table, Option.map_eq_none_iff] at hentry
  constructor
  · intro k
    have hnesting : (countingBlock k).nesting < 256 := by simp [nesting_countingBlock]
    obtain ⟨extended, l, hdefine, hl, hhalts⟩ :=
      entry_compiles (m := ⟨entry, [], countingBlock k⟩) hnew rfl
      (structured_countingBlock k) (printable_countingBlock k) hnesting (fit_countingBlock k)
    rw [nodes_countingBlock] at hdefine
    refine ⟨extended, l, hdefine, hl, fun cells input => ?_, toList_labelText_mod k⟩
    exact hhalts _ _ _ (fun p hlib => ends_countingBlock hlib k input) cells
  · have hnesting : dividingBlock.nesting < 256 := by decide
    obtain ⟨extended, l, hdefine, hl, hhalts⟩ :=
      entry_compiles (m := ⟨entry, [], dividingBlock⟩) hnew rfl
      structured_dividingBlock printable_dividingBlock hnesting fit_dividingBlock
    refine ⟨extended, l, hdefine, hl, fun cells x y rest hy => ?_⟩
    exact hhalts _ _ _ (fun p hlib => ends_dividingBlock hlib x y hy rest) cells

/-- The counter starts again after 65536 numbers. Of what follows in the input, nothing is read. -/
theorem compiled_counter_writes_label_wrapped :
    ∃ table, assembler .ia32 = .ok table ∧ table.find? "count" = none ∧
      (∃ extended l, table.define "count" [] (countingBody 65836) = .ok extended ∧
        compile {} extended "count" = .ok l ∧ l.Halts (fun _ => 255) [7] (textBytes "012c") [7]) ∧
      ∃ extended l, table.define "count" [] dividingBody = .ok extended ∧
        compile {} extended "count" = .ok l ∧
        (7 : UInt8) ≠ 0 ∧ l.Halts (fun _ => 255) [210, 7, 3] [210, 7, 30, 0] [3] := by
  obtain ⟨table, htable, hentries⟩ := compiled_counter_writes_label .ia32
  have hnew : table.find? "count" = none := by
    have heq : table = (program Target.ia32.fragments).table := by
      rw [assembler_eq] at htable
      injection htable with heq
      exact heq.symm
    rw [heq, MacroProgram.find?_table, find?_program]
    decide
  obtain ⟨hcounting, extended, l, hdefine, hl, hdivides⟩ := hentries "count" hnew
  obtain ⟨extended', l', hdefine', hl', hcounts, hdigits⟩ := hcounting 65836
  -- The label is known by its digits, which can be evaluated.
  rw [String.toList_inj.1 (hdigits.trans (by decide : _ = "012c".toList))] at hcounts
  exact ⟨table, htable, hnew, ⟨extended', l', hdefine', hl', hcounts _ [7]⟩,
    extended, l, hdefine, hl, by decide, hdivides _ 210 7 [3] (by decide)⟩

end TapeToolchain.SelfHosting
