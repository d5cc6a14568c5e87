import TapeToolchain.Assembly.Emission
import TapeToolchain.Proofs.Preliminaries
import TapeToolchain.Proofs.SelfHosting.Input

/-!
What the assembler does in one round of its loop.
-/

namespace TapeToolchain.SelfHosting

/-- What the assembler has before it between two rounds: the number of the next label, what is left
of the current run, its character, the text after it, the stack of labels, and the output so far. -/
structure Desk where
  label : Nat
  n : UInt8
  c : UInt8
  text : List UInt8
  stack : List UInt8
  output : List UInt8

/-- The store of the assembler. The flags and the copy of the character do not matter between two
rounds. -/
def Desk.store (d : Desk) (ok found missing copy : UInt8) : Store :=
  ⟨counterBytes d.label ++ [d.n, d.c, d.text.headD 0, ok, found, missing, copy], some d.stack,
    d.text.tail, d.output⟩

def mainScope : Environment :=
  [("c", .var 8), ("no_match_found", .var 7), ("match", .var 6), ("input_ok", .var 5),
    ("input2", .var 4), ("input1", .var 3), ("input0", .var 2), ("name_counter_1", .var 1),
    ("name_counter_0", .var 0)]

variable {p : MacroProgram} {input output : List UInt8} {d : Desk} {ok found missing copy : UInt8}
    {rest : Block}
  {Q : Store → Prop}

/-! ## Branches -/

theorem ofInt_toNat (c : Char) : UInt8.ofInt (c.toNat : Int) = c.toUInt8 :=
  UInt8.ofInt_natCast c.toNat

theorem ends_isEqual (k : Int) (x y : UInt8) :
    Ends p (Environment.bind [] Library.isEqual.params [.int k, .var 0, .var 1])
      Library.isEqual.body ⟨[x, y], none, input, output⟩
      (· = ⟨[x, if x - UInt8.ofInt k = 0 then 1 else 0], none, input, output⟩) := by
  refine .declare 2 rfl fun _ => ?_
  refine .straight 2 ⟨[x, y, x - UInt8.ofInt k], none, input, output⟩ rfl ?_
  exact .straight 1 ⟨[x, if x - UInt8.ofInt k = 0 then 1 else 0, x - UInt8.ofInt k], none, input,
    output⟩ rfl (.done rfl)

/-- The current character is compared with that of a branch. -/
theorem ends_isEqual_call (hlib : HasLibrary p) (c : Char)
    (hrest : Ends p mainScope rest
      (d.store ok (if copy = c.toUInt8 then 1 else 0) missing copy) Q) :
    Ends p mainScope (.call "is_equal" [.ofChar c, "c", "match"] rest)
      (d.store ok found missing copy) Q := by
  refine .called (d.store ok (if copy - UInt8.ofInt c.toNat = 0 then 1 else 0) missing copy)
    (hlib Library.isEqual (by simp [Library.macros])) rfl (show [8, 6].Nodup by decide)
    (ends_isEqual _ _ _) rfl ?_
  simpa only [ofInt_toNat, UInt8.sub_eq_iff_eq_add, UInt8.zero_add] using hrest

/-- A branch for another character is passed over. -/
theorem ends_branch_skip (hlib : HasLibrary p) {branch : Char × (Block → Block)}
    (hc : copy ≠ branch.1.toUInt8) (hrest : Ends p mainScope rest (d.store ok 0 missing copy) Q) :
    Ends p mainScope (Assembler.branchBlock branch rest) (d.store ok found missing copy) Q := by
  refine ends_isEqual_call hlib branch.1 ?_
  rw [if_neg hc]
  exact .skip rfl rfl hrest

/-- The branch for the character is taken. -/
theorem ends_branch_take (hlib : HasLibrary p) {branch : Char × (Block → Block)}
    (hc : copy = branch.1.toUInt8)
    {d' : Desk} (hbody : Ends p mainScope (branch.2 (.builtin .clear ["no_match_found"] .done))
      (d.store ok 1 missing copy) (· = d'.store ok 1 0 copy))
    (hrest : Ends p mainScope rest (d'.store ok 1 0 copy) Q) :
    Ends p mainScope (Assembler.branchBlock branch rest) (d.store ok found missing copy) Q := by
  refine ends_isEqual_call hlib branch.1 ?_
  rw [if_pos hc]
  exact .enter (· = d'.store ok 1 0 copy) rfl flag_ne_zero hbody fun _ h => h ▸ hrest

theorem ends_branches_skip (hlib : HasLibrary p) {branches : List (Char × (Block → Block))}
    (hc : ∀ branch ∈ branches, copy ≠ branch.1.toUInt8)
    (hrest : ∀ found, Ends p mainScope rest (d.store ok found missing copy) Q) (found : UInt8) :
    Ends p mainScope (branches.foldr Assembler.branchBlock rest)
      (d.store ok found missing copy) Q := by
  induction branches generalizing found with
  | nil => exact hrest found
  | cons branch branches ih =>
    obtain ⟨hfirst, hothers⟩ := List.forall_mem_cons.1 hc
    exact ends_branch_skip hlib hfirst (ih hothers 0)

/-- Of branches for different characters only one is taken. -/
theorem ends_branches_take (hlib : HasLibrary p) {branch : Char × (Block → Block)}
    {branches : List (Char × (Block → Block))} (hmem : branch ∈ branches)
    (hnodup : (branches.map fun b => b.1.toUInt8).Nodup) (hc : copy = branch.1.toUInt8) {d' : Desk}
    (hbody : Ends p mainScope (branch.2 (.builtin .clear ["no_match_found"] .done))
      (d.store ok 1 missing copy) (· = d'.store ok 1 0 copy))
    (hrest : ∀ found, Ends p mainScope rest (d'.store ok found 0 copy) Q) (found : UInt8) :
    Ends p mainScope (branches.foldr Assembler.branchBlock rest)
      (d.store ok found missing copy) Q := by
  induction branches generalizing found with
  | nil => cases hmem
  | cons first branches ih =>
    obtain ⟨hfirst, hnodup⟩ := List.nodup_cons.1 hnodup
    rcases List.mem_cons.1 hmem with rfl | hmem
    · refine ends_branch_take hlib hc hbody
        (ends_branches_skip hlib (fun other hother heq => hfirst ?_) hrest 1)
      exact List.mem_map.2 ⟨other, hother, heq.symm.trans hc⟩
    · refine ends_branch_skip hlib (fun heq => hfirst ?_) (ih hmem hnodup 0)
      exact List.mem_map.2 ⟨branch, hmem, hc.symm.trans heq⟩

/-! ## What the branches do -/

/-- A known text is written. -/
theorem ends_put {env : Environment} {st : Store} (text : String)
    (hrest : Ends p env rest { st with output := st.output ++ textBytes text } Q) :
    Ends p env (Assembler.putBlock text rest) st Q := by
  have hperform : st.perform .putStringConstant [.text text] =
      some { st with output := st.output ++ textBytes text } := by
    have hbytes : (text.toList.map fun c => UInt8.ofNat c.toNat) = textBytes text := rfl
    cases hstack : st.stack <;>
      simp [Store.perform, Builtin.perform, Store.update, Store.world, Store.below, World.send,
        hbytes, hstack]
  exact .builtin rfl hperform hrest

def Desk.write (d : Desk) (bytes : List UInt8) : Desk :=
  { d with output := d.output ++ bytes }

/-- One character of the run is used up. -/
def Desk.consume (d : Desk) : Desk :=
  { d with n := d.n - 1 }

theorem ends_put_desk (text : String)
    (hrest : Ends p mainScope rest ((d.write (textBytes text)).store ok found missing copy) Q) :
    Ends p mainScope (Assembler.putBlock text rest) (d.store ok found missing copy) Q :=
  ends_put text hrest

theorem ends_consumeChar (hlib : HasLibrary p)
    (hrest : Ends p mainScope rest (d.consume.store ok found missing copy) Q) :
    Ends p mainScope (.call "input_consume_char" (inputAnd []) rest)
      (d.store ok found missing copy) Q :=
  .called _ (hlib Library.inputConsumeChar (by simp [Library.macros])) rfl
    (show [2, 3, 4].Nodup by decide)
    (.straight 1 ⟨[d.n - 1, d.c, d.text.headD 0], none, d.text.tail, d.output⟩ rfl (.done rfl))
    rfl hrest

theorem ends_charBlock (hlib : HasLibrary p) (text : String) :
    Ends p mainScope (Assembler.charBlock text (.builtin .clear ["no_match_found"] .done))
      (d.store ok found missing copy)
      (· = (d.consume.write (textBytes text)).store ok found 0 copy) :=
  ends_consumeChar hlib (ends_put_desk text (.straight 1 _ rfl (.done rfl)))

/-- A whole run is used up, and its length is written. -/
theorem ends_runBlock (hlib : HasLibrary p) (f : ImmediateFragment) :
    Ends p mainScope (Assembler.runBlock f (.builtin .clear ["no_match_found"] .done))
      (d.store ok found missing copy)
      (· = ({ d with n := 0 }.write (textBytes (f.render d.n.toNat))).store ok found 0 copy) := by
  have htext : textBytes (f.render d.n.toNat) = textBytes f.before ++ hexByte d.n.toNat ++
      textBytes f.after := by
    rw [ImmediateFragment.render, textBytes_append, textBytes_append,
      textBytes_padded_two d.n.toNat_lt]
  rw [htext]
  let taken (output : List UInt8) : Store :=
    ⟨counterBytes d.label ++ [0, d.c, d.text.headD 0, ok, found, missing, copy, d.n], some d.stack,
      d.text.tail, output⟩
  refine .declare 9 rfl fun _ => ?_
  refine .called (taken d.output) (hlib Library.inputConsumeRun (by simp [Library.macros])) rfl
    (show [2, 3, 4, 9].Nodup by decide)
    (.straight 2 ⟨[0, d.c, d.text.headD 0, d.n], none, d.text.tail, d.output⟩ rfl (.done rfl))
    rfl ?_
  refine ends_put f.before ?_
  refine .called (taken (d.output ++ textBytes f.before ++ hexByte d.n.toNat))
    (hlib Library.printHexByte (by simp [Library.macros])) rfl (show [9].Nodup by decide)
    (ends_printHexByte hlib d.n) rfl ?_
  refine ends_put f.after (.straight 1 _ rfl (.done ?_))
  rw [Desk.write, ← List.append_assoc, ← List.append_assoc]
  rfl

/-- A label that stands in two places of the row is written twice. -/
theorem ends_loopBlock (hlib : HasLibrary p) (f : LoopFragment) (rs : List Referent) (label : Nat)
    {low high : Atom}
    (hargs : ∀ bytes, ((d.consume.write bytes).store ok found missing copy).meanings? mainScope
      [low, high] = some rs)
    (hnodup : (Referent.places rs).Nodup) (hrs : Referent.renumbered 0 rs = [.var 0, .var 1])
    (hpassed : ∀ bytes, ((d.consume.write bytes).store ok found missing copy).passed rs =
      ⟨counterBytes label, none, d.text.tail, d.output ++ bytes⟩)
    (hreturned : ∀ bytes bytes', ((d.consume.write bytes).store ok found missing copy).returned rs
      ⟨counterBytes label, none, d.text.tail, d.output ++ bytes'⟩ =
        (d.consume.write bytes').store ok found missing copy)
    (hrest : Ends p mainScope rest
      ((d.consume.write (textBytes (f.render (label % 0x10000)))).store ok found missing copy) Q) :
    Ends p mainScope (Assembler.loopBlock f low high rest) (d.store ok found missing copy) Q := by
  have hprint : ∀ {bytes : List UInt8} {rest : Block}, Ends p mainScope rest
      ((d.consume.write (bytes ++ textBytes (labelText (label % 0x10000)))).store ok found
        missing copy) Q →
      Ends p mainScope (.call "counter_print" [low, high] rest)
        ((d.consume.write bytes).store ok found missing copy) Q := by
    intro bytes rest h
    refine .called _ (hlib Library.counterPrint (by simp [Library.macros])) (hargs bytes) hnodup ?_
      (hreturned bytes (bytes ++ textBytes (labelText (label % 0x10000)))) h
    rw [hpassed, hrs, ← List.append_assoc]
    exact ends_counterPrint hlib label
  have hput : ∀ {bytes : List UInt8} {text : String} {rest : Block}, Ends p mainScope rest
      ((d.consume.write (bytes ++ textBytes text)).store ok found missing copy) Q →
      Ends p mainScope (Assembler.putBlock text rest)
        ((d.consume.write bytes).store ok found missing copy) Q := by
    intro bytes text rest h
    refine ends_put_desk text ?_
    rwa [Desk.write, Desk.write, List.append_assoc]
  refine ends_consumeChar hlib ?_
  refine ends_put_desk f.first (hprint (hput (hprint (hput ?_))))
  simpa only [LoopFragment.render, textBytes_append] using hrest

/-! ## A round -/

/-- What becomes of the desk in a round, before the next run is read. -/
inductive Desk.Acts (f : Fragments) (d : Desk) : Desk → Prop where
  | run (kind : Repeatable) : d.c = kind.instruction.toChar.toUInt8 →
      Acts f d ({ d with n := 0 }.write (textBytes ((f.immediate kind).render d.n.toNat)))
  | read : d.c = Instruction.read.toChar.toUInt8 → Acts f d (d.consume.write (textBytes f.readChar))
  | write : d.c = Instruction.write.toChar.toUInt8 →
      Acts f d (d.consume.write (textBytes f.writeChar))
  | loopBegin : d.c = Instruction.loopBegin.toChar.toUInt8 →
      Acts f d { d.consume.write (textBytes (f.loopBegin.render (d.label % 0x10000))) with
        label := d.label + 1, stack := (counterBytes d.label).reverse ++ d.stack }
  | loopEnd (label : Nat) (stack : List UInt8) : d.c = Instruction.loopEnd.toChar.toUInt8 →
      d.stack = (counterBytes label).reverse ++ stack →
      Acts f d { d.consume.write (textBytes (f.loopEnd.render (label % 0x10000))) with stack }
  | comment : (∀ i : Instruction, d.c ≠ i.toChar.toUInt8) → Acts f d d.consume

theorem branches_nodup (f : Fragments) :
    ((Assembler.branches f).map fun b => b.1.toUInt8).Nodup := by
  show ['+', '-', '<', '>', '[', ']', ',', '.'].map Char.toUInt8 |>.Nodup
  decide

/-- A loop is opened. -/
theorem ends_loopBegin (hlib : HasLibrary p) (f : LoopFragment) :
    Ends p mainScope (Assembler.loopBlock f "name_counter_0" "name_counter_1"
        (Assembler.openBlock (.builtin .clear ["no_match_found"] .done)))
      (d.store ok found missing copy)
      (· = ({ d.consume.write (textBytes (f.render (d.label % 0x10000))) with
        label := d.label + 1, stack :=
          (counterBytes d.label).reverse ++ d.stack } : Desk).store ok found 0 copy) := by
  refine ends_loopBlock hlib f [.var 0, .var 1] d.label (fun _ => rfl) (by decide) rfl
    (fun _ => rfl) (fun _ _ => rfl) ?_
  let opened := { d.consume.write (textBytes (f.render (d.label % 0x10000))) with
    stack := (counterBytes d.label).reverse ++ d.stack }
  refine .straight 3 (opened.store ok found missing copy) rfl ?_
  refine .called ({ opened with label := d.label + 1 }.store ok found missing copy)
    (hlib Library.counterInc (by simp [Library.macros])) rfl (show [0, 1].Nodup by decide)
    (ends_counterInc d.label) rfl ?_
  exact .straight 1 _ rfl (.done rfl)

/-- A loop is closed, whose label is on the stack. -/
theorem ends_loopEnd (hlib : HasLibrary p) (f : LoopFragment) {label : Nat} {stack : List UInt8}
    (hstack : d.stack = (counterBytes label).reverse ++ stack) :
    Ends p mainScope (Assembler.loopBlock f (.address (-2)) (.address (-1))
        (.builtin .shrinkStack [.int 2] (.builtin .clear ["no_match_found"] .done)))
      (d.store ok found missing copy)
      (· = ({ d.consume.write (textBytes (f.render (label % 0x10000))) with stack } : Desk).store ok
        found 0 copy) := by
  obtain ⟨next, n, c, text, _, output⟩ := d
  subst hstack
  refine ends_loopBlock hlib f [.var 10, .var 9] label (fun _ => rfl) (by decide) rfl (fun _ => rfl)
    (fun _ _ => rfl) ?_
  exact .straight 2 _ rfl (.done rfl)

/-- **A round of the assembler** works on the current character and then reads on. -/
theorem Desk.Acts.ends (hlib : HasLibrary p) {f : Fragments} {d' : Desk} (h : d.Acts f d')
    (hrest : ∀ found missing, Ends p mainScope Assembler.nextBlock
      (d'.store ok found missing d.c) Q) :
    Ends p mainScope (Assembler.stepBlock f) (d.store ok found missing copy) Q := by
  have hnodup := branches_nodup f
  have hnext : ∀ found,
      Ends p mainScope (.ifNonzero "no_match_found" (.call "input_consume_char" (inputAnd []) .done)
      Assembler.nextBlock) (d'.store ok found 0 d.c) Q := fun found => .skip rfl rfl (hrest found 0)
  refine .straight 2 (d.store ok found 1 copy) rfl ?_
  refine .called (d.store ok found 1 d.c) (hlib Library.inputPeekChar (by simp [Library.macros]))
    rfl (show [2, 3, 4, 8].Nodup by decide)
    (.straight 1 ⟨[d.n, d.c, d.text.headD 0, d.c], none, d.text.tail, d.output⟩ rfl (.done rfl))
    rfl ?_
  cases h with
  | run kind hc =>
    cases kind with
    | increment =>
      exact ends_branches_take hlib (List.mem_of_getElem? (i := 0) rfl) hnodup hc
        (ends_runBlock hlib _) hnext found
    | decrement =>
      exact ends_branches_take hlib (List.mem_of_getElem? (i := 1) rfl) hnodup hc
        (ends_runBlock hlib _) hnext found
    | left =>
      exact ends_branches_take hlib (List.mem_of_getElem? (i := 2) rfl) hnodup hc
        (ends_runBlock hlib _) hnext found
    | right =>
      exact ends_branches_take hlib (List.mem_of_getElem? (i := 3) rfl) hnodup hc
        (ends_runBlock hlib _) hnext found
  | loopBegin hc =>
    exact ends_branches_take hlib (List.mem_of_getElem? (i := 4) rfl) hnodup hc
      (ends_loopBegin hlib _) hnext found
  | loopEnd label stack hc hstack =>
    exact ends_branches_take hlib (List.mem_of_getElem? (i := 5) rfl) hnodup hc
      (ends_loopEnd hlib _ hstack) hnext found
  | read hc =>
    exact ends_branches_take hlib (List.mem_of_getElem? (i := 6) rfl) hnodup hc
      (ends_charBlock hlib _) hnext found
  | write hc =>
    exact ends_branches_take hlib (List.mem_of_getElem? (i := 7) rfl) hnodup hc
      (ends_charBlock hlib _) hnext found
  | comment hc =>
    refine ends_branches_skip hlib ?_ (fun found => ?_) found
    · simp only [Assembler.branches, List.forall_mem_cons]
      exact ⟨hc .increment, hc .decrement, hc .left, hc .right, hc .loopBegin, hc .loopEnd,
        hc .read, hc .write, List.forall_mem_nil _⟩
    · exact .enter (· = d.consume.store ok found 1 d.c) rfl flag_ne_zero
        (ends_consumeChar hlib (.done rfl)) fun _ h => h ▸ hrest found 1

/-! ## The next run -/

/-- The desk with the next run of the text on it. -/
def Desk.read (d : Desk) : List (UInt8 × Nat) → Desk
  | [] => { d with n := 1, c := 0, text := [] }
  | (c, k) :: rest => { d with n := UInt8.ofNat k, c, text := runsText rest }

theorem ends_hasNext (hlib : HasLibrary p) :
    Ends p mainScope (.call "input_has_next" (inputAnd ["input_ok"]) .done)
      (d.store ok found missing copy) (· = d.store d.c found missing copy) :=
  .called _ (hlib Library.inputHasNext (by simp [Library.macros])) rfl
    (show [2, 3, 4, 5].Nodup by decide)
    (.straight 1 ⟨[d.n, d.c, d.text.headD 0, d.c], none, d.text.tail, d.output⟩ rfl (.done rfl))
    rfl (.done rfl)

/-- A run that is not used up stays. -/
theorem ends_nextBlock_stay (hlib : HasLibrary p) (hn : d.n ≠ 0) (htext : d.text.headD 0 ≠ d.c) :
    Ends p mainScope Assembler.nextBlock (d.store ok found missing copy)
      (· = d.store d.c found missing copy) :=
  .called (d.store ok found missing copy) (hlib Library.inputUpdate (by simp [Library.macros])) rfl
    (show [2, 3, 4].Nodup by decide) (ends_inputUpdate_stay hn htext) rfl (ends_hasNext hlib)

/-- After a run that is used up comes the next one. -/
theorem ends_nextBlock_read (hlib : HasLibrary p) (hn : d.n = 0) {rs : List (UInt8 × Nat)}
    (hrs : SeparateRuns rs) (hbytes : ∀ r ∈ rs, r.1 ≠ 0) (htext : d.text = runsText rs) :
    Ends p mainScope Assembler.nextBlock (d.store ok found missing copy)
      (· = (d.read rs).store (d.read rs).c found missing copy) := by
  obtain ⟨label, _, c, _, stack, output⟩ := d
  subst hn htext
  refine .called ((Desk.read _ rs).store ok found missing copy)
    (hlib Library.inputUpdate (by simp [Library.macros])) rfl
    (show [2, 3, 4].Nodup by decide) (ends_inputUpdate_next hrs hbytes) ?_ (ends_hasNext hlib)
  cases rs <;> rfl

end TapeToolchain.SelfHosting
