import TapeToolchain.Assembly.Emission
import TapeToolchain.Proofs.Text.Hex

/-!
Assembly is ASCII text: so are the pieces of every target (`Target.allAscii_fragments`), the numbers
that are put between them, and thus the assembly of every program (`Program.isAscii_assembly`).
-/

namespace TapeToolchain

def IsAscii (text : String) : Prop :=
  ∀ c ∈ text.toList, c.toNat < 0x80

namespace IsAscii

variable {a b : String}

theorem append (ha : IsAscii a) (hb : IsAscii b) : IsAscii (a ++ b) := by
  rw [IsAscii, String.toList_append]
  exact List.forall_mem_append.2 ⟨ha, hb⟩

theorem join {texts : List String} (h : ∀ t ∈ texts, IsAscii t) : IsAscii (String.join texts) := by
  rw [IsAscii, String.toList_join]
  exact List.forall_mem_flatMap.2 h

/-- A literal is the text of its characters, which can be looked at. -/
theorem ofList {cs : List Char} (h : cs.all (·.toNat < 0x80) = true) :
    IsAscii (String.ofList cs) := by
  rw [IsAscii, String.toList_ofList]
  simpa using h

end IsAscii

theorem Hex.isAscii_padded (width n : Nat) : IsAscii (padded width n) := by
  have halphabet : alphabet.all (·.toNat < 0x80) = true := by decide
  intro c hc
  exact of_decide_eq_true (List.all_eq_true.1 halphabet c (padded_subset_alphabet width n c hc))

/-! ## Pieces -/

structure ImmediateFragment.AllAscii (f : ImmediateFragment) : Prop where
  before : IsAscii f.before
  after : IsAscii f.after

structure LoopFragment.AllAscii (f : LoopFragment) : Prop where
  first : IsAscii f.first
  second : IsAscii f.second
  third : IsAscii f.third

structure Fragments.AllAscii (f : Fragments) : Prop where
  programStart : IsAscii f.programStart
  programEnd : IsAscii f.programEnd
  readChar : IsAscii f.readChar
  writeChar : IsAscii f.writeChar
  single (kind : Repeatable) : IsAscii (f.single kind)
  loopBegin : f.loopBegin.AllAscii
  loopEnd : f.loopEnd.AllAscii
  immediate (kind : Repeatable) : (f.immediate kind).AllAscii

theorem Target.allAscii_fragments (target : Target) : target.fragments.AllAscii := by
  unfold fragments x64Fragments ia32Fragments
  cases target <;>
    refine ⟨?_, ?_, ?_, ?_, fun kind => ?_, ⟨?_, ?_, ?_⟩, ⟨?_, ?_, ?_⟩, fun kind => ⟨?_, ?_⟩⟩ <;>
    try cases kind
  -- a piece is a chain of literals, which must not be put together here
  all_goals with_reducible repeat refine .append ?_ ?_
  all_goals exact .ofList rfl

/-! ## Programs -/

theorem LoopFragment.AllAscii.render {f : LoopFragment} (h : f.AllAscii) (label : Nat) :
    IsAscii (f.render label) :=
  have hlabel : IsAscii (labelText label) := Hex.isAscii_padded _ _
  .append (.append (.append (.append h.first hlabel) h.second) hlabel) h.third

theorem Fragments.AllAscii.run {f : Fragments} (h : f.AllAscii) (style : RunStyle)
    (kind : Repeatable) (count : Nat) : IsAscii (f.run style kind count) := by
  cases style with
  | plain =>
    refine .join fun t ht => ?_
    rw [List.eq_of_mem_replicate ht]
    exact h.single kind
  | immediates =>
    refine .join fun t ht => ?_
    obtain ⟨value, -, rfl⟩ := List.mem_map.1 ht
    exact .append (.append (h.immediate kind).before (Hex.isAscii_padded 2 value))
      (h.immediate kind).after

theorem Fragments.AllAscii.command {f : Fragments} (h : f.AllAscii) (style : RunStyle)
    (command : Command) : IsAscii (f.command style command) := by
  cases command with
  | run kind count => exact h.run style kind count
  | read => exact h.readChar
  | write => exact h.writeChar
  | beginLoop label => exact h.loopBegin.render label
  | endLoop label => exact h.loopEnd.render label

theorem Program.isAscii_assembly (p : Program) (target : Target) (style : RunStyle) :
    IsAscii (p.assembly target style) := by
  have h := target.allAscii_fragments
  refine .append (.append h.programStart (.join fun t ht => ?_)) h.programEnd
  obtain ⟨c, -, rfl⟩ := List.mem_map.1 ht
  exact h.command style c.command

end TapeToolchain
