import TapeToolchain.Proofs.Frame.LogicEffect

/-!
What the built-ins for input and output do. A text that is known beforehand is written from one
cell, which goes from each character to the next by their difference.
-/

namespace TapeToolchain

namespace Memory

@[simp] theorem cells_send (m : Memory) (bytes : List UInt8) : (m.send bytes).cells = m.cells := rfl

theorem send_send (m : Memory) (a b : List UInt8) : (m.send a).send b = m.send (a ++ b) := by
  simp [send]

theorem send_nil (m : Memory) : m.send [] = m := by
  simp [send]

theorem set_send (m : Memory) (p : Int) (v : UInt8) (bytes : List UInt8) :
    (m.set p v).send bytes = (m.send bytes).set p v := rfl

end Memory

namespace Emitter

/-- Going from one character to the next. -/
def toCode (current code : Nat) : Action Unit :=
  if current ≤ code then add (code - current) else sub (current - code)

theorem putCodes_cons (current code : Nat) (rest : List Nat) :
    Frame.putCodes current (code :: rest) =
      (do toCode current code; write; Frame.putCodes code rest) := by
  rw [Frame.putCodes, toCode]
  split <;> rfl

theorem performs_toCode {current code : Nat} {e e' : Emitter}
    (h : toCode current code e = .ok () e') :
    Performs e e' (fun m => m.set e.cursor
      (UInt8.ofNat code + (m.cells e.cursor - UInt8.ofNat current))) ∧ e'.cursor = e.cursor := by
  rw [toCode] at h
  split at h
  · next hle =>
    obtain ⟨hadd, hcursor⟩ := performs_add h
    refine ⟨hadd.congr fun m => ?_, hcursor⟩
    rw [UInt8.ofNat_sub hle]
    congr 1
    grind
  · next hlt =>
    obtain ⟨hsub, hcursor⟩ := performs_sub h
    refine ⟨hsub.congr fun m => ?_, hcursor⟩
    rw [UInt8.ofNat_sub (Nat.le_of_not_le hlt)]
    congr 1
    grind

/-- If the cell does not hold the code that it should hold, then all bytes are off by the same
amount. -/
theorem performs_putCodes (codes : List Nat) {current : Nat} {e e' : Emitter}
    (h : Frame.putCodes current codes e = .ok () e') :
    ∃ last : Memory → UInt8, Performs e e' fun m =>
      (m.send (codes.map fun c => UInt8.ofNat c + (m.cells e.cursor - UInt8.ofNat current))).set
        e.cursor (last m) := by
  induction codes generalizing current e with
  | nil =>
    cases h
    refine ⟨fun m => m.cells e'.cursor, (Performs.refl e').congr fun m => ?_⟩
    rw [List.map_nil, m.send_nil, m.set_cells]
  | cons code rest ih =>
    rw [putCodes_cons] at h
    obtain ⟨_, e₁, hchange, hrun⟩ := bind_eq_ok.1 h
    obtain ⟨_, e₂, hwrite, hrest⟩ := bind_eq_ok.1 hrun
    obtain ⟨hchanged, hcursor₁⟩ := performs_toCode hchange
    obtain ⟨hwritten, hcursor₂⟩ := performs_write hwrite
    obtain ⟨last, hlast⟩ := ih hrest
    rw [hcursor₁] at hwritten
    rw [hcursor₂, hcursor₁] at hlast
    have hoff : ∀ c d : UInt8, c + d - c = d := by grind
    exact ⟨_, ((hchanged.trans hwritten).trans hlast).congr fun m => by
      simp only [Memory.cells_send, Memory.cells_set, if_true, hoff, Memory.set_send,
        Memory.send_send, Memory.set_set, List.map_cons, List.singleton_append]
      rfl⟩

end Emitter

namespace Frame

theorem getChar_performs {dst : Int} {f f' : Frame} (h : getChar dst f = .ok () f') :
    f.Performs f' fun m => m.receive (f.position dst) :=
  performs_at (F := fun p m => m.receive p) (fun _ _ hread => (Emitter.performs_read hread).1) h

theorem putChar_performs {src : Int} {f f' : Frame} (h : putChar src f = .ok () f') :
    f.Performs f' fun m => m.send [m.cells (f.position src)] :=
  performs_at (F := fun p m => m.send [m.cells p])
    (fun _ _ hwrite => (Emitter.performs_write hwrite).1) h

/-- The codes of a text are those of its characters, in order. -/
theorem byteCodes_ok {chars : List Char} {codes : List Nat} (h : byteCodes chars = .ok codes) :
    codes = chars.map Char.toNat := by
  induction chars generalizing codes with
  | nil => cases h; rfl
  | cons c rest ih =>
    rw [byteCodes] at h
    split at h
    · cases hrest : byteCodes rest with
      | error cause => rw [hrest] at h; cases h
      | ok others =>
        rw [hrest] at h
        cases h
        rw [ih hrest, List.map_cons]
    · cases h

/-- Writing a text takes a scratch cell, clears it and goes from character to character there. -/
theorem putStringConstant_ok {text : String} {f f' : Frame}
    (h : putStringConstant text f = .ok () f') :
    ∃ s f₁ taken f₂, f.Lends [] s f₁ taken ∧
      (do clear s; emit (putCodes 0 (text.toList.map Char.toNat))) f₁ = .ok () f₂ ∧
      f'.emitter = f₂.emitter := by
  obtain ⟨codes, u, hcodes, hrun⟩ := bind_eq_ok.1 h
  obtain ⟨rfl, rfl⟩ : u = f ∧ codes = text.toList.map Char.toNat := by
    cases hc : byteCodes text.toList with
    | error cause => rw [hc] at hcodes; cases hcodes
    | ok others => rw [hc] at hcodes; cases hcodes; exact ⟨rfl, byteCodes_ok hc⟩
  exact withScratch_ok hrun

/-- Whatever the cell held before, all bytes are right, since it is cleared first. -/
theorem clear_putCodes_performs {s : Int} {codes : List Nat} {f f' : Frame}
    (h : (do clear s; emit (putCodes 0 codes)) f = .ok () f') :
    ∃ last : Memory → UInt8, f.Performs f' fun m =>
      (m.send (codes.map UInt8.ofNat)).set (f.position s) (last m) := by
  obtain ⟨_, f₁, hclear, hput⟩ := bind_eq_ok.1 h
  rw [clear_eq] at hclear
  obtain ⟨hcleared, hcursor⟩ := Emitter.performs_clearCell (emit_ok hclear)
  obtain ⟨last, hlast⟩ := Emitter.performs_putCodes _ (emit_ok hput)
  rw [hcursor] at hlast
  refine ⟨fun m => last (m.set (f.position s) 0),
    Emitter.Performs.congr (hcleared.trans hlast) fun m => ?_⟩
  simp [Memory.set_send, Memory.set_set, position]

/-- A text is written in full. One cell that was free is changed. -/
theorem putStringConstant_performs {text : String} {f f' : Frame}
    (h : putStringConstant text f = .ok () f') :
    ∃ s, s ∉ f.cells.offsets ∧ 0 ≤ s ∧ ∃ last : Memory → UInt8, f.Performs f' fun m =>
      (m.send (text.toList.map fun c => UInt8.ofNat c.toNat)).set (f.position s) (last m) := by
  obtain ⟨s, f₁, taken, f₂, hlends, hbody, hend⟩ := putStringConstant_ok h
  obtain ⟨last, hlast⟩ := clear_putCodes_performs hbody
  refine ⟨s, hlends.free, hlends.nonneg, last, hlends.performs hend (hlast.congr fun m => ?_)⟩
  rw [hlends.position, List.map_map]
  rfl

end Frame

end TapeToolchain
