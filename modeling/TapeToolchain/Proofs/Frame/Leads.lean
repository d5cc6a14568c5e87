import TapeToolchain.Proofs.Emission.Operation
import TapeToolchain.Proofs.Execution.Translation
import TapeToolchain.Proofs.Frame.Discipline
import TapeToolchain.Proofs.Frame.Resizing
import TapeToolchain.Proofs.Language.Simulation

/-!
Code of frames, wherever the frame stands. The emitter writes code for one place of the frame on the
tape. When the frame is resized in a loop, the same code runs with the frame at other places, and
all that it knows is how far the cursor is from the base. `Frame.Leads` says where the code between
two frames leads to from a given base, and is put together in sequence (`Leads.andThen`) and in
loops (`Leads.loop`).
-/

namespace TapeToolchain

/-- Between the two emitters, every loop that was opened was closed. -/
def Emitter.Wraps (e e' : Emitter) : Prop :=
  ∃ seg, e'.code.toList = e.code.toList ++ seg ∧ Balanced seg

namespace Emitter.Wraps

theorem refl (e : Emitter) : Wraps e e :=
  ⟨[], (List.append_nil _).symm, .nil⟩

theorem trans {e₁ e₂ e₃ : Emitter} (h₁ : Wraps e₁ e₂) (h₂ : Wraps e₂ e₃) : Wraps e₁ e₃ := by
  obtain ⟨a, ha, hbalanced⟩ := h₁
  obtain ⟨b, hb, hbalanced'⟩ := h₂
  exact ⟨a ++ b, by rw [hb, ha, List.append_assoc], hbalanced.append hbalanced'⟩

theorem of_performs {e e' : Emitter} {F : Memory → Memory} (h : Performs e e' F) : Wraps e e' := by
  obtain ⟨-, seg, hcode, hbalanced, -⟩ := h
  exact ⟨seg, hcode, hbalanced⟩

/-- A loop around code in which every loop is closed. -/
theorem loop {e₁ e₂ e₃ e₄ : Emitter} (hbegin : e₂.code.toList = e₁.code.toList ++ [.loopBegin])
    (h : Wraps e₂ e₃) (hend : e₄.code.toList = e₃.code.toList ++ [.loopEnd]) : Wraps e₁ e₄ := by
  obtain ⟨body, hbody, hbalanced⟩ := h
  refine ⟨.loopBegin :: (body ++ [.loopEnd]), ?_, hbalanced.loop⟩
  rw [hend, hbody, hbegin]
  simp

end Emitter.Wraps

namespace Emitter

/-- The built-ins are made of actions that close the loops that they open. -/
theorem wraps_discipline : Discipline Wraps (fun _ => True) where
  refl := .refl
  trans _ _ _ := .trans
  moveTo _ := ⟨fun _ _ _ h => .of_performs (performs_moveTo h).1, fun _ _ _ _ => trivial⟩
  add _ := ⟨fun _ _ _ h => .of_performs (performs_add h).1, fun _ _ _ _ => trivial⟩
  sub _ := ⟨fun _ _ _ h => .of_performs (performs_sub h).1, fun _ _ _ _ => trivial⟩
  read := ⟨fun _ _ _ h => .of_performs (performs_read h).1, fun _ _ _ _ => trivial⟩
  write := ⟨fun _ _ _ h => .of_performs (performs_write h).1, fun _ _ _ _ => trivial⟩
  loopOn o body hbody := by
    refine ⟨fun e a e' h => ?_, fun _ _ _ _ => trivial⟩
    obtain ⟨_, e₁, h₁, h⟩ := bind_eq_ok.1 h
    obtain ⟨_, e₂, h₂, h⟩ := bind_eq_ok.1 h
    obtain ⟨_, e₃, h₃, h⟩ := bind_eq_ok.1 h
    obtain ⟨_, e₄, h₄, h₅⟩ := bind_eq_ok.1 h
    obtain ⟨-, -, hcode₅⟩ := endLoop_ok h₅
    have hround : Wraps e₂ e₄ := (hbody.1 _ _ _ h₃).trans (.of_performs (performs_moveTo h₄).1)
    refine (Wraps.of_performs (performs_moveTo h₁).1).trans (.loop ?_ hround ?_)
    · cases h₂
      exact Array.toList_push
    · rw [hcode₅, Array.toList_push]
  cause _ _ := trivial

end Emitter

theorem Frame.wraps_invoke {b : Builtin} (hbegin : b ≠ .beginLoop) (hend : b ≠ .endLoop)
    (values : List Atom) : Obeys Emitter.Wraps (fun _ => True) (invoke b values) := by
  refine Emitter.wraps_discipline.compositional.invoke values (fun hloop => ?_) fun _ d => ?_
  · rcases hloop with rfl | rfl
    · exact absurd rfl hbegin
    · exact absurd rfl hend
  · refine ⟨fun e a e' h => ?_, fun _ _ _ _ => trivial⟩
    rw [Emitter.rebase_ok h]
    exact .refl e

namespace Frame

/-- With the frame at base `b`, the code that was written between the two frames leads from the
memory `m` to a base and a memory of which `R` holds. -/
def Leads (f g : Frame) (b : Int) (m : Memory) (R : Int → Memory → Prop) : Prop :=
  ∃ seg b' m', g.emitter.code.toList = f.emitter.code.toList ++ seg ∧
    Executes seg (b + f.emitter.relative) m (b' + g.emitter.relative) m' ∧ R b' m'

namespace Leads

variable {f g h : Frame} {b : Int} {m : Memory} {R S : Int → Memory → Prop}

theorem refl (f : Frame) (hR : R b m) : f.Leads f b m R :=
  ⟨[], b, m, (List.append_nil _).symm, .nil _ m, hR⟩

theorem mono (h : f.Leads g b m R) (hRS : ∀ b' m', R b' m' → S b' m') : f.Leads g b m S := by
  obtain ⟨seg, b', m', hcode, hrun, hR⟩ := h
  exact ⟨seg, b', m', hcode, hrun, hRS b' m' hR⟩

theorem andThen (h₁ : f.Leads g b m R) (h₂ : ∀ b' m', R b' m' → g.Leads h b' m' S) :
    f.Leads h b m S := by
  obtain ⟨seg, b₁, m₁, hcode, hrun, hR⟩ := h₁
  obtain ⟨seg', b₂, m₂, hcode', hrun', hS⟩ := h₂ b₁ m₁ hR
  exact ⟨seg ++ seg', b₂, m₂, by rw [hcode', hcode, List.append_assoc], hrun.append hrun', hS⟩

/-- Which cells are occupied does not matter. -/
theorem of_emitter {f' g' : Frame} (h : f.Leads g b m R) (hf : f'.emitter = f.emitter)
    (hg : g'.emitter = g.emitter) : f'.Leads g' b m R := by
  rw [Leads, hf, hg]
  exact h

end Leads

/-- The place of the frame does not matter: what the code does at the emitter's base it does at
others. -/
theorem Transforms.leads {f g : Frame} {b : Int} {m m' : Memory}
    (h : f.Transforms g (m.shifted (b - f.emitter.base)) m') :
    f.Leads g b m fun b' m'' => b' = b + (g.emitter.base - f.emitter.base) ∧
      m'' = m'.shifted (f.emitter.base - b) := by
  obtain ⟨seg, hcode, hrun⟩ := h
  have hback := hrun.shifted (f.emitter.base - b)
  have hback' : f.emitter.base - b = -(b - f.emitter.base) := by omega
  rw [hback', Memory.shifted_shifted, ← hback'] at hback
  have hstart : f.emitter.cursor - (f.emitter.base - b) = b + f.emitter.relative := by
    simp only [Emitter.relative]
    omega
  have hend : g.emitter.cursor - (f.emitter.base - b) =
      b + (g.emitter.base - f.emitter.base) + g.emitter.relative := by
    simp only [Emitter.relative]
    omega
  rw [hstart, hend] at hback
  exact ⟨seg, _, _, hcode, hback, rfl, rfl⟩

theorem Performs.leads {f g : Frame} {F : Memory → Memory} (h : f.Performs g F) (b : Int)
    (m : Memory) :
    f.Leads g b m fun b' m' =>
      b' = b ∧ m' = (F (m.shifted (b - f.emitter.base))).shifted (f.emitter.base - b) := by
  refine (h.runs _).leads.mono fun b' m' ⟨hb, hm⟩ => ⟨?_, hm⟩
  rw [hb, h.base]
  omega

/-- Code that only moves the cursor. -/
theorem Performs.leads_back {f g : Frame} (h : f.Performs g fun m => m) (b : Int) (m : Memory) :
    f.Leads g b m fun b' m' => b' = b ∧ m' = m := by
  refine (h.leads b m).mono fun b' m' ⟨hb, hm⟩ => ⟨hb, ?_⟩
  rw [hm, show f.emitter.base - b = -(b - f.emitter.base) by omega, Memory.shifted_shifted]

/-- Resizing at another base: the occupied cells go with the base, and the cells that the base went
up past are zero. -/
theorem Relocates.leads {f g : Frame} {distance : Int} (h : f.Relocates g distance) (b : Int)
    (m : Memory) :
    f.Leads g b m fun b' m' => b' = b + distance ∧ m'.input = m.input ∧ m'.output = m.output ∧
      (∀ o ∈ f.cells.offsets, m'.cells (b' + o) = m.cells (b + o)) ∧
      (∀ p, b ≤ p → p < b' → m'.cells p = 0) ∧
      ∀ p, ¬ (b ≤ p ∧ p < b') → (∀ o ∈ f.cells.offsets, p ≠ b + o ∧ p ≠ b' + o) →
        m'.cells p = m.cells p := by
  obtain ⟨m', hrun, hinput, houtput, hmoved, hzero, hkept⟩ := h.run (m.shifted (b - f.emitter.base))
  refine hrun.leads.mono fun b' m'' ⟨hb, hm⟩ => ?_
  have hbase := h.base
  have hb' : b' = b + distance := by omega
  subst hm
  refine ⟨hb', hinput, houtput, fun o ho => ?_, fun p hp hp' => ?_, fun p hp hp' => ?_⟩
  · have hat : b' + o + (f.emitter.base - b) = g.position o := by
      simp only [position]
      omega
    have hfrom : f.position o + (b - f.emitter.base) = b + o := by
      simp only [position]
      omega
    rw [Memory.cells_shifted, hat, hmoved o ho, Memory.cells_shifted, hfrom]
  · exact hzero _ (by omega) (by omega)
  · have hsame : p + (f.emitter.base - b) + (b - f.emitter.base) = p := by omega
    rw [Memory.cells_shifted, hkept _ (by omega), Memory.cells_shifted, hsame]
    intro o ho
    have := hp' o ho
    simp only [position]
    omega

/-- A loop around code in which every loop is closed. -/
theorem wraps_loop {f g h k : Frame} {o o' : Int} (hbegin : beginLoop o f = .ok () g)
    (hwraps : g.emitter.Wraps h.emitter) (hend : endLoop o' h = .ok () k) :
    f.emitter.Wraps k.emitter := by
  obtain ⟨g', hmark⟩ := beginLoop_marks hbegin
  obtain ⟨h', hmark'⟩ := endLoop_marks hend
  exact (Emitter.Wraps.of_performs hmark.moved).trans
    (.loop hmark.code (hwraps.trans (.of_performs hmark'.moved)) hmark'.code)

/-- A loop goes on in rounds that keep an invariant and count down, until its cell is zero. -/
theorem Leads.loop {f g h k : Frame} {o : Int} (hbegin : beginLoop o f = .ok () g)
    (hwraps : g.emitter.Wraps h.emitter) (hend : endLoop o h = .ok () k)
    {I : Nat → Int → Memory → Prop}
    (hbody : ∀ n b m, I n b m → m.cells (b + o) ≠ 0 →
      g.Leads h b m fun b' m' => ∃ n' < n, I n' b' m')
    {n : Nat} {b : Int} {m : Memory} (hI : I n b m) :
    f.Leads k b m fun b' m' => (∃ n, I n b' m') ∧ m'.cells (b' + o) = 0 := by
  obtain ⟨g', hmark⟩ := beginLoop_marks hbegin
  obtain ⟨h', hmark'⟩ := endLoop_marks hend
  -- the cursor is at the loop's cell at both ends
  have hrelative : ∀ {u u' v : Frame} {i : Instruction}, u.Marks u' o i v →
      v.emitter.relative = o ∧ u'.emitter.relative = o := by
    intro u u' v i hmarks
    have hcursor : v.emitter.cursor = v.emitter.base + o := by
      rw [hmarks.cursor, position, hmarks.moved.base]
    refine ⟨?_, ?_⟩
    · simp only [Emitter.relative, hcursor]
      omega
    · simp only [Emitter.relative, hmarks.sameCursor, hmarks.base, hcursor]
      omega
  obtain ⟨hg', hg⟩ := hrelative hmark
  obtain ⟨hh', hk⟩ := hrelative hmark'
  obtain ⟨body, hcode, hbalanced⟩ := hwraps
  obtain ⟨-, back, hback, hbalanced', -⟩ := hmark'.moved
  -- a round is the body and the cursor's way back
  have hround : ∀ n p m, I n (p - o) m → m.cells p ≠ 0 →
      ∃ n' < n, ∃ p' m', I n' (p' - o) m' ∧ Executes (body ++ back) p m p' m' := by
    intro n p m hI hne
    obtain ⟨seg, b₁, m₁, hseg, hrun, n', hlt, hI'⟩ := hbody n (p - o) m hI
      (by rwa [Int.sub_add_cancel])
    obtain rfl : seg = body := List.append_cancel_left (hseg.symm.trans hcode)
    obtain ⟨seg', b₂, m₂, hseg', hrun', rfl, rfl⟩ := hmark'.moved.leads_back b₁ m₁
    obtain rfl : seg' = back := List.append_cancel_left (hseg'.symm.trans hback)
    rw [hh'] at hrun'
    rw [hg, Int.sub_add_cancel] at hrun
    refine ⟨n', hlt, b₂ + o, m₂, ?_, hrun.append hrun'⟩
    rwa [Int.add_sub_cancel]
  obtain ⟨front, b₁, m₁, hfront, hrun, rfl, rfl⟩ := hmark.moved.leads_back b m
  rw [hg'] at hrun
  obtain ⟨n', p', m', hI', hzero, hloop⟩ := Executes.rounds (hbalanced.append hbalanced')
    (I := fun n p m => I n (p - o) m) hround
    (p := b₁ + o) (by rwa [Int.add_sub_cancel])
  refine ⟨front ++ .loopBegin :: (body ++ back ++ [.loopEnd]), p' - o, m', ?_, ?_, ⟨n', hI'⟩, ?_⟩
  · rw [hmark'.code, hback, hcode, hmark.code, hfront]
    simp
  · rw [hk, Int.sub_add_cancel]
    exact hrun.append hloop
  · rwa [Int.sub_add_cancel]

end Frame

end TapeToolchain
