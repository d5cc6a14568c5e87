import TapeToolchain.Proofs.Language.Evaluation

/-!
The cells of a block. Evaluation of a block adds the block's own local cells to the current scope
and nothing else (`Expands.owns`): blocks inside of it, conditionals, loops and calls close their
scopes again, and closing a scope gives back exactly the cells that were taken in it.
-/

namespace TapeToolchain

open Desugaring (localStatements whileStatements conditionCopy)

namespace Evaluator

/-- The second state has local cells in the current scope that the first has not. They were free
before, and they are all that is occupied in addition. -/
structure Owns (s : Evaluator) (owned : List (Symbol × Int)) (t : Evaluator) : Prop where
  scopes : t.scopes = s.scopes.own owned
  nodup : (owned.map (·.2)).Nodup
  fresh (o : Int) : o ∈ owned.map (·.2) → o ∉ s.frame.cells.offsets
  mem_cells (o : Int) :
    o ∈ t.frame.cells.offsets ↔ o ∈ owned.map (·.2) ∨ o ∈ s.frame.cells.offsets

namespace Owns

theorem nothing {s t : Evaluator} (hscopes : t.scopes = s.scopes)
    (hcells : t.frame.cells = s.frame.cells) : Owns s [] t where
  scopes := hscopes
  nodup := .nil
  fresh _ h := absurd h List.not_mem_nil
  mem_cells o := by simp [hcells]

theorem trans {s t u : Evaluator} {a b : List (Symbol × Int)} (h₁ : Owns s a t) (h₂ : Owns t b u) :
    Owns s (a ++ b) u where
  scopes := by rw [h₂.scopes, h₁.scopes, Scopes.own_append]
  nodup := by
    rw [List.map_append]
    refine List.nodup_append.2 ⟨h₁.nodup, h₂.nodup, ?_⟩
    rintro o ha _ hb rfl
    exact h₂.fresh o hb ((h₁.mem_cells o).2 (Or.inl ha))
  fresh o ho := by
    rw [List.map_append] at ho
    rcases List.mem_append.1 ho with ha | hb
    · exact h₁.fresh o ha
    · exact fun hs => h₂.fresh o hb ((h₁.mem_cells o).2 (Or.inr hs))
  mem_cells o := by
    rw [h₂.mem_cells, h₁.mem_cells, List.map_append, List.mem_append]
    tauto

/-- Only scopes and occupied cells matter. -/
theorem congr {s s' t t' : Evaluator} {owned : List (Symbol × Int)} (h : Owns s owned t)
    (hs : s'.scopes = s.scopes) (hscells : s'.frame.cells = s.frame.cells)
    (ht : t'.scopes = t.scopes) (htcells : t'.frame.cells = t.frame.cells) : Owns s' owned t' where
  scopes := by rw [ht, hs, h.scopes]
  nodup := h.nodup
  fresh := by rw [hscells]; exact h.fresh
  mem_cells := by rw [hscells, htcells]; exact h.mem_cells

/-- A local cell. -/
theorem allocate {x : Symbol} {o : Int} {s : Evaluator} {f : Frame}
    (h : Frame.allocate s.frame = .ok o f) : Owns s [(x, o)] ⟨f, s.scopes.own [(x, o)]⟩ := by
  obtain ⟨-, hfree, hcells⟩ := Frame.allocate_ok h
  refine ⟨rfl, List.nodup_singleton o, fun p hp => ?_, fun p => ?_⟩
  · rw [List.mem_singleton.1 hp]
    exact hfree
  · rw [hcells]
    simp

/-- A built-in. -/
theorem invoke {b : Builtin} {atoms : List Atom} {s t : Evaluator}
    (h : run [Statement.invoke b atoms] s = .ok () t) : Owns s [] t := by
  obtain ⟨v, hv⟩ := run_single_ok.1 h
  obtain ⟨values, f, -, hf, rfl⟩ := evaluate_invoke_ok hv
  exact nothing rfl ((Frame.restores_invoke b values).1 _ _ _ hf)

/-- Closing a scope succeeds, and gives back what was taken in it. -/
theorem evaluate_envEnd {s u : Evaluator} {owned : List (Symbol × Int)} (h : Owns s owned u)
    (around : Scopes) (hrelease : s.scopes.current.release = [])
    (houter : s.scopes.outer = around.current :: around.outer) :
    evaluate Statement.envEnd u = .ok .unit ⟨⟨u.frame.emitter, s.frame.cells⟩, around⟩ := by
  obtain ⟨f, ⟨current, outer⟩⟩ := u
  obtain rfl : outer = around.current :: around.outer := by
    have := congrArg Scopes.outer h.scopes
    rwa [Scopes.outer_own, houter] at this
  have hcurrent : current.release = owned.map (·.2) := by
    have := congrArg (·.current.release) h.scopes
    simpa [Scopes.release_own, hrelease] using this
  obtain ⟨q, hq, hmem⟩ := Frame.freeAll_occupied (f := f) h.nodup fun o ho =>
    (h.mem_cells o).2 (Or.inl ho)
  obtain rfl : q = s.frame.cells := CellPool.eq_of_mem_iff fun o => by
    have := h.fresh o
    have := h.mem_cells o
    rw [hmem]
    tauto
  rw [← hcurrent] at hq
  exact evaluate_envEnd_of_ok hq around.current around.outer

theorem close {s t u : Evaluator} {owned : List (Symbol × Int)} {v : Value} (h : Owns s owned u)
    (around : Scopes) (hrelease : s.scopes.current.release = [])
    (houter : s.scopes.outer = around.current :: around.outer)
    (hend : evaluate Statement.envEnd u = .ok v t) :
    t = ⟨⟨u.frame.emitter, s.frame.cells⟩, around⟩ := by
  rw [h.evaluate_envEnd around hrelease houter] at hend
  cases hend
  rfl

end Owns

theorem run_inScope_ok {body : List Node} {s t : Evaluator} :
    run (Statement.inScope body) s = .ok () t ↔
      ∃ u, run body ⟨s.frame, s.scopes.push⟩ = .ok () u ∧
        ∃ v, evaluate Statement.envEnd u = .ok v t := by
  rw [Statement.inScope, run_cons_ok]
  simp only [evaluate_envBegin, run_append_ok, run_single_ok]
  grind

/-- Statements in a scope of their own leave scopes and cells as they were. -/
theorem Owns.inScope {body : List Node} {s t : Evaluator}
    (hbody : ∀ u, run body ⟨s.frame, s.scopes.push⟩ = .ok () u →
      ∃ owned, Owns ⟨s.frame, s.scopes.push⟩ owned u)
    (h : run (Statement.inScope body) s = .ok () t) : Owns s [] t := by
  obtain ⟨u, hu, v, hend⟩ := run_inScope_ok.1 h
  obtain ⟨owned, howned⟩ := hbody u hu
  obtain rfl := howned.close s.scopes rfl rfl hend
  exact nothing rfl rfl

/-! ## Conditionals, loops and calls -/

/-- The run of a loop: its condition is looked up before the body and once more after it. -/
theorem run_whileStatements {c : Atom} {inner : List Node} {s t : Evaluator}
    (h : run (whileStatements c inner) s = .ok () t) :
    ∃ o f u o' f' v, s.scopes.resolve c = .ok (.address o) ∧ Frame.beginLoop o s.frame = .ok () f ∧
      run inner ⟨f, s.scopes.push⟩ = .ok () u ∧ u.scopes.resolve c = .ok (.address o') ∧
      Frame.endLoop o' u.frame = .ok () f' ∧
      evaluate Statement.envEnd ⟨f', u.scopes⟩ = .ok v t := by
  obtain ⟨w, hw, v, hclose⟩ := run_inScope_ok.1 h
  simp only [run_append_ok, run_single_ok] at hw
  obtain ⟨u, ⟨w₁, ⟨_, hbegin⟩, hinner⟩, _, hend⟩ := hw
  obtain ⟨o, f, ho, hf, rfl⟩ := evaluate_onCell Frame.beginLoop (fun _ => rfl) hbegin
  obtain ⟨o', f', ho', hf', rfl⟩ := evaluate_onCell Frame.endLoop (fun _ => rfl) hend
  rw [Scopes.resolve_push] at ho
  exact ⟨o, f, u, o', f', v, ho, hf, hinner, ho', hf', hclose⟩

/-- The run of a conditional: a loop on a copy of the condition, which is cleared at the end. -/
theorem run_expandedIf {c : Atom} {inner : List Node} {s t : Evaluator}
    (h : run (expandedIf c inner) s = .ok () t) :
    ∃ x f₁ src f₂ f₃ u y f₄ f₅ v, Frame.allocate s.frame = .ok x f₁ ∧
      (s.scopes.push.own [(conditionCopy, x)]).resolve c = .ok (.address src) ∧
      Frame.copy src x f₁ = .ok () f₂ ∧ Frame.beginLoop x f₂ = .ok () f₃ ∧
      run inner ⟨f₃, s.scopes.push.own [(conditionCopy, x)]⟩ = .ok () u ∧
      u.scopes.get conditionCopy = .ok (.address y) ∧ Frame.clear y u.frame = .ok () f₄ ∧
      Frame.endLoop y f₄ = .ok () f₅ ∧ evaluate Statement.envEnd ⟨f₅, u.scopes⟩ = .ok v t := by
  obtain ⟨w, hw, v, hclose⟩ := run_inScope_ok.1 h
  simp only [run_append_ok, run_cons_ok (n := Statement.invoke .copy _),
    run_cons_ok (n := Statement.invoke .clear _), run_single_ok] at hw
  obtain ⟨u, ⟨w₂, ⟨w₁, hlocal, _, w₁', hcopy, _, hbegin⟩, hinner⟩, _, w₃, hclear, _, hend⟩ := hw
  obtain ⟨x, f₁, hx, rfl⟩ := run_localStatements hlocal
  have hname : (s.scopes.push.own [(conditionCopy, x)]).get conditionCopy = .ok (.address x) := by
    simp [Scopes.own, Scopes.get, Scopes.releaseOnExit, Scopes.bindName, lookupIn]
  obtain ⟨src, dst, f₂, hsrc, hdst, hf₂, rfl⟩ := evaluate_onCells Frame.copy (fun _ _ => rfl) hcopy
  cases hname.symm.trans hdst
  obtain ⟨o, f₃, ho, hf₃, rfl⟩ := evaluate_onCell Frame.beginLoop (fun _ => rfl) hbegin
  cases hname.symm.trans ho
  obtain ⟨y, f₄, hy, hf₄, rfl⟩ := evaluate_onCell Frame.clear (fun _ => rfl) hclear
  obtain ⟨y', f₅, hy', hf₅, rfl⟩ := evaluate_onCell Frame.endLoop (fun _ => rfl) hend
  cases hy.symm.trans hy'
  exact ⟨x, f₁, src, f₂, f₃, u, y, f₄, f₅, v, hx, hsrc, hf₂, hf₃, hinner, hy, hf₄, hf₅, hclose⟩

/-- The run of a call: the body is run in a scope around which the parameters are bound. -/
theorem run_expandedCall {params : List String} {args : List Atom} {inner : List Node}
    {s t : Evaluator} (hlen : params.length = args.length)
    (h : run (expandedCall params args inner) s = .ok () t) :
    ∃ values u v, s.scopes.resolveEach args = .ok values ∧
      run (Statement.inScope inner) ⟨s.frame,
        s.scopes.push.bindNames (params.map .visible) values⟩ = .ok () u ∧
      evaluate Statement.envEnd u = .ok v t := by
  obtain ⟨w, hw, v, hclose⟩ := run_inScope_ok.1 h
  obtain ⟨w₁, hparams, hbody⟩ := run_append_ok.1 hw
  obtain ⟨values, hvalues, rfl⟩ := run_bindParameters hlen hparams
  exact ⟨values, w, v, hvalues, hbody, hclose⟩

/-- Whatever the body of a conditional, a loop or a call takes is given back at its end. -/
theorem Owns.ofIf {c : Atom} {inner : List Node} {s t : Evaluator}
    (hinner : ∀ s t, run inner s = .ok () t → ∃ owned, Owns s owned t)
    (h : run (expandedIf c inner) s = .ok () t) : Owns s [] t := by
  obtain ⟨x, f₁, src, f₂, f₃, u, y, f₄, f₅, v, hx, -, hcopy, hbegin, hrun, -, hclear, hend,
      hclose⟩ :=
    run_expandedIf h
  obtain ⟨owned, howned⟩ := hinner _ _ hrun
  have hcells₃ : f₃.cells = f₁.cells :=
    (Frame.cells_emit hbegin).trans ((Frame.restores_compositional.copy src x).1 _ _ _ hcopy)
  have hcells₅ : f₅.cells = u.frame.cells := (Frame.cells_emit hend).trans (Frame.cells_emit hclear)
  have hbody : Owns ⟨f₁, s.scopes.push.own [(conditionCopy, x)]⟩ owned ⟨f₅, u.scopes⟩ :=
    howned.congr rfl hcells₃.symm rfl hcells₅
  have hall := (Owns.allocate (s := ⟨s.frame, s.scopes.push⟩) hx).trans hbody
  obtain rfl := hall.close s.scopes rfl rfl hclose
  exact .nothing rfl rfl

theorem Owns.ofWhile {c : Atom} {inner : List Node} {s t : Evaluator}
    (hinner : ∀ s t, run inner s = .ok () t → ∃ owned, Owns s owned t)
    (h : run (whileStatements c inner) s = .ok () t) : Owns s [] t := by
  obtain ⟨o, f, u, o', f', v, -, hbegin, hrun, -, hend, hclose⟩ := run_whileStatements h
  obtain ⟨owned, howned⟩ := hinner _ _ hrun
  have hall : Owns ⟨s.frame, s.scopes.push⟩ owned ⟨f', u.scopes⟩ :=
    howned.congr rfl (Frame.cells_emit hbegin).symm rfl (Frame.cells_emit hend)
  obtain rfl := hall.close s.scopes rfl rfl hclose
  exact .nothing rfl rfl

theorem Owns.ofCall {params : List String} {args : List Atom} {inner : List Node} {s t : Evaluator}
    (hlen : params.length = args.length)
    (hinner : ∀ s t, run inner s = .ok () t → ∃ owned, Owns s owned t)
    (h : run (expandedCall params args inner) s = .ok () t) : Owns s [] t := by
  obtain ⟨values, u, v, -, hbody, hclose⟩ := run_expandedCall hlen h
  have hall := Owns.inScope (fun w hw => hinner _ w hw) hbody
  obtain rfl := hall.close s.scopes (by simp; rfl) (by simp; rfl) hclose
  exact .nothing rfl rfl

end Evaluator

open Evaluator (run Owns run_append_ok)

/-- A block adds its own cells, under its own names in order, and nothing else. -/
theorem Expands.owns {p : MacroProgram} {block : Block} {nodes : List Node}
    (h : Expands p block nodes) {s t : Evaluator} (hrun : run nodes s = .ok () t) :
    ∃ owned, owned.map (·.1) = block.locals.map Symbol.visible ∧ Owns s owned t := by
  induction h generalizing s t with
  | done =>
    cases hrun
    exact ⟨[], rfl, .nothing rfl rfl⟩
  | localCell _ ih =>
    obtain ⟨u, hlocal, hrest⟩ := run_append_ok.1 hrun
    obtain ⟨o, f, hf, rfl⟩ := Evaluator.run_localStatements hlocal
    obtain ⟨owned, hnames, hcells⟩ := ih hrest
    exact ⟨_ :: owned, by rw [List.map_cons, hnames]; rfl, (Owns.allocate hf).trans hcells⟩
  | ifNonzero _ _ ihbody ihrest =>
    obtain ⟨u, hif, hrest⟩ := run_append_ok.1 hrun
    obtain ⟨owned, hnames, hcells⟩ := ihrest hrest
    have hnothing : Owns s [] u := .ofIf (fun _ _ h => (ihbody h).imp fun _ => And.right) hif
    exact ⟨owned, hnames, hnothing.trans hcells⟩
  | whileNonzero _ _ ihbody ihrest =>
    obtain ⟨u, hwhile, hrest⟩ := run_append_ok.1 hrun
    obtain ⟨owned, hnames, hcells⟩ := ihrest hrest
    have hnothing : Owns s [] u := .ofWhile (fun _ _ h => (ihbody h).imp fun _ => And.right) hwhile
    exact ⟨owned, hnames, hnothing.trans hcells⟩
  | callMacro hfind hlen _ _ ihbody ihrest =>
    obtain ⟨u, hcall, hrest⟩ := run_append_ok.1 hrun
    obtain ⟨owned, hnames, hcells⟩ := ihrest hrest
    have hnothing : Owns s [] u :=
      .ofCall hlen (fun _ _ h => (ihbody h).imp fun _ => And.right) hcall
    exact ⟨owned, hnames, hnothing.trans hcells⟩
  | @callBuiltin f args b _ _ _ _ _ ih =>
    obtain ⟨u, hu, hrest⟩ := (run_append_ok (a := [Statement.invoke b args])).1 hrun
    obtain ⟨owned, hnames, hcells⟩ := ih hrest
    exact ⟨owned, hnames, (Owns.invoke hu).trans hcells⟩
  | @builtin b args _ _ _ ih =>
    obtain ⟨u, hu, hrest⟩ := (run_append_ok (a := [Statement.invoke b args])).1 hrun
    obtain ⟨owned, hnames, hcells⟩ := ih hrest
    exact ⟨owned, hnames, (Owns.invoke hu).trans hcells⟩

theorem Expands.owns_something {p : MacroProgram} {block : Block} {nodes : List Node}
    (h : Expands p block nodes) (s t : Evaluator) (hrun : run nodes s = .ok () t) :
    ∃ owned, Owns s owned t :=
  (h.owns hrun).imp fun _ => And.right

end TapeToolchain
