import TapeToolchain.Expansion.Session
import TapeToolchain.Proofs.Actions

/-!
Expansion with a memory. A session remembers desugared macros, and what it remembers is what
desugaring the macro again would give (`Desugared.Sound`). So a request to a session is answered as
if nothing were remembered, and what the session remembers afterwards is sound again
(`Desugared.Mirrors`). Expansion is one program, written over any way of desugaring; the two ways
are compared by going through it once, part by part. Since failing requests leave sound memories
too, this holds of requests one after the other, whatever comes of them
(`remembering_is_transparent`).
-/

namespace TapeToolchain

namespace Desugared

/-- An answer, with the memory that is left after it. -/
def outcome {α : Type} : Except CompileError α → Desugared → EStateM.Result CompileError Desugared α
  | .ok a, memory => .ok a memory
  | .error cause, memory => .error cause memory

/-- What is remembered of a macro is its desugared form. -/
def Sound (t : MacroTable) (limits : RoundLimits) (memory : Desugared) : Prop :=
  ∀ name d, memory.known.lookup name = some d → t.desugar limits.desugaring name = .ok d

theorem sound_empty (t : MacroTable) (limits : RoundLimits) : Sound t limits .empty :=
  fun _ _ h => by cases h

/-- From any sound memory, the request has this answer, and leaves a sound memory. -/
def Mirrors (t : MacroTable) (limits : RoundLimits) {α : Type} (x : Request α)
    (answer : Except CompileError α) : Prop :=
  ∀ memory, Sound t limits memory → ∃ after, x memory = outcome answer after ∧ Sound t limits after

namespace Mirrors

variable {t : MacroTable} {limits : RoundLimits}

theorem pure {α : Type} (a : α) : Mirrors t limits (pure a) (.ok a) :=
  fun memory h => ⟨memory, rfl, h⟩

theorem throw {α : Type} (c : CompileError) : Mirrors t limits (throw c : Request α) (.error c) :=
  fun memory h => ⟨memory, rfl, h⟩

theorem ofExcept {α : Type} (x : Except CompileError α) :
    Mirrors t limits (MonadExcept.ofExcept x) (MonadExcept.ofExcept x) := by
  cases x with
  | ok a => exact pure a
  | error c => exact throw c

theorem bind {α β : Type} {x : Request α} {answer : Except CompileError α} {f : α → Request β}
    {g : α → Except CompileError β} (hx : Mirrors t limits x answer)
    (hf : ∀ a, Mirrors t limits (f a) (g a)) : Mirrors t limits (x >>= f) (answer >>= g) := by
  intro memory h
  obtain ⟨middle, hmiddle, hsound⟩ := hx memory h
  cases answer with
  | ok a =>
    rw [bind_of_ok hmiddle]
    exact hf a middle hsound
  | error c => exact ⟨middle, bind_of_error hmiddle, hsound⟩

theorem map {α β : Type} {x : Request α} {answer : Except CompileError α}
    (hx : Mirrors t limits x answer) (f : α → β) : Mirrors t limits (f <$> x) (f <$> answer) := by
  rw [← bind_pure_comp, ← bind_pure_comp]
  exact bind hx fun a => pure (f a)

/-! ## Desugaring -/

theorem desugar (name : String) :
    Mirrors t limits (Desugared.desugar t limits name) (t.desugar limits.desugaring name) := by
  intro memory h
  unfold Desugared.desugar
  cases hknown : memory.known.lookup name with
  | some d => exact ⟨memory, by rw [h name d hknown]; rfl, h⟩
  | none =>
    cases hd : t.desugar limits.desugaring name with
    | error c => exact ⟨memory, rfl, h⟩
    | ok d =>
      refine ⟨⟨(name, d) :: memory.known⟩, rfl, ?_⟩
      intro other d' hother
      rw [List.lookup_cons] at hother
      split at hother
      · next hsame =>
        cases hother
        rw [eq_of_beq hsame, hd]
      · exact h other d' hother

/-! ## Inlining -/

theorem sweep {f : Node → Request (Option (List Node))}
    {g : Node → Except CompileError (Option (List Node))}
    (hstep : ∀ n, Mirrors t limits (f n) (g n)) (body : List Node) :
    Mirrors t limits (sweep f body) (sweep g body) := by
  induction body with
  | nil => exact pure _
  | cons n rest ih =>
    refine bind (hstep n) fun replacement => bind ih fun ⟨swept, changed⟩ => ?_
    cases replacement with
    | none => exact pure _
    | some new => exact pure _

theorem expandCall (callee : String) (arguments : List Node) :
    Mirrors t limits (Inlining.expandCall t (Desugared.desugar t limits) callee arguments)
      (Inlining.expandCall t (t.desugar limits.desugaring) callee arguments) := by
  unfold Inlining.expandCall
  cases t.find? callee with
  | none =>
    cases Builtin.ofName? callee with
    | none => exact throw _
    | some b => exact pure _
  | some _ =>
    apply bind (desugar callee)
    intro d
    split
    · exact pure _
    · exact throw _

theorem inline? (n : Node) :
    Mirrors t limits (Inlining.inline? t (Desugared.desugar t limits) n)
      (Inlining.inline? t (t.desugar limits.desugaring) n) := by
  unfold Inlining.inline?
  cases Inlining.callPattern.match? (.node n) with
  | none => exact pure _
  | some captures =>
    refine bind (ofExcept _) fun callee => bind (ofExcept _) fun arguments => ?_
    exact bind (expandCall callee arguments) fun _ => pure _

theorem rounds (limit : Nat) (body : List Node) :
    Mirrors t limits (Inlining.rounds t (Desugared.desugar t limits) limit body)
      (Inlining.rounds t (t.desugar limits.desugaring) limit body) := by
  induction limit generalizing body with
  | zero => exact pure _
  | succ limit ih =>
    apply bind (sweep inline? body)
    intro ⟨next, changed⟩
    cases changed with
    | true => exact ih next
    | false => exact pure _

theorem expand (entry : String) :
    Mirrors t limits (Desugared.expand t limits entry) (t.expand limits entry) := by
  refine bind (desugar entry) fun d => bind (rounds limits.inlining d.body) fun result => ?_
  cases result with
  | none => exact throw _
  | some body => exact pure _

end Mirrors

/-- A mirrored request is answered alike in every sound memory. -/
theorem answerOf_of_mirrors {t : MacroTable} {limits : RoundLimits} {α : Type} {x : Request α}
    {answer : Except CompileError α} (hx : Mirrors t limits x answer) {memory : Desugared}
    (hsound : Sound t limits memory) :
    answerOf x memory = answer ∧ Sound t limits (stateAfter x memory) := by
  obtain ⟨after, hafter, hnext⟩ := hx memory hsound
  rw [answerOf, stateAfter, hafter]
  cases answer with
  | ok a => exact ⟨rfl, hnext⟩
  | error c => exact ⟨rfl, hnext⟩

/-- The first expansion of a session is the one without a memory. -/
theorem answerOf_expand_empty (t : MacroTable) (limits : RoundLimits) (entry : String) :
    answerOf (expand t limits entry) .empty = t.expand limits entry :=
  (answerOf_of_mirrors (Mirrors.expand entry) (sound_empty t limits)).1

end Desugared

/-! ## Requests to a session -/

inductive SessionCall where
  | desugar (name : String)
  | expand (entry : String)

/-- What a request to a session gives if it does not fail. -/
inductive SessionAnswer where
  | definition (d : Definition)
  | body (statements : List Node)

namespace SessionCall

open Desugared

/-- The request, made to a session with what it remembers. -/
def onMemory (t : MacroTable) (limits : RoundLimits) : SessionCall → Request SessionAnswer
  | desugar name => .definition <$> Desugared.desugar t limits name
  | expand entry => .body <$> Desugared.expand t limits entry

/-- What is asked for, without a session. -/
def answer (t : MacroTable) (limits : RoundLimits) : SessionCall → Except CompileError SessionAnswer
  | desugar name => .definition <$> t.desugar limits.desugaring name
  | expand entry => .body <$> t.expand limits entry

variable (t : MacroTable) (limits : RoundLimits)

theorem mirrors_onMemory (call : SessionCall) :
    Mirrors t limits (call.onMemory t limits) (call.answer t limits) := by
  cases call with
  | desugar name => exact .map (.desugar name) _
  | expand entry => exact .map (.expand entry) _

/-- In a sound memory, all requests are answered as without a session, and the memory stays
sound. -/
theorem answersTo_onMemory (calls : List SessionCall) {memory : Desugared}
    (hsound : Sound t limits memory) :
    answersTo (onMemory t limits) calls memory = calls.map (answer t limits) ∧
      Sound t limits (afterRequests (onMemory t limits) calls memory) := by
  induction calls generalizing memory with
  | nil => exact ⟨rfl, hsound⟩
  | cons call calls ih =>
    obtain ⟨hanswer, hnext⟩ := answerOf_of_mirrors (mirrors_onMemory t limits call) hsound
    obtain ⟨hrest, hlast⟩ := ih hnext
    refine ⟨?_, hlast⟩
    rw [answersTo, hanswer, hrest, List.map_cons]

/-- **Remembering is transparent.** Make any requests to one session, desugarings and expansions in
any order, and go on when some fail. Each is answered, with its value or its failure, like the first
request of a new session on the same table with the same limits, and this is the answer of
desugaring and expansion without a memory. What is remembered in the end of a macro is what
desugaring it gives. -/
theorem remembering_is_transparent (calls : List SessionCall) :
    answersTo (onMemory t limits) calls .empty =
      calls.map (fun call => answerOf (call.onMemory t limits) .empty) ∧
    (∀ call : SessionCall, answerOf (call.onMemory t limits) .empty = call.answer t limits) ∧
    ∀ name d, (afterRequests (onMemory t limits) calls .empty).known.lookup name = some d →
      t.desugar limits.desugaring name = .ok d := by
  have hfirst : ∀ call : SessionCall, answerOf (call.onMemory t limits) .empty =
      call.answer t limits :=
    fun call => (answerOf_of_mirrors (mirrors_onMemory t limits call) (sound_empty t limits)).1
  obtain ⟨hanswers, hsound⟩ := answersTo_onMemory t limits calls (sound_empty t limits)
  refine ⟨?_, hfirst, hsound⟩
  rw [hanswers]
  exact List.map_congr_left fun call _ => (hfirst call).symm

/-- A macro that calls another one, and then one that does not exist. -/
def brokenTable : MacroTable :=
  ⟨[⟨"inner", [], [Statement.invoke .putStringConstant [.text "x"]]⟩,
    ⟨"main", [], [Statement.call "inner" [], Statement.call "absent" []]⟩]⟩

/-- An expansion fails after two macros have been desugared. What is asked for then is answered as
by new sessions. -/
theorem remembering_is_transparent_after_failure :
    (afterRequests (onMemory brokenTable ⟨8, 8⟩) [.expand "main"] .empty).known.map (·.1) =
      ["inner", "main"] ∧
    answersTo (onMemory brokenTable ⟨8, 8⟩) [.expand "main", .desugar "inner", .expand "inner",
      .expand "main"] .empty =
      [.error (.unknownMacro "absent"),
        answerOf (onMemory brokenTable ⟨8, 8⟩ (.desugar "inner")) .empty,
        answerOf (onMemory brokenTable ⟨8, 8⟩ (.expand "inner")) .empty,
        .error (.unknownMacro "absent")] := by
  refine ⟨by decide +kernel, ?_⟩
  obtain ⟨hanswers, hfirst, -⟩ := remembering_is_transparent brokenTable ⟨8, 8⟩
    [.expand "main", .desugar "inner", .expand "inner", .expand "main"]
  have hmain : answerOf (onMemory brokenTable ⟨8, 8⟩ (.expand "main")) .empty =
      .error (.unknownMacro "absent") := by
    rw [hfirst]
    rfl
  rw [hanswers, List.map_cons, List.map_cons, List.map_cons, List.map_singleton, hmain]

end SessionCall

end TapeToolchain
