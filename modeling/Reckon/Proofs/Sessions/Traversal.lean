import Reckon.Proofs.Sessions.Rounds

/-! # What the steps of a session are made of

A session does few things itself: it reads tokens and forms, compiles them, evaluates bare
expressions and writes. A property that these steps have, and that is kept where steps are put
together, is one of rounds and of whole runs.
-/

namespace Reckon.Session

/-- Reports the value of a bare expression, if there is one. -/
def tellValue (value : Option (Except Ir.Error Double)) : Act Unit :=
  match value with
  | some (.ok value) => writeLine s!"Evaluated to {value.plain}"
  | some (.error e) => report e.message
  | none => pure ()

/-- Compiles a form that was read, and reports it. -/
def takeForm (form : Form) : Act Unit := do
  match ← compileForm form with
  | .error e => report e.message
  | .ok id =>
    writeLine form.heading
    write ((← get).backend.target.textOf id)
    if form.isBare then evaluateBare id else pure ()

/-- A property of steps that those which take a form and report it have, and whatever is put
    together from them without a look at the parser or the output. -/
structure Reporting (P : (α : Type) → Act α → Prop) : Prop where
  pure (a : α) : P α (pure a)
  bind {x : Act α} {f : α → Act β} : P α x → (∀ a, P β (f a)) → P β (x >>= f)
  look {f : Session → Act β} : (∀ s parser sink, f { s with parser, sink } = f s) →
    (∀ s, P β (f s)) → P β (get >>= f)
  write (text : String) : P _ (write text)
  compileForm (form : Form) : P _ (compileForm form)
  /-- What is told of a value is told once the function is gone. -/
  evaluateBare (id : Ir.FunctionId) : (∀ value, P _ (tellValue value)) → P _ (evaluateBare id)

namespace Reporting

variable {P : (α : Type) → Act α → Prop} (reporting : Reporting P)
include reporting

theorem report (message : String) : P _ (report message) := reporting.write _

theorem prompt : P _ prompt := by
  apply reporting.look fun _ _ _ => rfl
  intro s
  split
  · exact reporting.write _
  · exact reporting.pure _

theorem tellValue (value : Option (Except Ir.Error Double)) : P _ (tellValue value) := by
  unfold Session.tellValue
  split
  · exact reporting.write _
  · exact reporting.report _
  · exact reporting.pure _

theorem takeForm (form : Form) : P _ (takeForm form) := by
  apply reporting.bind (reporting.compileForm form)
  intro compiled
  split
  · exact reporting.report _
  · apply reporting.bind (reporting.write _)
    intro _
    apply reporting.look fun _ _ _ => rfl
    intro s
    apply reporting.bind (reporting.write _)
    intro _
    split
    · exact reporting.evaluateBare _ reporting.tellValue
    · exact reporting.pure _

end Reporting

/-- The step has nothing to do with the output. -/
def IgnoresSink (x : Act α) : Prop :=
  ∀ s sink, Ensures x s (fun a t => t.sink = s.sink ∧ x { s with sink } = .ok a { t with sink })
    fun e t => t.sink = s.sink ∧ x { s with sink } = .error e { t with sink }

theorem IgnoresSink.advance : IgnoresSink advance := by
  intro s sink
  unfold Ensures Session.advance
  cases s.parser.advance <;> exact ⟨rfl, rfl⟩

theorem IgnoresSink.parseForm : IgnoresSink parseForm := by
  intro s sink
  unfold Ensures Session.parseForm
  cases Parser.form s.parser <;> exact ⟨rfl, rfl⟩

theorem IgnoresSink.compileForm (form : Form) : IgnoresSink (compileForm form) := by
  intro s sink
  unfold Ensures Session.compileForm
  cases form.compile s.backend <;> exact ⟨rfl, rfl⟩

/-- A property of steps that all steps of a session have, and whatever is put together from them
    without a look at the output. -/
structure Closed (P : (α : Type) → Act α → Prop) : Prop extends Reporting P where
  throw (e : SessionError) : P α (throw e)
  get {f : Session → Act β} : (∀ s sink, f { s with sink } = f s) → (∀ s, P β (f s)) →
    P β (get >>= f)
  advance : P _ advance
  parseForm : P _ parseForm

namespace Closed

variable {P : (α : Type) → Act α → Prop} (closed : Closed P)
include closed

theorem recover (e : ParseError) : P _ (recover e) := by
  unfold Session.recover
  split
  · exact closed.throw _
  · apply closed.bind (closed.report _)
    intro _
    apply closed.get fun _ _ => rfl
    intro s
    split
    · exact closed.pure _
    · exact closed.pure _
    · exact closed.pure _
    · exact closed.advance

theorem handleForm : P _ handleForm := by
  apply closed.bind closed.parseForm
  intro parsed
  split
  · exact closed.recover _
  · exact closed.takeForm _

theorem round : P _ round := by
  apply closed.get fun _ _ => rfl
  intro s
  split
  · exact closed.pure _
  · exact closed.bind closed.advance fun _ => closed.pure _
  · apply closed.bind closed.handleForm
    intro _
    exact closed.bind closed.prompt fun _ => closed.pure _

theorem rounds (count : Nat) : P _ (rounds count) := by
  induction count with
  | zero => exact closed.pure _
  | succ count ih =>
      apply closed.bind closed.round
      intro more
      split
      · exact ih
      · exact closed.pure _

theorem begin : P _ begin := closed.bind closed.prompt fun _ => closed.advance

theorem allRounds : P _ allRounds := by
  have counts : Session.allRounds =
      (do Session.rounds ((← MonadState.get).parser.left + 1) : Act Unit) := rfl
  rw [counts]
  apply closed.get fun _ _ => rfl
  exact fun s => closed.rounds _

theorem run : P _ run := by
  rw [run_eq]
  apply closed.bind closed.begin
  intro _
  apply closed.bind closed.allRounds
  intro _
  apply closed.get fun _ _ => rfl
  exact fun s => closed.write _

end Closed

end Reckon.Session
