import Reckon.Proofs.Parsing.Continuations
import Reckon.Proofs.Sessions.Traversal

/-! # Sessions whose input goes on

Between two reads a session compiles, evaluates and writes, and nothing of this looks at the parser.
So two sessions that differ in what their parsers have ahead do the same in a round, whatever
becomes of their outputs, unless the round makes one read more than the shorter input has events.
-/

namespace Reckon.Session

def withParser (s : Session) (p : Parser) : Session := { s with parser := p }

/-- The session with more behind the events that its parser has ahead. -/
def before (s : Session) (behind : Feed) : Session := s.withParser (s.parser.before behind)

theorem atForm_before {s : Session} (atForm : s.parser.AtForm) (behind : Feed) :
    (s.before behind).parser.AtForm := ⟨atForm.isToken, atForm.noSeparator⟩

/-- The step does the same with any parser, leaves the parser as it is, and fails only where
    writing fails. -/
def IgnoresParser (x : Act α) : Prop :=
  ∀ s, Ensures x s (fun a t => ∀ p, x (s.withParser p) = .ok a (t.withParser p))
    fun e t => (∃ reason, e = .write reason) ∧ ∀ p, x (s.withParser p) = .error e (t.withParser p)

namespace IgnoresParser

variable {x : Act α} {s t : Session}

theorem pure (a : α) : IgnoresParser (Pure.pure a) := fun _ _ => rfl

theorem bind {f : α → Act β} (first : IgnoresParser x) (rest : ∀ a, IgnoresParser (f a)) :
    IgnoresParser (x >>= f) := by
  intro s
  cases run : x s with
  | ok a t =>
      have same := (first s).of_ok run
      refine .intro (fun b u ran p => ?_) fun e u ran => ?_
      · rw [bind_of_ok (same p)]
        exact ((rest a) t).of_ok ((bind_of_ok run).symm.trans ran) p
      · obtain ⟨isWrite, same'⟩ := ((rest a) t).of_error ((bind_of_ok run).symm.trans ran)
        exact ⟨isWrite, fun p => (bind_of_ok (same p)).trans (same' p)⟩
  | error e t =>
      obtain ⟨isWrite, same⟩ := (first s).of_error run
      simp only [Ensures, bind_of_error run]
      exact ⟨isWrite, fun p => bind_of_error (same p)⟩

theorem get {f : Session → Act β} (blind : ∀ s p, f (s.withParser p) = f s)
    (rest : ∀ s, IgnoresParser (f s)) : IgnoresParser (MonadState.get >>= f) := by
  intro s
  refine .intro (fun b t run p => ?_) fun e t run => ?_
  · exact (congrFun (blind s p) _).trans (((rest s) s).of_ok run p)
  · obtain ⟨isWrite, same⟩ := ((rest s) s).of_error run
    exact ⟨isWrite, fun p => (congrFun (blind s p) _).trans (same p)⟩

theorem parser_of_ok {a : α} (h : IgnoresParser x) (run : x s = .ok a t) : t.parser = s.parser := by
  have same : x s = .ok a (t.withParser s.parser) := (h s).of_ok run s.parser
  rw [run] at same
  injection same with _ same
  exact (congrArg Session.parser same).trans rfl

theorem parser_of_error {e : SessionError} (h : IgnoresParser x) (run : x s = .error e t) :
    t.parser = s.parser := by
  have same : x s = .error e (t.withParser s.parser) := ((h s).of_error run).2 s.parser
  rw [run] at same
  injection same with _ same
  exact (congrArg Session.parser same).trans rfl

theorem alike (h : IgnoresParser x) (behind : Feed) (s : Session) :
    Ensures x s (fun a t => x (s.before behind) = .ok a (t.before behind))
      fun e t => x (s.before behind) = .error e (t.before behind) := by
  refine .intro (fun a t run => ?_) fun e t run => ?_
  · rw [before, before, h.parser_of_ok run]
    exact (h s).of_ok run _
  · rw [before, before, h.parser_of_error run]
    exact ((h s).of_error run).2 _

theorem write (text : String) : IgnoresParser (write text) := by
  intro s
  unfold Ensures Session.write
  rcases written : s.sink.write text with ⟨_ | reason, sink⟩
  · intro p
    simp only [withParser, written]
  · refine ⟨⟨reason, rfl⟩, fun p => ?_⟩
    simp only [withParser, written]

theorem compileForm (form : Form) : IgnoresParser (compileForm form) := by
  intro s
  unfold Ensures Session.compileForm
  cases compiled : form.compile s.backend <;> intro p <;> simp only [withParser, compiled]

theorem reporting : Reporting fun _ => IgnoresParser where
  pure := pure
  bind := bind
  look blind := get fun s p => blind s p s.sink
  write := write
  compileForm := compileForm
  evaluateBare id told s := by
    have told := told (if s.options.evaluate then s.backend.evaluate id else none)
      { s with backend := s.backend.remove id }
    exact .intro (fun a t run => told.of_ok run) fun e t run => told.of_error run

end IgnoresParser

section Rounds

variable {s t : Session} {p q : Parser} {e : ParseError}

theorem advance_of_ok (run : s.parser.advance = .ok () q) :
    advance s = .ok () (s.withParser q) := by
  simp only [advance, run, withParser]

theorem advance_of_error (run : s.parser.advance = .error e q) :
    advance s = .error (.parse e) (s.withParser q) := by
  simp only [advance, run, withParser]

theorem round_of_read (atForm : s.parser.AtForm) {f : Form}
    (read : Parser.form s.parser = .ok f q) :
    round s = (do takeForm f; prompt; pure true : Act Bool) (s.withParser q) := by
  have parsed : parseForm s = .ok (.ok f) (s.withParser q) := by
    simp only [parseForm, read, withParser]
  have handled : handleForm s = takeForm f (s.withParser q) := bind_of_ok parsed
  exact (round_of_form atForm).trans (bind_of_eq handled)

theorem round_of_mistake (atForm : s.parser.AtForm) (bad : Parser.form s.parser = .error e q) :
    round s = (do recover e; prompt; pure true : Act Bool) (s.withParser q) := by
  have handled : handleForm s = recover e (s.withParser q) := handleForm_of_error bad
  exact (round_of_form atForm).trans (bind_of_eq handled)

section Recover

variable (notFailed : ∀ reason, e ≠ .read (.failed reason))
include notFailed

theorem recover_bind : recover e s = (do
    report e.message
    match (← get).parser.current with
    | .eof | .define | .declare => pure ()
    | _ => advance : Act Unit) s := by
  unfold recover
  split
  · next reason => exact absurd rfl (notFailed reason)
  · rfl

theorem recover_of_report_error {e' : SessionError} (reported : report e.message s = .error e' t) :
    recover e s = .error e' t :=
  (recover_bind notFailed).trans (bind_of_error reported)

theorem recover_of_start (reported : report e.message s = .ok () t) (atStart : t.parser.AtStart) :
    recover e s = .ok () t := by
  have got : (get : Act Session) t = .ok t t := rfl
  rw [recover_bind notFailed, bind_of_ok reported, bind_of_ok got]
  rcases atStart with here | here | here <;> rw [here] <;> rfl

theorem recover_of_other (reported : report e.message s = .ok () t) (other : ¬t.parser.AtStart) :
    recover e s = advance t := by
  have got : (get : Act Session) t = .ok t t := rfl
  rw [recover_bind notFailed, bind_of_ok reported, bind_of_ok got]
  refine congrFun ?_ t
  split
  · next here => exact absurd (.inl here) other
  · next here => exact absurd (.inr (.inl here)) other
  · next here => exact absurd (.inr (.inr here)) other
  · rfl

end Recover

/-- What a round comes to, whether the events that the parser has ahead end or go on: the same, or
    one read more than there are events: behind a `;`, in a form, or to skip a token. -/
inductive RoundAlike (behind : Feed) (s : Session) : Prop where
  | ok (more : Bool) (t : Session) :
    round s = .ok more t → round (s.before behind) = .ok more (t.before behind) →
    RoundAlike behind s
  | error (e : SessionError) (t : Session) :
    round s = .error e t → round (s.before behind) = .error e (t.before behind) →
    RoundAlike behind s
  | separator : s.parser.current = .char ';' → s.parser.feed.events = [] → RoundAlike behind s
  | form (q : Parser) : s.parser.AtForm → q.feed.events = [] →
    Parser.ComesTo Parser.form s.parser q →
    Parser.ComesTo Parser.form (s.parser.before behind) (q.before behind) → RoundAlike behind s
  | skip (e : ParseError) (q : Parser) (t : Session) : s.parser.AtForm →
    Parser.form s.parser = .error e q →
    Parser.form (s.parser.before behind) = .error e (q.before behind) →
    (∀ reason, e ≠ .read (.failed reason)) → ¬q.AtStart →
    report e.message (s.withParser q) = .ok () t → q.feed.events = [] → RoundAlike behind s

theorem RoundAlike.of_ensures {behind : Feed} (h : Ensures round s
    (fun more t => round (s.before behind) = .ok more (t.before behind))
    fun e t => round (s.before behind) = .error e (t.before behind)) : RoundAlike behind s := by
  cases run : round s with
  | ok more t => exact .ok more t run (h.of_ok run)
  | error e t => exact .error e t run (h.of_error run)

/-- A round goes on as the steps behind a form do, whatever becomes of the form. -/
theorem RoundAlike.of_step {behind : Feed} {x : Act Bool} (u : Session) (alone : round s = x u)
    (all : round (s.before behind) = x (u.before behind)) (h : Ensures x u
      (fun more t => x (u.before behind) = .ok more (t.before behind))
      fun e t => x (u.before behind) = .error e (t.before behind)) : RoundAlike behind s := by
  refine .of_ensures (.intro (fun more t run => ?_) fun e t run => ?_)
  · exact all.trans (h.of_ok (alone.symm.trans run))
  · exact all.trans (h.of_error (alone.symm.trans run))

theorem advance_alike (more : s.parser.feed.events ≠ []) (behind : Feed) :
    Ensures advance s (fun _ t => advance (s.before behind) = .ok () (t.before behind))
      fun e t => advance (s.before behind) = .error e (t.before behind) := by
  have same := Parser.advance_before more behind
  cases run : s.parser.advance with
  | ok _ q =>
      simp only [Ensures, advance_of_ok run]
      exact advance_of_ok (s := s.before behind) (same.of_ok run)
  | error e q =>
      simp only [Ensures, advance_of_error run]
      exact advance_of_error (s := s.before behind) (same.of_error run)

theorem alike_bind {x : Act α} {y : Act β} {behind : Feed}
    (h : Ensures x s (fun a t => x (s.before behind) = .ok a (t.before behind))
      fun e t => x (s.before behind) = .error e (t.before behind)) (rest : IgnoresParser y) :
    Ensures (do let _ ← x; y) s
      (fun b t => (do let _ ← x; y : Act β) (s.before behind) = .ok b (t.before behind))
      fun e t => (do let _ ← x; y : Act β) (s.before behind) = .error e (t.before behind) := by
  cases run : x s with
  | ok a t =>
      have same := rest.alike behind t
      refine .intro (fun b u ran => ?_) fun e u ran => ?_
      · exact (bind_of_ok (h.of_ok run)).trans (same.of_ok ((bind_of_ok run).symm.trans ran))
      · exact (bind_of_ok (h.of_ok run)).trans (same.of_error ((bind_of_ok run).symm.trans ran))
  | error e t =>
      simp only [Ensures, bind_of_error run]
      exact bind_of_error (h.of_error run)

theorem round_alike (behind : Feed) (s : Session) : RoundAlike behind s := by
  have goesOn : IgnoresParser (do prompt; pure true : Act Bool) :=
    IgnoresParser.reporting.prompt.bind fun _ => .pure _
  rcases s.parser.turn_cases with here | here | atForm
  · exact .ok false s (round_of_eof here) (round_of_eof (s := s.before behind) here)
  · by_cases none : s.parser.feed.events = []
    · exact .separator here none
    · exact .of_step s (round_of_separator here) (round_of_separator (s := s.before behind) here)
        (alike_bind (advance_alike none behind) (.pure true))
  · have atFormToo := atForm_before atForm behind
    cases Parser.form_alike behind s.parser with
    | ok f q read read' =>
        exact .of_step (s.withParser q) (round_of_read atForm read)
          (round_of_read (s := s.before behind) atFormToo read')
          (((IgnoresParser.reporting.takeForm f).bind fun _ => goesOn).alike behind _)
    | error e q bad bad' =>
        have alone := round_of_mistake atForm bad
        have all := round_of_mistake (s := s.before behind) atFormToo bad'
        rcases e.failed_or with ⟨reason, rfl⟩ | notFailed
        · exact .error _ _ alone all
        · have reports := (IgnoresParser.reporting.report e.message).alike behind (s.withParser q)
          cases reported : report e.message (s.withParser q) with
          | error e' t =>
              refine .error e' t (alone.trans ?_) (all.trans ?_)
              · exact bind_of_error (recover_of_report_error notFailed reported)
              · exact bind_of_error (recover_of_report_error notFailed
                  (s := (s.withParser q).before behind) (reports.of_error reported))
          | ok _ t =>
              have stands : t.parser = q := (IgnoresParser.reporting.report _).parser_of_ok reported
              have reported' := reports.of_ok reported
              by_cases atStart : q.AtStart
              · have startsHere : t.parser.AtStart := stands ▸ atStart
                refine .of_step t (alone.trans ?_) (all.trans ?_) (goesOn.alike behind t)
                · exact bind_of_ok (recover_of_start notFailed reported startsHere)
                · exact bind_of_ok (recover_of_start (s := (s.withParser q).before behind)
                    notFailed reported' startsHere)
              · by_cases none : q.feed.events = []
                · exact .skip e q t atForm bad bad' notFailed atStart reported none
                · have other : ¬t.parser.AtStart := stands ▸ atStart
                  refine .of_step (x := do advance; prompt; pure true) t (alone.trans ?_)
                    (all.trans ?_) (alike_bind (advance_alike (stands ▸ none) behind) goesOn)
                  · exact bind_of_eq (recover_of_other notFailed reported other)
                  · exact bind_of_eq (recover_of_other (s := (s.withParser q).before behind)
                      notFailed reported' other)
    | beyond q none comes comes' => exact .form q atForm none comes comes'

end Rounds

end Reckon.Session
