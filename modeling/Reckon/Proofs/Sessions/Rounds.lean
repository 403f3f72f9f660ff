import Reckon.Proofs.Sessions.Passages

/-! # Rounds of a session

As long as the output works, a round does to the session what the parser's part in it says: the
next round starts where the parser says, the module is what the forms that were read make of it,
and the output grows by what the session's voice says of the round. What fails is a read, and that
ends the session.
-/

namespace Reckon

namespace Backend

def valueText (b : Backend) (evaluate : Bool) (id : Ir.FunctionId) : String :=
  match if evaluate then b.evaluate id else none with
  | some (.ok value) => s!"Evaluated to {value.plain}" ++ "\n"
  | some (.error e) => s!"Error: {e.message}" ++ "\n"
  | none => ""

/-- What is reported of a form. -/
def report (b : Backend) (evaluate : Bool) (form : Form) : String :=
  match form.compile b with
  | .error e _ => s!"Error: {e.message}" ++ "\n"
  | .ok id b => form.heading ++ "\n" ++ b.target.textOf id ++
      if form.isBare then b.valueText evaluate id else ""

end Backend

namespace Session

/-- The session has gone on from `s` to `t`: its parser is now `p`, and it took these forms. -/
structure Follows (s t : Session) (p : Parser) (forms : List Form) : Prop where
  parser : t.parser = p
  backend : t.backend = s.backend.takeAll forms
  options : t.options = s.options
  works : t.sink.failure = none
  grows : ∃ more, t.sink.written = s.sink.written ++ more

theorem Follows.refl {s : Session} (works : s.sink.failure = none) : Follows s s s.parser [] :=
  ⟨rfl, rfl, rfl, works, .empty, ByteArray.append_empty.symm⟩

theorem Follows.trans {s t u : Session} {p q : Parser} {first second : List Form}
    (h : Follows s t p first) (more : Follows t u q second) : Follows s u q (first ++ second) := by
  obtain ⟨written, grown⟩ := h.grows
  obtain ⟨further, grownMore⟩ := more.grows
  refine ⟨more.parser, ?_, more.options.trans h.options, more.works, written ++ further, ?_⟩
  · rw [more.backend, h.backend, Backend.takeAll, Backend.takeAll, Backend.takeAll,
      List.foldl_append]
  · rw [grownMore, grown, ByteArray.append_assoc]

def wrote (s : Session) (text : String) : Session :=
  { s with sink := { s.sink with written := s.sink.written ++ text.toUTF8 } }

theorem wrote_wrote (s : Session) (first second : String) :
    (s.wrote first).wrote second = s.wrote (first ++ second) := by
  have bytes : (first ++ second).toUTF8 = first.toUTF8 ++ second.toUTF8 := ByteArray.ext rfl
  simp only [wrote, bytes, ByteArray.append_assoc]

theorem wrote_empty (s : Session) : s.wrote "" = s := by
  have bytes : s.sink.written ++ "".toUTF8 = s.sink.written := ByteArray.append_empty
  simp only [wrote, bytes]

theorem write_eq {s : Session} (works : s.sink.failure = none) (text : String) :
    write text s = .ok () (s.wrote text) := by
  simp only [write, Sink.write, works, wrote]

theorem follows_wrote {s : Session} (works : s.sink.failure = none) (text : String) :
    Follows s (s.wrote text) s.parser [] := ⟨rfl, rfl, rfl, works, _, rfl⟩

/-- The step writes, and does nothing else. -/
def Talks (x : Act Unit) : Prop :=
  ∀ s, s.sink.failure = none → ∃ t, x s = .ok () t ∧ Follows s t s.parser []

theorem prompt_eq {s : Session} (works : s.sink.failure = none) :
    prompt s = .ok () (s.wrote (if s.options.prompt then "ready> " else "")) := by
  change (if s.options.prompt then write "ready> " else pure () : Act Unit) s = _
  cases s.options.prompt with
  | true => exact write_eq works _
  | false => exact congrArg (EStateM.Result.ok ()) (wrote_empty s).symm

theorem Talks.prompt : Talks prompt :=
  fun _ works => ⟨_, prompt_eq works, follows_wrote works _⟩

theorem evaluateBare_eq {s : Session} (works : s.sink.failure = none) (id : Ir.FunctionId) :
    evaluateBare id s = .ok () ({ s with backend := s.backend.remove id }.wrote
      (s.backend.valueText s.options.evaluate id)) := by
  let removed : Session := { s with backend := s.backend.remove id }
  have got : (get : Act Session) s = .ok s s := rfl
  simp only [evaluateBare, bind_of_ok got, Backend.valueText]
  generalize (if s.options.evaluate = true then s.backend.evaluate id else none) = value
  cases value with
  | none => exact congrArg (EStateM.Result.ok ()) (wrote_empty removed).symm
  | some result => cases result <;> exact write_eq (s := removed) works _

def announced (s : Session) (f : Form) (id : Ir.FunctionId) : Session :=
  (s.wrote (f.heading ++ "\n")).wrote (s.backend.target.textOf id)

theorem announce_bind {s : Session} (works : s.sink.failure = none) (f : Form)
    (id : Ir.FunctionId) (rest : Act Unit) :
    (do
      writeLine f.heading
      write ((← get).backend.target.textOf id)
      rest : Act Unit) s = rest (s.announced f id) := by
  have heading : writeLine f.heading s = .ok () (s.wrote (f.heading ++ "\n")) := write_eq works _
  have text : write (s.backend.target.textOf id) (s.wrote (f.heading ++ "\n")) =
      .ok () (s.announced f id) := write_eq (follows_wrote works _).works _
  exact (bind_of_ok heading).trans (bind_of_ok text)

/-- A form that was read is taken by the backend and reported. -/
theorem handleForm_eq {s : Session} (works : s.sink.failure = none) {f : Form} {q : Parser}
    (read : Parser.form s.parser = .ok f q) :
    handleForm s = .ok () ({ s with parser := q, backend := s.backend.take f }.wrote
      (s.backend.report s.options.evaluate f)) := by
  have parsed : parseForm s = .ok (.ok f) { s with parser := q } := by
    simp only [parseForm, read]
  rw [handleForm, bind_of_ok parsed]
  cases run : f.compile s.backend with
  | error e b =>
      have compiled : compileForm f { s with parser := q } =
          .ok (.error e) { s with parser := q, backend := b } := by
        simp only [compileForm, run]
      simp only [bind_of_ok compiled, Backend.take, Backend.report, run]
      exact write_eq (s := { s with parser := q, backend := b }) works _
  | ok id b =>
      let t : Session := { s with parser := q, backend := b }
      have compiled : compileForm f { s with parser := q } = .ok (.ok id) t := by
        simp only [compileForm, run, t]
      have told : t.announced f id = t.wrote (f.heading ++ "\n" ++ b.target.textOf id) :=
        wrote_wrote t _ _
      simp only [bind_of_ok compiled, Backend.take, Backend.report, run]
      rw [announce_bind (s := t) works f id, told]
      cases f.isBare with
      | true =>
          refine (evaluateBare_eq (s := t.wrote _) works id).trans ?_
          exact congrArg (EStateM.Result.ok ()) (wrote_wrote { t with backend := b.remove id } _ _)
      | false =>
          simp only [Bool.false_eq_true, if_false, String.append_empty]
          rfl

theorem handleForm_of_error {s : Session} {e : ParseError} {q : Parser}
    (bad : Parser.form s.parser = .error e q) :
    handleForm s = recover e { s with parser := q } := by
  have parsed : parseForm s = .ok (.error e) { s with parser := q } := by
    simp only [parseForm, bad]
  rw [handleForm, bind_of_ok parsed]

def reported (s : Session) (message : String) : Session := s.wrote (s!"Error: {message}" ++ "\n")

theorem recover_eq {e : ParseError} (notFailed : ∀ reason, e ≠ .read (.failed reason))
    {s : Session} (works : s.sink.failure = none) : recover e s =
      match Parser.resume e s.parser with
      | .ok () q => .ok () { s.reported e.message with parser := q }
      | .error e' q => .error (.parse e') { s.reported e.message with parser := q } := by
  have report : report e.message s = .ok () (s.reported e.message) := write_eq works _
  unfold recover
  split
  · next reason => exact absurd rfl (notFailed reason)
  · have got : (get : Act Session) (s.reported e.message) =
        .ok (s.reported e.message) (s.reported e.message) := rfl
    have same : (s.reported e.message).parser = s.parser := rfl
    rw [bind_of_ok report, bind_of_ok got, same]
    by_cases atStart : s.parser.AtStart
    · rw [Parser.resume_of_start notFailed atStart]
      rcases atStart with here | here | here <;> rw [here] <;> rfl
    · rw [Parser.resume_of_other notFailed atStart]
      cases here : s.parser.current with
      | eof => exact absurd (.inl here) atStart
      | define => exact absurd (.inr (.inl here)) atStart
      | declare => exact absurd (.inr (.inr here)) atStart
      | _ => rfl

theorem round_eq (s : Session) : round s = (match s.parser.current with
    | .eof => pure false
    | .char ';' => do advance; pure true
    | _ => do handleForm; prompt; pure true : Act Bool) s := rfl

theorem round_of_eof {s : Session} (here : s.parser.current = .eof) : round s = .ok false s := by
  rw [round_eq, here]
  rfl

theorem round_of_separator {s : Session} (here : s.parser.current = .char ';') :
    round s = (do advance; pure true : Act Bool) s := by
  rw [round_eq, here]
  rfl

theorem round_of_form {s : Session} (atForm : s.parser.AtForm) :
    round s = (do handleForm; prompt; pure true : Act Bool) s := by
  rw [round_eq]
  refine congrFun ?_ s
  split
  · next here => exact absurd here atForm.isToken
  · next here => exact absurd here atForm.noSeparator
  · rfl

theorem text_passage (s : Session) (form : Form) :
    (s.backend.passage form).text s.voice = s.backend.report s.options.evaluate form ++
      if s.options.prompt then "ready> " else "" := by
  have prompts : s.voice.options.prompt = s.options.prompt := rfl
  cases run : form.compile s.backend with
  | error e b =>
      simp only [Backend.passage, Backend.report, run, Passage.text, prompts, Bool.true_and]
      simp
  | ok id b =>
      obtain ⟨faults, canEvaluate⟩ := (form.compile_keeps_plan s.backend).of_ok run
      have asked : (if s.options.evaluate then b.evaluate id else none) =
          if s.voice.evaluates then b.target.evaluate id else none := by
        simp only [Backend.evaluate, faults, canEvaluate, voice, Voice.evaluates]
        by_cases wanted : s.options.evaluate = true <;> simp [wanted]
      have told : b.valueText s.options.evaluate id =
          if s.voice.evaluates then ((b.target.evaluate id).map valueLine).getD "" else "" := by
        rw [Backend.valueText, asked]
        cases s.voice.evaluates with
        | false => rfl
        | true => rcases b.target.evaluate id with _ | _ | _ <;> rfl
      simp only [Backend.passage, Backend.report, run, Passage.text, told, prompts, Bool.true_and]
      cases form.isBare <;> simp

/-- The session behind a round that left the parser there: a form was taken if there was one, and
    what the voice says of the round was written. -/
def behind (s : Session) (q : Parser) : Session :=
  { s with
    parser := q
    backend := s.backend.takeAll s.parser.form?.toList }.wrote (s.place.passage.text s.voice)

theorem follows_behind {s : Session} (works : s.sink.failure = none) (q : Parser) :
    Follows s (s.behind q) q s.parser.form?.toList := ⟨rfl, rfl, rfl, works, _, rfl⟩

/-- A round that has nothing to say and reads no form. -/
theorem behind_of_silent {s : Session} (silent : s.place.passage = {})
    (noForm : s.parser.form? = none) (q : Parser) : s.behind q = { s with parser := q } := by
  rw [behind, silent, Passage.text_empty, noForm]
  exact wrote_empty _

/-- Behind a form that could not be parsed the session has reported it, and prompts where it goes
    on. -/
theorem behind_of_mistake {s : Session} (atForm : s.parser.AtForm) {e : ParseError} {q : Parser}
    (bad : Parser.form s.parser = .error e q) (notFailed : ∀ reason, e ≠ .read (.failed reason))
    (r : Parser) : s.behind r = ({ s.reported e.message with parser := r } : Session).wrote
      (if (outcome (Parser.resume e) q).isOk && s.options.prompt then "ready> " else "") := by
  have text : s.place.passage.text s.voice = s!"Error: {e.message}" ++ "\n" ++
      if (outcome (Parser.resume e) q).isOk && s.options.prompt then "ready> " else "" := by
    rw [Place.passage_of_mistake (p := s.place) atForm bad notFailed]
    simp only [Passage.text, Option.map_none, Option.getD_none, ite_self, String.append_empty]
    rfl
  rw [behind, text, atForm.form?_of_error bad]
  exact (wrote_wrote { s with parser := r } _ _).symm

theorem round_of_handled {s t : Session} (atForm : s.parser.AtForm)
    (handled : handleForm s = .ok () t) (works : t.sink.failure = none) :
    round s = .ok true (t.wrote (if t.options.prompt then "ready> " else "")) :=
  (round_of_form atForm).trans ((bind_of_ok handled).trans (bind_of_ok (prompt_eq works)))

/-- A round does what the parser's part in it says, and writes what the voice says of it. -/
theorem round_speaks {s : Session} (works : s.sink.failure = none) :
    Ensures Parser.turn s.parser (fun more q => round s = .ok more (s.behind q))
      fun e q => round s = .error (.parse e) (s.behind q) := by
  rcases s.parser.turn_cases with here | here | atForm
  · simp only [Ensures, Parser.turn_of_eof here]
    rw [behind_of_silent (Place.passage_of_eof here) (Parser.form?_of_eof here)]
    exact round_of_eof here
  · have silent := behind_of_silent (s := s) (Place.passage_of_separator here)
      (Parser.form?_of_separator here)
    cases run : s.parser.advance with
    | ok _ q =>
        have moved : advance s = .ok () { s with parser := q } := by simp only [advance, run]
        simp only [Ensures, Parser.turn_of_separator here, bind_of_ok run, silent]
        exact (round_of_separator here).trans (bind_of_ok moved)
    | error e q =>
        have stuck : advance s = .error (.parse e) { s with parser := q } := by
          simp only [advance, run]
        simp only [Ensures, Parser.turn_of_separator here, bind_of_error run, silent]
        exact (round_of_separator here).trans (bind_of_error stuck)
  · cases run : Parser.form s.parser with
    | ok f q =>
        let took : Session := { s with parser := q, backend := s.backend.take f }
        have said : s.behind q = (took.wrote (s.backend.report s.options.evaluate f)).wrote
            (if s.options.prompt then "ready> " else "") := by
          rw [wrote_wrote, ← text_passage, behind,
            Place.passage_of_form (p := s.place) atForm run, atForm.form?_of_ok run, place,
            Backend.passage_mute]
          rfl
        simp only [Ensures, atForm.turn_of_ok run, said]
        exact round_of_handled atForm (handleForm_eq works run) works
    | error e q =>
        rcases e.failed_or with ⟨reason, rfl⟩ | notFailed
        · -- A failed source is passed on unreported.
          have silent := behind_of_silent (s := s)
            (Place.passage_of_failed (p := s.place) atForm run) (atForm.form?_of_error run)
          have handled : handleForm s =
              .error (.parse (.read (.failed reason))) { s with parser := q } :=
            handleForm_of_error run
          have failed : Parser.resume (.read (.failed reason)) q =
              .error (.read (.failed reason)) q := rfl
          simp only [Ensures, atForm.turn_of_error run, bind_of_error failed, silent]
          exact (round_of_form atForm).trans (bind_of_error handled)
        · have said := behind_of_mistake atForm run notFailed
          have handled : handleForm s = recover e { s with parser := q } := handleForm_of_error run
          rw [recover_eq notFailed (s := { s with parser := q }) works] at handled
          cases resumed : Parser.resume e q with
          | ok _ r =>
              simp only [resumed] at handled
              simp only [Ensures, atForm.turn_of_error run, bind_of_ok resumed, said,
                outcome_of_ok resumed]
              exact round_of_handled atForm handled works
          | error e' r =>
              simp only [resumed] at handled
              simp only [Ensures, atForm.turn_of_error run, bind_of_error resumed, said,
                outcome_of_error resumed]
              rw [(round_of_form atForm).trans (bind_of_error handled)]
              exact congrArg (EStateM.Result.error _) (wrote_empty _).symm

/-- A round does to the session what the parser's part in it says. -/
theorem round_turn {s : Session} (works : s.sink.failure = none) :
    Ensures Parser.turn s.parser
      (fun more q => ∃ t, round s = .ok more t ∧ Follows s t q s.parser.form?.toList)
      fun e q => ∃ t, round s = .error (.parse e) t ∧ t.parser = q :=
  (round_speaks works).mono (fun _ q ran => ⟨_, ran, follows_behind works q⟩)
    fun _ _ failed => ⟨_, failed, rfl⟩

/-- The states in which rounds start, at most `count` of them. -/
def startsWithin : Nat → Session → List Session
  | 0, _ => []
  | count + 1, s => s :: match round s with
    | .ok true t => startsWithin count t
    | _ => []

/-- What comes before the first round. -/
def begin : Act Unit := do
  prompt
  advance

/-- The states in which the rounds of a run start. -/
def starts (s : Session) : List Session :=
  match begin s with
  | .ok () t => startsWithin (t.parser.left + 1) t
  | .error _ _ => []

/-- The forms that a run parses, in order. -/
def forms (s : Session) : List Form := s.starts.filterMap (·.parser.form?)

theorem parser_startsWithin {s : Session} (works : s.sink.failure = none) (count : Nat) :
    (startsWithin count s).map parser = s.parser.turnsWithin count := by
  induction count generalizing s with
  | zero => rfl
  | succ count ih =>
      have outcome := round_turn works
      simp only [startsWithin, Parser.turnsWithin, List.map_cons]
      cases run : s.parser.turn with
      | ok more q =>
          obtain ⟨t, ran, follows⟩ := outcome.of_ok run
          rw [ran]
          cases more with
          | false => rfl
          | true => exact congrArg (s.parser :: ·) (follows.parser ▸ ih follows.works)
      | error e q =>
          obtain ⟨t, ran, -⟩ := outcome.of_error run
          rw [ran]
          rfl

/-- A form that could not be parsed in the round from `s` is reported in the output of `t`. -/
def ReportedIn (s t : Session) : Prop :=
  s.parser.AtForm → ∀ e q, Parser.form s.parser = .error e q →
    ∃ more, t.sink.written = (s.reported e.message).sink.written ++ more

theorem ReportedIn.of_round {s t u : Session} (works : s.sink.failure = none)
    (run : round s = .ok true t) {p : Parser} {forms : List Form} (follows : Follows t u p forms) :
    s.ReportedIn u := by
  intro atForm e q bad
  cases turned : s.parser.turn with
  | error e' r => cases run.symm.trans ((round_speaks works).of_error turned)
  | ok more r =>
      cases run.symm.trans ((round_speaks works).of_ok turned)
      have notFailed : ∀ reason, e ≠ .read (.failed reason) := by
        rintro reason rfl
        cases turned.symm.trans (atForm.turn_of_error bad)
      rw [behind_of_mistake atForm bad notFailed] at follows
      let recovered : Session := { s.reported e.message with parser := r }
      exact ((follows_wrote (s := recovered) works _).trans follows).grows

/-- Rounds end well if all turns of the parser do, and else as the turn that fails. -/
theorem rounds_ensures {s : Session} (works : s.sink.failure = none) {count : Nat}
    (enough : s.parser.left < count) :
    Ensures (rounds count) s
      (fun _ t => (t.parser.current = .eof ∧ t.parser ∈ s.parser.turnsFrom) ∧
        Follows s t t.parser s.parser.formsFrom ∧ (∀ u ∈ startsWithin count s, u.ReportedIn t) ∧
        ∀ p ∈ s.parser.turnsFrom, ∀ e q, p.turn ≠ .error e q)
      fun e _ => ∃ p ∈ s.parser.turnsFrom, ∃ e' q, p.turn = .error e' q ∧ e = .parse e' := by
  induction count generalizing s with
  | zero => exact absurd enough (Nat.not_lt_zero _)
  | succ count ih =>
      have outcome := round_turn works
      cases run : s.parser.turn with
      | ok more q =>
          obtain ⟨t, ran, follows⟩ := outcome.of_ok run
          cases more with
          | false =>
              have atEnd := Parser.current_of_turn run
              cases ran.symm.trans (round_of_eof atEnd)
              simp only [Ensures, rounds, startsWithin, bind_of_ok ran, ran,
                Parser.turnsFrom_of_eof atEnd, Parser.formsFrom_of_eof atEnd, List.mem_singleton]
              refine ⟨⟨atEnd, rfl⟩, .refl works, ?_, ?_⟩
              · rintro u rfl atForm
                exact absurd atEnd atForm.isToken
              · rintro p rfl e q' failed
                cases run.symm.trans failed
          | true =>
              -- The round took something, so a smaller count is enough for the others.
              have taken : t.parser.left < s.parser.left :=
                follows.parser ▸ (Parser.turn_takes run).2
              have rest := ih follows.works (Nat.lt_of_lt_of_le taken (Nat.le_of_lt_succ enough))
              rw [follows.parser] at rest
              simp only [Ensures, rounds, startsWithin, bind_of_ok ran, ran,
                Parser.turnsFrom_of_ok run, Parser.formsFrom_of_ok run, List.mem_cons]
              refine rest.mono ?_ ?_
              · rintro _ v ⟨⟨atEnd, last⟩, further, reports, fine⟩
                refine ⟨⟨atEnd, .inr last⟩, follows.trans further, ?_, ?_⟩
                · rintro u (rfl | later)
                  · exact .of_round works ran further
                  · exact reports u later
                · rintro p (rfl | later) e q' failed
                  · cases run.symm.trans failed
                  · exact fine p later e q' failed
              · rintro e u ⟨p, mem, failed⟩
                exact ⟨p, .inr mem, failed⟩
      | error e q =>
          obtain ⟨t, ran, -⟩ := outcome.of_error run
          simp only [Ensures, rounds, bind_of_error ran, Parser.turnsFrom_of_error run]
          exact ⟨s.parser, List.mem_singleton_self _, e, q, run, rfl⟩

/-- The session with this to read. -/
def reading (s : Session) (table : Operators) (feed : Feed) : Session :=
  { s with parser := ⟨.eof, feed, table⟩ }

theorem run_eq : run = (do begin; allRounds; write (← get).backend.target.text : Act Unit) := by
  simp only [run, begin, bind_assoc]

theorem run_of_begin_error {s t : Session} {e : SessionError} (begun : begin s = .error e t) :
    run s = .error e t := by
  rw [run_eq]
  exact bind_of_error begun

theorem begin_speaks {s : Session} (works : s.sink.failure = none) :
    Ensures Parser.advance s.parser
      (fun _ p => begin s = .ok () ({ s with parser := p }.wrote s.voice.opening))
      fun e p => begin s = .error (.parse e) ({ s with parser := p }.wrote s.voice.opening) := by
  have advanced : begin s = advance (s.wrote s.voice.opening) := bind_of_ok (prompt_eq works)
  have same : (s.wrote s.voice.opening).parser = s.parser := rfl
  cases run : s.parser.advance <;> simp only [Ensures, run, advanced, advance, same] <;> rfl

theorem begin_ensures {s : Session} (works : s.sink.failure = none) :
    Ensures Parser.advance s.parser (fun _ p => ∃ t, begin s = .ok () t ∧ Follows s t p [])
      fun e p => ∃ t, begin s = .error (.parse e) t ∧ t.parser = p :=
  (begin_speaks works).mono (fun _ _ begun => ⟨_, begun, rfl, rfl, rfl, works, _, rfl⟩)
    fun _ _ failed => ⟨_, failed, rfl⟩

theorem parser_starts {s : Session} (works : s.sink.failure = none) {p : Parser}
    (first : s.parser.advance = .ok () p) : s.starts.map parser = p.turnsFrom := by
  obtain ⟨t, begun, follows⟩ := (begin_ensures works).of_ok first
  simp only [starts, begun, parser_startsWithin follows.works, follows.parser]
  rfl

theorem forms_eq {s : Session} (works : s.sink.failure = none) {p : Parser}
    (first : s.parser.advance = .ok () p) : s.forms = p.formsFrom := by
  rw [Parser.formsFrom, ← parser_starts works first, List.filterMap_map]
  rfl

/-- A run ends behind its rounds with the module, unless a turn of the parser fails. -/
theorem run_ensures {s : Session} (works : s.sink.failure = none) {p : Parser}
    (first : s.parser.advance = .ok () p) :
    Ensures run s
      (fun _ t => ∃ u, t = u.wrote u.backend.target.text ∧
        (u.parser.current = .eof ∧ u.parser ∈ p.turnsFrom) ∧
        Follows s u u.parser p.formsFrom ∧ (∀ v ∈ s.starts, v.ReportedIn u) ∧
        ∀ q ∈ p.turnsFrom, ∀ e r, q.turn ≠ .error e r)
      fun e _ => ∃ q ∈ p.turnsFrom, ∃ e' r, q.turn = .error e' r ∧ e = .parse e' := by
  obtain ⟨t, begun, follows⟩ := (begin_ensures works).of_ok first
  have rest := rounds_ensures follows.works (Nat.lt_succ_self t.parser.left)
  have begins : run s = (do allRounds; write (← get).backend.target.text : Act Unit) t := by
    rw [run_eq]
    exact bind_of_ok begun
  have starts : s.starts = startsWithin (t.parser.left + 1) t := by
    simp only [Session.starts, begun]
  rw [follows.parser] at rest starts
  cases ran : allRounds t with
  | ok _ u =>
      have ranAll : rounds (p.left + 1) t = .ok () u := follows.parser ▸ ran
      obtain ⟨atEnd, further, reports, fine⟩ := rest.of_ok ranAll
      have dumped := write_eq further.works u.backend.target.text
      have whole : run s = .ok () (u.wrote u.backend.target.text) :=
        begins.trans ((bind_of_ok ran).trans dumped)
      simp only [Ensures, whole]
      exact ⟨u, rfl, atEnd, follows.trans further, starts ▸ reports, fine⟩
  | error e u =>
      have ranAll : rounds (p.left + 1) t = .error e u := follows.parser ▸ ran
      have whole : run s = .error e u := begins.trans (bind_of_error ran)
      simp only [Ensures, whole]
      exact rest.of_error ranAll

theorem run_of_turn_error {s : Session} (works : s.sink.failure = none) {p q r : Parser}
    {e : ParseError} (first : s.parser.advance = .ok () p) (mem : q ∈ p.turnsFrom)
    (failed : q.turn = .error e r) : ∃ t, run s = .error (.parse e) t := by
  have outcome := run_ensures works first
  cases ran : run s with
  | ok _ t =>
      obtain ⟨u, -, -, -, -, fine⟩ := outcome.of_ok ran
      exact absurd failed (fine q mem e r)
  | error e' t =>
      obtain ⟨q', mem', e'', r', failed', rfl⟩ := outcome.of_error ran
      obtain rfl := Parser.eq_of_turn_error mem mem' failed failed'
      cases failed.symm.trans failed'
      exact ⟨t, rfl⟩

end Session

end Reckon
