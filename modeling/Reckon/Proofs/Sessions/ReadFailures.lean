import Reckon.Proofs.Reading.Cutoffs
import Reckon.Proofs.Sessions.Endings
import Reckon.Proofs.Sessions.Moments

/-! # Sessions whose source fails

A failure to read only cuts a session short. Up to the first read that asks for more than the lines
which are complete before the failure, the session does what it would do if the source did not fail;
and at that read it ends, with nothing said of the failure and without its module.
-/

namespace Reckon

/-- Where no event is left, a source that fails does so at the next read. -/
theorem Parser.advance_of_failing {reason : String} {p : Parser}
    (fails : p.feed.ending = .failed reason) (none : p.feed.events = []) :
    advance p = .error (.read (.failed reason)) p := by
  rcases p.advance_cases with ⟨t, events, here, -⟩ | ⟨text, events, here, -⟩ |
    ⟨-, finished, -⟩ | ⟨reason', -, same, run⟩
  · cases none.symm.trans here
  · cases none.symm.trans here
  · cases finished.symm.trans fails
  · cases same.symm.trans fails
    exact run

/-- The parser finds no end of its input, since its source fails for this reason. -/
structure Parser.Unending (reason : String) (p : Parser) : Prop where
  started : p.Started
  isToken : p.current ≠ .eof
  fails : p.feed.ending = .failed reason

namespace Parser.Unending

variable {reason : String} {p q : Parser}

theorem advance (h : p.Unending reason) : (leaves Parser.advance p).Unending reason := by
  have onward : Moves p (leaves Parser.advance p) := .read (.refl _)
  refine ⟨onward.started h.started, ?_, onward.ending_eq.trans h.fails⟩
  rcases p.advance_cases with ⟨t, events, here, run⟩ | ⟨text, events, here, run⟩ |
    ⟨-, finished, -⟩ | ⟨reason', -, -, run⟩
  · rw [leaves_of_ok run]
    rintro rfl
    exact h.started.noEof (here ▸ List.mem_cons_self)
  · rw [leaves_of_error run]
    exact h.isToken
  · cases finished.symm.trans h.fails
  · rw [leaves_of_error run]
    exact h.isToken

theorem moves (h : p.Unending reason) (moves : Moves p q) : q.Unending reason :=
  moves.keeps (fun _ => advance) h

theorem left_eq (h : p.Unending reason) : p.left = p.feed.events.length + 1 := by
  rw [left, if_neg h.isToken]

theorem advance_eq (h : p.Unending reason) (none : p.feed.events = []) :
    Parser.advance p = .error (.read (.failed reason)) p := advance_of_failing h.fails none

end Parser.Unending

namespace Session

variable {s t : Session}

/-- The session has written this, and perhaps more behind it. -/
def HasWritten (written : ByteArray) (s : Session) : Prop :=
  ∃ more, s.sink.written = written ++ more

theorem hasWritten_self (s : Session) : HasWritten s.sink.written s :=
  ⟨.empty, ByteArray.append_empty.symm⟩

/-- Whatever becomes of the step, nothing is taken back that was written. -/
def Grows (x : Act α) : Prop := ∀ written, Keeps (HasWritten written) x

namespace Grows

theorem pure (a : α) : Grows (Pure.pure a) := fun _ => .pure a

theorem bind {x : Act α} {f : α → Act β} (first : Grows x) (rest : ∀ a, Grows (f a)) :
    Grows (x >>= f) := fun written => (first written).bind fun a => rest a written

theorem get {f : Session → Act β} (rest : ∀ s, Grows (f s)) : Grows (MonadState.get >>= f) :=
  fun written s h => rest s written s h

theorem of_sink {x : Act α} (silent : IgnoresSink x) : Grows x := by
  refine fun written s ⟨more, grown⟩ => .intro (fun a t run => ⟨more, ?_⟩) fun e t run => ⟨more, ?_⟩
  · exact ((silent s s.sink).of_ok run).1 ▸ grown
  · exact ((silent s s.sink).of_error run).1 ▸ grown

theorem write (text : String) : Grows (write text) := by
  refine fun written => .of_leaves fun s ⟨more, grown⟩ => ?_
  have sink : (leaves (Session.write text) s).sink = (s.sink.write text).2 := by
    unfold leaves Session.write
    rcases s.sink.write text with ⟨_ | reason, sink⟩ <;> rfl
  rw [HasWritten, sink, Sink.write]
  cases s.sink.failure with
  | none => exact ⟨more ++ text.toUTF8, by rw [grown, ByteArray.append_assoc]⟩
  | some cutoff =>
      dsimp only
      split
      · exact ⟨more ++ text.toUTF8, by rw [grown, ByteArray.append_assoc]⟩
      · exact ⟨more ++ text.toUTF8.extract 0 (cutoff.bytes - s.sink.written.size),
          by rw [grown, ByteArray.append_assoc]⟩

theorem closed : Closed fun _ => Grows where
  pure := pure
  throw e _ := .throw e
  bind := bind
  look _ := get
  get _ := get
  write := write
  advance := of_sink .advance
  parseForm := of_sink .parseForm
  compileForm form := of_sink (.compileForm form)
  evaluateBare id told written s h := told _ written { s with backend := s.backend.remove id } h

end Grows

/-- If the source does not fail, neither does the step because of it, and what it gives is fine. -/
def Honest (x : Act α) (ok : α → Prop) : Prop :=
  ∀ s, s.parser.feed.ending = .finished →
    Ensures x s (fun a t => ok a ∧ t.parser.feed.ending = .finished)
      fun e _ => ∀ reason, e ≠ .parse (.read (.failed reason))

namespace Honest

theorem bind {x : Act α} {f : α → Act β} {ok : α → Prop} {good : β → Prop} (first : Honest x ok)
    (rest : ∀ a, ok a → Honest (f a) good) : Honest (x >>= f) good := by
  intro s finished
  refine Ensures.bind (first s finished) ?_
  exact fun a t holds => rest a holds.1 t holds.2

theorem get {f : Session → Act β} {good : β → Prop} (rest : ∀ s, Honest (f s) good) :
    Honest (MonadState.get >>= f) good := fun s finished => rest s s finished

theorem of_ignoresParser {x : Act α} (h : IgnoresParser x) : Honest x fun _ => True := by
  intro s finished
  refine .intro (fun a t run => ⟨trivial, ?_⟩) fun e t run reason isRead => ?_
  · rw [h.parser_of_ok run]
    exact finished
  · obtain ⟨⟨_, isWrite⟩, -⟩ := (h s).of_error run
    cases isWrite.symm.trans isRead

theorem advance : Honest advance fun _ => True := by
  intro s finished
  have first := Parser.advance_of_finished finished
  cases run : s.parser.advance with
  | ok _ q =>
      simp only [Ensures, advance_of_ok run]
      exact ⟨trivial, (Parser.Reads.read run (.refl q)).moves.ending_eq.trans finished⟩
  | error e q =>
      obtain ⟨text, rfl, -⟩ := first.of_error run
      simp only [Ensures, advance_of_error run]
      exact fun reason same => by cases same

theorem parseForm : Honest parseForm fun outcome =>
    ∀ reason, outcome ≠ .error (.read (.failed reason)) := by
  intro s finished
  have forward := Parser.form_forward s.parser
  cases run : Parser.form s.parser with
  | ok f q =>
      simp only [Ensures, Session.parseForm, run]
      refine ⟨fun reason same => ?_, (forward.of_ok run).moves.ending_eq.trans finished⟩
      cases same
  | error e q =>
      simp only [Ensures, Session.parseForm, run]
      refine ⟨fun reason same => ?_, (forward.of_error run).moves.ending_eq.trans finished⟩
      cases same
      cases finished.symm.trans (forward.of_error run).ending_eq

theorem recover {e : ParseError} (notFailed : ∀ reason, e ≠ .read (.failed reason)) :
    Honest (recover e) fun _ => True := by
  unfold Session.recover
  split
  · next reason => exact absurd rfl (notFailed reason)
  · refine (of_ignoresParser (.write _)).bind fun _ _ => get fun s => ?_
    split
    · exact of_ignoresParser (.pure _)
    · exact of_ignoresParser (.pure _)
    · exact of_ignoresParser (.pure _)
    · exact advance

theorem handleForm : Honest handleForm fun _ => True := by
  refine parseForm.bind fun outcome notFailed => ?_
  split
  · exact recover fun reason same => notFailed reason (congrArg Except.error same)
  · exact of_ignoresParser (IgnoresParser.reporting.takeForm _)

theorem round : Honest round fun _ => True := by
  refine get fun s => ?_
  split
  · exact of_ignoresParser (.pure _)
  · exact advance.bind fun _ _ => of_ignoresParser (.pure _)
  · refine handleForm.bind fun _ _ => ?_
    refine (of_ignoresParser IgnoresParser.reporting.prompt).bind fun _ _ => ?_
    exact of_ignoresParser (.pure _)

end Honest

/-- The read comes when no more than this many events are left. -/
def Late (beyond : Nat) (s : Session) : Prop := s.parser.feed.events.length ≤ beyond

instance (beyond : Nat) (s : Session) : Decidable (s.Late beyond) :=
  inferInstanceAs (Decidable (_ ≤ _))

/-- None of the reads is late, neither in the session whose source fails nor in the one with more
    behind in place of the failure. -/
def OnTime (behind : Feed) (reads : Session → List Session) (s : Session) : Prop :=
  (∀ u ∈ reads s, ¬u.Late 0) ∧ ∀ u ∈ reads (s.before behind), ¬u.Late behind.events.length

/-- How a step ends in both sessions. Either none makes a late read, and they end alike; or the one
    ends with the failure just where the other makes its first late read. -/
inductive CutShort (behind : Feed) (reason : String) (x : Act α) (reads : Session → List Session)
    (s : Session) : Prop where
  | alike (e : SessionError) (t : Session) :
    x s = .error e t → x (s.before behind) = .error e (t.before behind) → OnTime behind reads s →
    CutShort behind reason x reads s
  | late (t : Session) :
    x s = .error (.parse (.read (.failed reason))) t →
    (reads (s.before behind)).find? (Late behind.events.length ·) = some (t.before behind) →
    HasWritten t.sink.written (leaves x (s.before behind)) →
    CutShort behind reason x reads s

theorem fine_of_finished (finished : s.parser.feed.ending = .finished) : Fine round s :=
  fun reason _ failed => (Honest.round s finished).of_error failed reason rfl

section CutShort

variable {behind : Feed} {reason : String}

theorem started_before (unending : s.parser.Unending reason)
    (noEof : .token .eof ∉ behind.events) : (s.before behind).parser.Started := by
  refine ⟨fun mem => ?_, fun atEnd => absurd atEnd unending.isToken⟩
  rcases List.mem_append.mp mem with early | late
  · exact unending.started.noEof early
  · exact noEof late

/-- Where the rounds come to the same, they made no late read: each had ahead what is left now. -/
theorem on_time (unending : s.parser.Unending reason) (noEof : .token .eof ∉ behind.events)
    (fine : Fine round s) (fineToo : Fine round (s.before behind))
    (left : leaves round s = t) (leftToo : leaves round (s.before behind) = t.before behind) :
    OnTime behind roundReads s := by
  have lead := roundReads_lead unending.started
  have leadToo := roundReads_lead (started_before unending noEof)
  rw [left] at lead
  rw [leftToo] at leadToo
  have more := (unending.moves lead.trail.moves).left_eq
  have moreToo := Parser.left_before t.parser behind
  refine ⟨fun u mem late => ?_, fun u mem late => ?_⟩
  · have ahead := lead.ahead fine u mem
    simp only [Late] at late
    omega
  · have ahead := leadToo.ahead fineToo u mem
    simp only [Late] at late
    simp only [before, withParser] at ahead
    omega

theorem late_before {q : Parser} (none : q.feed.events = []) :
    (q.before behind).feed.events.length = behind.events.length := by
  simp only [Parser.before, none, List.nil_append]

theorem round_cut_separator (unending : s.parser.Unending reason)
    (here : s.parser.current = .char ';') (none : s.parser.feed.events = []) :
    CutShort behind reason round roundReads s := by
  have stuck : advance s = .error (.parse (.read (.failed reason))) s :=
    advance_of_error (unending.advance_eq none)
  have reads : roundReads (s.before behind) = [s.before behind] :=
    roundReads_of_separator (s := s.before behind) here
  refine .late s ((round_of_separator here).trans (bind_of_error stuck)) ?_ ?_
  · have late : (s.before behind).Late behind.events.length := Nat.le_of_eq (late_before none)
    rw [reads, List.find?_cons_of_pos (by simpa using late)]
  · exact (Grows.closed.round _).holds_leaves (hasWritten_self (s.before behind))

/-- The reads of a form that comes to a read beyond what there was. -/
theorem find_formReads {p q r : Parser} (unending : q.Unending reason)
    (started : (p.before behind).Started) (none : q.feed.events = [])
    (finished : behind.ending = .finished)
    (moves : Parser.Moves (p.before behind) (q.before behind))
    (onward : Parser.Moves (leaves Parser.advance (q.before behind)) r) :
    (((p.before behind).readsTo r).map s.withParser).find? (Late behind.events.length ·) =
      some (s.withParser (q.before behind)) := by
  have isToken : (q.before behind).current ≠ .eof := unending.isToken
  have takes : (leaves Parser.advance (q.before behind)).left < (q.before behind).left := by
    have taken := Parser.advance_left isToken
    have honest := Parser.advance_of_finished (p := q.before behind) finished
    cases run : Parser.advance (q.before behind) with
    | ok _ q' => exact leaves_of_ok run ▸ taken.of_ok run
    | error e q' =>
        rw [leaves_of_error run]
        rcases taken.of_error run with less | ⟨-, reason, rfl⟩
        · exact less
        · obtain ⟨text, isInvalid, -⟩ := honest.of_error run
          cases isInvalid
  have found := Parser.find_readsTo started moves isToken onward takes
  rw [late_before none] at found
  rw [List.find?_map]
  exact congrArg (Option.map s.withParser) found

theorem round_cut_form (unending : s.parser.Unending reason) (noEof : .token .eof ∉ behind.events)
    (finished : behind.ending = .finished) {q : Parser} (atForm : s.parser.AtForm)
    (none : q.feed.events = []) (comes : Parser.ComesTo Parser.form s.parser q)
    (comesToo : Parser.ComesTo Parser.form (s.parser.before behind) (q.before behind)) :
    CutShort behind reason round roundReads s := by
  have stands := unending.moves comes.reads.moves
  have bad := comes.fails _ _ (stands.advance_eq none)
  have atFormToo := atForm_before atForm behind
  refine .late (s.withParser q) ((round_of_mistake atForm bad).trans rfl) ?_ ?_
  · have found := find_formReads (s := s) stands (started_before unending noEof) none finished
      comesToo.reads.moves comesToo.goesOn
    cases outcome : Parser.form (s.parser.before behind) with
    | ok f r =>
        rw [leaves_of_ok outcome] at found
        rw [roundReads_of_read atFormToo outcome]
        exact found
    | error e r =>
        rw [leaves_of_error outcome] at found
        rw [roundReads_of_mistake atFormToo outcome]
        exact (List.find?_append ..).trans (congrArg (Option.or · _) found)
  · exact (Grows.closed.round _).holds_leaves (hasWritten_self (s.before behind))

theorem round_cut_skip (unending : s.parser.Unending reason) (noEof : .token .eof ∉ behind.events)
    {e : ParseError} {q : Parser} (atForm : s.parser.AtForm)
    (bad : Parser.form s.parser = .error e q)
    (badToo : Parser.form (s.parser.before behind) = .error e (q.before behind))
    (notFailed : ∀ reason, e ≠ .read (.failed reason)) (other : ¬q.AtStart)
    (reported : report e.message (s.withParser q) = .ok () t) (empty : q.feed.events = []) :
    CutShort behind reason round roundReads s := by
  have atFormToo := atForm_before atForm behind
  have moves := ((Parser.form_forward _).of_error bad).moves
  have stands : t.parser = q := (IgnoresParser.reporting.report _).parser_of_ok reported
  have otherHere : ¬t.parser.AtStart := stands ▸ other
  have reportedToo : report e.message ((s.before behind).withParser (q.before behind)) =
      .ok () (t.before behind) :=
    ((IgnoresParser.reporting.report _).alike behind (s.withParser q)).of_ok reported
  -- The form and the report come to the same; the read that skips a token is the late one.
  have stuck : advance t = .error (.parse (.read (.failed reason))) t :=
    advance_of_error (stands ▸ (unending.moves moves).advance_eq empty)
  have recovers := recover_of_other notFailed reported otherHere
  have recoversToo := recover_of_other (s := (s.before behind).withParser (q.before behind))
    (t := t.before behind) notFailed reportedToo otherHere
  refine .late t ((round_of_mistake atForm bad).trans (bind_of_error (recovers.trans stuck))) ?_ ?_
  · have early : (((s.parser.before behind).readsTo (q.before behind)).map s.withParser).find?
        (Late behind.events.length ·) = none := by
      refine List.find?_eq_none.mpr fun u mem => ?_
      obtain ⟨r, isRead, rfl⟩ := List.mem_map.mp mem
      have ahead := Parser.length_of_mem_readsTo (started_before unending noEof)
        ((Parser.form_forward _).of_error badToo).moves isRead
      rw [Parser.left_before, (unending.moves moves).left_eq] at ahead
      have onTime : behind.events.length < r.feed.events.length := by omega
      exact fun late => absurd (of_decide_eq_true late) (Nat.not_le_of_lt onTime)
    have otherToo : ¬((s.before behind).withParser (q.before behind)).parser.AtStart := other
    have skips : ((s.before behind).withParser (q.before behind)).readsBehind e =
        [t.before behind] := by
      rw [readsBehind_of_notFailed notFailed, if_neg otherToo, reportedToo]
    have late : (t.before behind).Late behind.events.length :=
      Nat.le_of_eq (late_before (stands ▸ empty))
    rw [roundReads_of_mistake atFormToo badToo]
    refine (List.find?_append ..).trans ?_
    rw [skips, List.find?_cons_of_pos (by simpa using late)]
    exact congrArg (Option.or · _) early
  · have goesOn : Grows (do advance; prompt; pure true : Act Bool) :=
      Grows.closed.advance.bind fun _ => Grows.closed.prompt.bind fun _ => .pure _
    rw [leaves_of_eq ((round_of_mistake atFormToo badToo).trans (bind_of_eq recoversToo))]
    exact (goesOn _).holds_leaves (hasWritten_self (t.before behind))

/-- A failure of the source cuts a round short, or it is not met. -/
theorem round_cut (unending : s.parser.Unending reason) (noEof : .token .eof ∉ behind.events)
    (finished : behind.ending = .finished) :
    (∃ more t, round s = .ok more t ∧ round (s.before behind) = .ok more (t.before behind) ∧
      OnTime behind roundReads s) ∨ CutShort behind reason round roundReads s := by
  have fineToo : Fine round (s.before behind) := fine_of_finished finished
  cases round_alike behind s with
  | ok more t run runToo =>
      have fine : Fine round s := fun reason u failed => by cases run.symm.trans failed
      exact .inl ⟨more, t, run, runToo,
        on_time unending noEof fine fineToo (leaves_of_ok run) (leaves_of_ok runToo)⟩
  | error e t run runToo =>
      have fine : Fine round s := by
        intro reason u failed
        cases run.symm.trans failed
        exact fineToo _ _ runToo
      exact .inr (.alike e t run runToo
        (on_time unending noEof fine fineToo (leaves_of_error run) (leaves_of_error runToo)))
  | separator here none => exact .inr (round_cut_separator unending here none)
  | form q atForm none comes comesToo =>
      exact .inr (round_cut_form unending noEof finished atForm none comes comesToo)
  | skip e q t atForm bad badToo notFailed other reported none =>
      exact .inr (round_cut_skip unending noEof atForm bad badToo notFailed other reported none)

theorem readsFrom_eq_append (s : Session) : ∃ later, s.readsFrom = s.roundReads ++ later := by
  by_cases goesOn : ∃ t, round s = .ok true t
  · obtain ⟨t, run⟩ := goesOn
    exact ⟨_, readsFrom_of_ok run⟩
  · exact ⟨[], (readsFrom_of_last fun t run => goesOn ⟨t, run⟩).trans (List.append_nil _).symm⟩

theorem hasWritten_allRounds {written : ByteArray} (h : HasWritten written (leaves round s)) :
    HasWritten written (leaves allRounds s) := by
  by_cases goesOn : ∃ t, round s = .ok true t
  · obtain ⟨t, run⟩ := goesOn
    rw [leaves_of_ok run] at h
    rw [leaves_of_eq (allRounds_of_ok run)]
    exact (Grows.closed.allRounds _).holds_leaves h
  · rwa [leaves_allRounds_of_last fun t run => goesOn ⟨t, run⟩]

theorem OnTime.readsFrom (first : OnTime behind roundReads s)
    (run : round s = .ok true t) (runToo : round (s.before behind) = .ok true (t.before behind))
    (rest : OnTime behind Session.readsFrom t) : OnTime behind Session.readsFrom s := by
  refine ⟨fun u mem => ?_, fun u mem => ?_⟩
  · rw [readsFrom_of_ok run] at mem
    exact (List.mem_append.mp mem).elim (first.1 u) (rest.1 u)
  · rw [readsFrom_of_ok runToo] at mem
    exact (List.mem_append.mp mem).elim (first.2 u) (rest.2 u)

theorem allRounds_cut (unending : s.parser.Unending reason) (noEof : .token .eof ∉ behind.events)
    (finished : behind.ending = .finished) : CutShort behind reason allRounds readsFrom s := by
  -- Over the rounds of the session that fails. It never finds the end of its input, so its last
  -- round ends with an error, the failure or one that the other session meets as well.
  induction s using rounds_induction with
  | last s ends =>
      rcases round_cut unending noEof finished with ⟨more, t, run, -⟩ | cut
      · cases more with
        | true => exact absurd run (ends t)
        | false =>
            exact absurd (Parser.current_of_turn (follows_of_round run).1) unending.isToken
      · cases cut with
        | alike e t run runToo onTime =>
            have endsToo : ∀ t, round (s.before behind) ≠ .ok true t :=
              fun t run => by cases runToo.symm.trans run
            refine .alike e t (allRounds_of_error run) (allRounds_of_error runToo) ?_
            rwa [OnTime, readsFrom_of_last ends, readsFrom_of_last endsToo]
        | late t run found written =>
            obtain ⟨later, reads⟩ := readsFrom_eq_append (s.before behind)
            refine .late t (allRounds_of_error run) ?_ (hasWritten_allRounds written)
            rw [reads, List.find?_append, found]
            rfl
  | next s t run ih =>
      rcases round_cut unending noEof finished with ⟨more, t', run', runToo, onTime⟩ | cut
      · cases run.symm.trans run'
        have moves := (Parser.turn_takes (follows_of_round run).1).1
        have same := allRounds_of_ok run
        have sameToo := allRounds_of_ok runToo
        cases ih (unending.moves moves) with
        | alike e u ran ranToo rest =>
            exact .alike e u (same.trans ran) (sameToo.trans ranToo)
              (onTime.readsFrom run runToo rest)
        | late u ran found written =>
            have none : (roundReads (s.before behind)).find? (Late behind.events.length ·) =
                none := List.find?_eq_none.mpr fun u mem => by simpa using onTime.2 u mem
            refine .late u (same.trans ran) ?_ (leaves_of_eq sameToo ▸ written)
            rw [readsFrom_of_ok runToo, List.find?_append, none]
            exact found
      · cases cut with
        | alike e t' run' => cases run.symm.trans run'
        | late t' run' => cases run.symm.trans run'

theorem hasWritten_bind {written : ByteArray} {x : Act α} {f : α → Act β}
    (h : HasWritten written (leaves x s)) (rest : ∀ a, Grows (f a)) :
    HasWritten written (leaves (x >>= f) s) := by
  cases run : x s with
  | ok a t =>
      rw [leaves_of_ok run] at h
      rw [leaves_of_eq (bind_of_ok run)]
      exact (rest a _).holds_leaves h
  | error e t =>
      rw [leaves_of_error run] at h
      rwa [leaves_of_error (bind_of_error run)]

theorem unending_of_advance (fails : s.parser.feed.ending = .failed reason)
    (noEof : .token .eof ∉ s.parser.feed.events) (more : s.parser.feed.events ≠ [])
    (moved : advance s = .ok () t) : t.parser.Unending reason := by
  have found := parser_leaves_advance s
  rw [leaves_of_ok moved] at found
  rcases s.parser.advance_cases with ⟨token, events, here, run⟩ | ⟨text, events, here, run⟩ |
    ⟨empty, -, -⟩ | ⟨reason', empty, -, -⟩
  · rw [leaves_of_ok run] at found
    have started := Parser.started_of_advance noEof run
    rw [found]
    refine ⟨started, ?_, fails⟩
    rintro rfl
    exact noEof (here ▸ List.mem_cons_self)
  · cases (advance_of_error run).symm.trans moved
  · exact absurd empty more
  · exact absurd empty more

theorem run_eq_body :
    run = (do (do begin; allRounds : Act Unit); write (← get).backend.target.text : Act Unit) := by
  rw [run_eq, bind_assoc]

/-- The first read finds an event, or is late. -/
theorem body_cut_of_prompt (prompted : prompt s = .ok () t)
    (promptedToo : prompt (s.before behind) = .ok () (t.before behind))
    (fails : t.parser.feed.ending = .failed reason) (noEof : .token .eof ∉ t.parser.feed.events)
    (noEofToo : .token .eof ∉ behind.events) (finished : behind.ending = .finished) :
    CutShort behind reason (do begin; allRounds) reads s := by
  have same : (do begin; allRounds : Act Unit) s = (do advance; allRounds : Act Unit) t :=
    bind_of_eq (begin_of_prompt prompted)
  have sameToo : (do begin; allRounds : Act Unit) (s.before behind) =
      (do advance; allRounds : Act Unit) (t.before behind) :=
    bind_of_eq (begin_of_prompt promptedToo)
  by_cases empty : t.parser.feed.events = []
  · have stuck : advance t = .error (.parse (.read (.failed reason))) t :=
      advance_of_error (Parser.advance_of_failing fails empty)
    obtain ⟨later, reads⟩ := reads_of_prompt promptedToo
    have late : (t.before behind).Late behind.events.length := Nat.le_of_eq (late_before empty)
    refine .late t (same.trans (bind_of_error stuck)) ?_ ?_
    · rw [reads, List.find?_cons_of_pos (by simpa using late)]
    · rw [leaves_of_eq sameToo]
      exact (Grows.closed.advance.bind (fun _ => Grows.closed.allRounds) _).holds_leaves
        (hasWritten_self (t.before behind))
  · have moves := advance_alike empty behind
    have room : 0 < t.parser.feed.events.length := List.length_pos_iff.mpr empty
    have onTime : ¬t.Late 0 := Nat.not_le_of_lt room
    have onTimeToo : ¬(t.before behind).Late behind.events.length := by
      simp only [Late, before, withParser, Parser.before, List.length_append]
      omega
    cases moved : advance t with
    | error e u =>
        have movedToo := moves.of_error moved
        refine .alike e u (same.trans (bind_of_error moved))
          (sameToo.trans (bind_of_error movedToo)) ?_
        rw [OnTime, reads_of_begin_error prompted moved,
          reads_of_begin_error promptedToo movedToo]
        exact ⟨List.forall_mem_singleton.mpr onTime, List.forall_mem_singleton.mpr onTimeToo⟩
    | ok _ u =>
        have movedToo := moves.of_ok moved
        have unending := unending_of_advance fails noEof empty moved
        rw [bind_of_ok moved] at same
        rw [bind_of_ok movedToo] at sameToo
        cases allRounds_cut unending noEofToo finished with
        | alike e v ran ranToo rest =>
            refine .alike e v (same.trans ran) (sameToo.trans ranToo) ?_
            rw [OnTime, reads_of_begin prompted moved, reads_of_begin promptedToo movedToo]
            exact ⟨List.forall_mem_cons.mpr ⟨onTime, rest.1⟩,
              List.forall_mem_cons.mpr ⟨onTimeToo, rest.2⟩⟩
        | late v ran found written =>
            refine .late v (same.trans ran) ?_ (leaves_of_eq sameToo ▸ written)
            rw [reads_of_begin promptedToo movedToo,
              List.find?_cons_of_neg (by simpa using onTimeToo)]
            exact found

theorem body_cut (fails : s.parser.feed.ending = .failed reason)
    (noEof : .token .eof ∉ s.parser.feed.events) (noEofToo : .token .eof ∉ behind.events)
    (finished : behind.ending = .finished) :
    CutShort behind reason (do begin; allRounds) reads s := by
  have prompts := IgnoresParser.reporting.prompt.alike behind s
  cases prompted : prompt s with
  | error e t =>
      have promptedToo := prompts.of_error prompted
      refine .alike e t (bind_of_error (bind_of_error prompted))
        (bind_of_error (bind_of_error promptedToo)) ?_
      rw [OnTime, reads_of_prompt_error prompted, reads_of_prompt_error promptedToo]
      exact ⟨fun _ mem => absurd mem List.not_mem_nil, fun _ mem => absurd mem List.not_mem_nil⟩
  | ok _ t =>
      have stands : t.parser = s.parser := IgnoresParser.reporting.prompt.parser_of_ok prompted
      exact body_cut_of_prompt prompted (prompts.of_ok prompted) (stands ▸ fails) (stands ▸ noEof)
        noEofToo finished

end CutShort

theorem reading_before (s : Session) (table : Operators) (bytes : List UInt8) (cutoff : Cutoff) :
    (s.reading table (Source.mk bytes (some cutoff)).feed).before (feedBehind bytes cutoff.bytes) =
      s.reading table (Source.mk bytes none).feed := by
  rw [Source.feed_of_working bytes cutoff]
  rfl

/-- Compare the session whose source fails behind its first bytes with the one that reads all of the
    same bytes. A read is late if it asks for more than the lines that are complete within the first
    bytes. Either no read is late, in neither session, and both end alike. Or the one ends with the
    failure, and as the other stands when it makes its first late read: so its output is what the
    other has written by then, ahead of all that the other writes later and of its module. And the
    reads are all that there are, one behind the other. -/
theorem read_failure_cuts_short (s : Session) (table : Operators) (bytes : List UInt8)
    (cutoff : Cutoff) :
    let failing := s.reading table (Source.mk bytes (some cutoff)).feed
    let whole := s.reading table (Source.mk bytes none).feed
    let behind := feedBehind bytes cutoff.bytes
    Parser.Trail whole.parser (whole.reads.map parser) (leaves run whole).parser ∧
    ((∃ e t, run failing = .error e t ∧ run whole = .error e (t.before behind) ∧
        (∀ u ∈ failing.reads, ¬u.Late 0) ∧ ∀ u ∈ whole.reads, ¬u.Late behind.events.length) ∨
      ∃ t, run failing = .error (.parse (.read (.failed cutoff.reason))) t ∧
        whole.reads.find? (Late behind.events.length ·) = some (t.before behind) ∧
        HasWritten t.sink.written (leaves run whole) ∧
        ∀ v, run whole = .ok () v →
          ∃ u, v = u.wrote u.backend.target.text ∧ HasWritten t.sink.written u) := by
  intro failing whole behind
  have goesOn : failing.before behind = whole := s.reading_before table bytes cutoff
  have noEof : .token .eof ∉ whole.parser.feed.events := (Source.mk bytes none).eof_not_mem_feed
  have events : whole.parser.feed.events = failing.parser.feed.events ++ behind.events :=
    goesOn ▸ rfl
  rw [events, List.mem_append, not_or] at noEof
  have dumps : ∀ u : Session, Grows (write u.backend.target.text) := fun _ => .write _
  refine ⟨reads_trail (events ▸ List.mem_append.not.mpr (not_or.mpr noEof)), ?_⟩
  have cut : CutShort behind cutoff.reason (do begin; allRounds) reads failing :=
    body_cut rfl noEof.1 noEof.2 rfl
  rw [run_eq_body]
  cases cut with
  | alike e t ran ranToo onTime =>
      rw [goesOn] at ranToo
      rw [OnTime, goesOn] at onTime
      exact .inl ⟨e, t, bind_of_error ran, bind_of_error ranToo, onTime⟩
  | late t ran found written =>
      rw [goesOn] at found written
      refine .inr ⟨t, bind_of_error ran, found, hasWritten_bind written fun _ => .get dumps, ?_⟩
      intro v ranToo
      cases body : (do begin; allRounds : Act Unit) whole with
      | error e u => cases (bind_of_error body).symm.trans ranToo
      | ok _ u =>
          rw [leaves_of_ok body] at written
          exact ⟨u, eq_wrote_of_write ((bind_of_ok body).symm.trans ranToo), written⟩

end Session

end Reckon
