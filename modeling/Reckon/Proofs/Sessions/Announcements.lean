import Reckon.Lexer
import Reckon.Proofs.Parsing.Keywords
import Reckon.Proofs.Sessions.Progress

/-! # Keywords and the forms they announce

A session asks its parser for a form at every `def` and `extern` that the source hands out, whatever
stands around it, and at most once, but for one case: a number without a value right behind the
word. Reading on from the word then fails, so that it stays the current token, recovery leaves it
there, and the form is asked for again.
-/

namespace Reckon

def Event.isKeyword : Event → Bool
  | token t => t.isKeyword
  | invalidNumber _ => false

/-- Where forms are asked for at keywords while these events are read, the token before them being
    `current`: at each keyword, with what comes behind it, and then again for each number without a
    value that comes right behind. -/
def askedIn (current : Token) : List Event → List (Token × List Event)
  | [] => []
  | .token t :: rest => if t.isKeyword then (t, rest) :: askedIn t rest else askedIn t rest
  | .invalidNumber _ :: rest =>
    if current.isKeyword then (current, rest) :: askedIn current rest else askedIn current rest

/-- How often a keyword is met again: once for each number without a value right behind it. -/
def repeats (current : Token) : List Event → Nat
  | [] => 0
  | .token t :: rest => repeats t rest
  | .invalidNumber _ :: rest => repeats current rest + if current.isKeyword then 1 else 0

/-- A number without a value comes right behind a keyword. -/
def Interrupts (events : List Event) : Prop :=
  ∃ before word text behind, word.isKeyword = true ∧
    events = before ++ .token word :: .invalidNumber text :: behind

theorem interrupts_cons_iff (event : Event) {events : List Event} :
    Interrupts (event :: events) ↔
      (event.isKeyword = true ∧ ∃ text behind, events = .invalidNumber text :: behind) ∨
        Interrupts events := by
  constructor
  · rintro ⟨_ | ⟨first, before⟩, word, text, behind, isKeyword, whole⟩
    · cases whole
      exact .inl ⟨isKeyword, text, behind, rfl⟩
    · cases whole
      exact .inr ⟨before, word, text, behind, isKeyword, rfl⟩
  · rintro (⟨isKeyword, text, behind, rfl⟩ | ⟨before, word, text, behind, isKeyword, rfl⟩)
    · cases event with
      | token word => exact ⟨[], word, text, behind, isKeyword, rfl⟩
      | invalidNumber _ => contradiction
    · exact ⟨event :: before, word, text, behind, isKeyword, rfl⟩

theorem not_interrupts_nil : ¬Interrupts [] := by
  rintro ⟨before, word, text, behind, -, whole⟩
  simp at whole

theorem repeats_pos_iff {current : Token} {events : List Event} :
    0 < repeats current events ↔ Interrupts (.token current :: events) := by
  induction events generalizing current with
  | nil => simp [repeats, interrupts_cons_iff, not_interrupts_nil]
  | cons event rest ih =>
      cases event with
      | token t => simp [repeats, ih, interrupts_cons_iff (.token current)]
      | invalidNumber text =>
          rw [repeats, interrupts_cons_iff, interrupts_cons_iff (.invalidNumber text)]
          cases here : current.isKeyword <;>
            simp [Event.isKeyword, here, ih, interrupts_cons_iff (.token current)]

namespace Parser

variable {p q : Parser}

def askedHere (p : Parser) : List (Token × List Event) :=
  if p.current.isKeyword then [(p.current, p.feed.events)] else []

/-- Where forms are asked for at keywords from the next read on. -/
def askedBehind (p : Parser) : List (Token × List Event) := askedIn p.current p.feed.events

/-- Where forms are asked for at keywords from here on. -/
def asked (p : Parser) : List (Token × List Event) := p.askedHere ++ p.askedBehind

theorem asked_of_other (other : p.current.isKeyword = false) : p.asked = p.askedBehind := by
  simp [asked, askedHere, other]

theorem advance_asked (p : Parser) :
    Ensures advance p (fun _ q => q.asked = p.askedBehind) fun e q =>
      (∃ text, e = .read (.invalidNumber text)) ∧ q.asked = p.askedBehind ∨
        (∃ reason, e = .read (.failed reason)) ∧ q = p := by
  rcases p.advance_cases with ⟨t, events, here, run⟩ | ⟨text, events, here, run⟩ |
    ⟨here, -, run⟩ | ⟨reason, -, -, run⟩
  · simp only [Ensures, run, asked, askedHere, askedBehind, here, askedIn]
    split <;> rfl
  · simp only [Ensures, run, asked, askedHere, askedBehind, here, askedIn]
    refine .inl ⟨⟨text, rfl⟩, ?_⟩
    split <;> rfl
  · simp [Ensures, run, asked, askedHere, askedBehind, here, askedIn, Token.isKeyword]
  · simp only [Ensures, run]
    exact .inr ⟨⟨reason, rfl⟩, trivial⟩

theorem advance_asked_of_other (other : p.current.isKeyword = false) :
    Ensures advance p (fun _ q => q.asked = p.asked) fun _ q => q.askedBehind = p.asked := by
  rw [asked_of_other other]
  refine .intro (fun _ q run => p.advance_asked.of_ok run) fun e q run => ?_
  rcases p.advance_asked.of_error run with ⟨-, same⟩ | ⟨-, rfl⟩
  · rw [← same, asked_of_other (current_of_advance_error run ▸ other)]
  · rfl

theorem ReadsFrom.asked_eq (h : ReadsFrom Spared p q) : q.asked = p.asked := by
  induction h with
  | refl => rfl
  | tail _ read ih => rw [← ih, (advance_asked_of_other read.1).of_ok read.2]

theorem StoppedFrom.asked_eq {e : ParseError} (h : StoppedFrom Spared p e q) :
    q.asked = p.asked := by
  obtain ⟨r, reads, ⟨spared, run⟩ | ⟨rfl, -⟩⟩ := h
  · rw [← reads.asked_eq, ← (advance_asked_of_other spared).of_error run]
    exact asked_of_other (current_of_advance_error run ▸ spared)
  · exact reads.asked_eq

/-- A form takes no keyword but the one that announces it. -/
theorem form_asked (p : Parser) :
    Ensures form p (fun _ q => q.asked = p.askedBehind) fun e q =>
      q.asked = p.askedBehind ∧
          (∀ reason, e = .read (.failed reason) → q.current.isKeyword = false) ∨
        (∃ reason, e = .read (.failed reason)) ∧ q = p := by
  cases announced : p.current.isKeyword with
  | false =>
      refine Ensures.mono (form_spares announced) ?_ ?_
      · exact fun _ q reads => reads.asked_eq.trans (asked_of_other announced)
      · exact fun e q stopped => .inl ⟨stopped.asked_eq.trans (asked_of_other announced),
          fun _ isRead => (isRead ▸ stopped).isKeyword_eq_false⟩
  | true =>
      refine Ensures.mono (form_spares_announced announced) ?_ ?_
      · rintro _ r ⟨q, run, reads⟩
        exact reads.asked_eq.trans (p.advance_asked.of_ok run)
      · rintro e r (run | ⟨q, run, stopped⟩)
        · rcases p.advance_asked.of_error run with ⟨⟨text, rfl⟩, same⟩ | failed
          · exact .inl ⟨same, fun reason other => by cases other⟩
          · exact .inr failed
        · exact .inl ⟨stopped.asked_eq.trans (p.advance_asked.of_ok run),
            fun _ isRead => (isRead ▸ stopped).isKeyword_eq_false⟩

/-- A round asks for a form at the keyword where it starts and at no other, and leaves all others
    to the rounds behind it. -/
theorem turn_asked (p : Parser) :
    Ensures turn p (fun more q => p.askedBehind = if more then q.asked else q.askedBehind)
      fun _ q => p.askedBehind = q.askedBehind := by
  rcases p.turn_cases with here | here | atForm
  · simp [Ensures, turn_of_eof here]
  · have other : p.current.isKeyword = false := by
      rw [here]
      rfl
    have skipped := advance_asked_of_other other
    rw [asked_of_other other] at skipped
    cases run : advance p with
    | ok _ q =>
        simp only [Ensures, turn_of_separator here, bind_of_ok run]
        exact (skipped.of_ok run).symm
    | error e q =>
        simp only [Ensures, turn_of_separator here, bind_of_error run]
        exact (skipped.of_error run).symm
  · have outcome := form_asked p
    cases read : form p with
    | ok f q =>
        simp only [Ensures, atForm.turn_of_ok read]
        exact (outcome.of_ok read).symm
    | error e q =>
        simp only [Ensures, atForm.turn_of_error read]
        rcases e.failed_or with ⟨reason, rfl⟩ | notFailed
        · -- The failure of the source ends the session where it was met.
          rcases outcome.of_error read with ⟨same, notKeyword⟩ | ⟨-, rfl⟩
          · exact same.symm.trans (asked_of_other (notKeyword reason rfl))
          · rfl
        · have same : q.asked = p.askedBehind := by
            rcases outcome.of_error read with ⟨same, -⟩ | ⟨⟨reason, failed⟩, -⟩
            · exact same
            · exact absurd failed (notFailed reason)
          by_cases atStart : q.AtStart
          · rw [bind_of_ok (resume_of_start notFailed atStart)]
            exact same.symm
          · have other : q.current.isKeyword = false := by
              cases current : q.current with
              | define => exact absurd (.inr (.inl current)) atStart
              | declare => exact absurd (.inr (.inr current)) atStart
              | _ => rfl
            have skipped := advance_asked_of_other other
            have resumed := resume_of_other notFailed atStart
            cases run : advance q with
            | ok _ r =>
                rw [bind_of_ok (resumed.trans run)]
                exact (same.symm.trans (skipped.of_ok run).symm)
            | error e' r =>
                rw [bind_of_error (resumed.trans run)]
                exact (same.symm.trans (skipped.of_error run).symm)

theorem length_askedHere (p : Parser) :
    p.askedHere.length = if p.current.isKeyword then 1 else 0 := by
  rw [askedHere]
  split <;> rfl

/-- What reads have handed out, and how often a form is to be asked for because of it. -/
theorem Moves.handed (h : Moves p q) :
    ∃ handed, p.feed.events = handed ++ q.feed.events ∧ p.askedBehind.length =
      handed.countP Event.isKeyword + repeats p.current handed + q.askedBehind.length := by
  induction h with
  | refl p => exact ⟨[], rfl, by simp [repeats]⟩
  | @read p q _ ih =>
      obtain ⟨handed, whole, count⟩ := ih
      have next := p.advance_asked
      rcases p.advance_cases with ⟨t, events, here, run⟩ | ⟨text, events, here, run⟩ |
        ⟨here, -, run⟩ | ⟨reason, -, -, run⟩
      · refine ⟨.token t :: handed, by simpa [leaves, run, here] using whole, ?_⟩
        rw [← next.of_ok run, asked, List.length_append, length_askedHere]
        simp only [leaves, run] at count ⊢
        rw [count, List.countP_cons, repeats, Event.isKeyword]
        omega
      · refine ⟨.invalidNumber text :: handed, by simpa [leaves, run, here] using whole, ?_⟩
        rcases next.of_error run with ⟨-, same⟩ | ⟨⟨reason, failed⟩, -⟩
        · rw [← same, asked, List.length_append, length_askedHere]
          simp only [leaves, run] at count ⊢
          rw [count, List.countP_cons, repeats, Event.isKeyword]
          simp only [Bool.false_eq_true, if_false]
          omega
        · cases failed
      · have none : handed = [] ∧ q.feed.events = [] := by
          simpa [leaves, run, here] using whole
        exact ⟨[], by rw [here, none.2]; rfl, by simp [askedBehind, here, none.2, askedIn, repeats]⟩
      · rw [leaves_of_error run] at whole count
        exact ⟨handed, whole, count⟩

end Parser

namespace Session

variable {s : Session}

/-- Where a run asks for forms at keywords: the word, and what the source has to deliver behind
    it. -/
def askedAt (s : Session) : List (Token × List Event) := s.starts.flatMap (·.parser.askedHere)

theorem allRounds_asked (works : s.sink.failure = none) :
    s.startsFrom.flatMap (·.parser.askedHere) ++ (leaves allRounds s).parser.askedBehind =
        s.parser.asked ∧
      Parser.Moves s.parser (leaves allRounds s).parser := by
  induction s using rounds_induction with
  | last s ends =>
      have asks := s.parser.turn_asked
      rw [startsFrom_of_last ends, List.flatMap_singleton, Parser.asked]
      cases turned : s.parser.turn with
      | error e q =>
          obtain ⟨t, run, rfl⟩ := (round_turn works).of_error turned
          rw [leaves_of_error (allRounds_of_error run), asks.of_error turned]
          exact ⟨rfl, Parser.moves_of_turn_error turned⟩
      | ok more q =>
          obtain ⟨t, run, follows⟩ := (round_turn works).of_ok turned
          cases more with
          | true => exact absurd run (ends t)
          | false =>
              cases turned.symm.trans (Parser.turn_of_eof (Parser.current_of_turn turned))
              rw [leaves_of_ok (allRounds_of_end run), follows.parser]
              exact ⟨rfl, .refl _⟩
  | next s t run ih =>
      obtain ⟨turned, -⟩ := follows_of_round run
      obtain ⟨t', run', follows⟩ := (round_turn works).of_ok turned
      cases run.symm.trans run'
      obtain ⟨rest, moves⟩ := ih follows.works
      have same : leaves allRounds s = leaves allRounds t := by
        simp only [leaves, allRounds_of_ok run]
      have asks := s.parser.turn_asked.of_ok turned
      rw [startsFrom_of_ok run, List.flatMap_cons, same, List.append_assoc, rest, Parser.asked]
      exact ⟨congrArg (_ ++ ·) asks.symm, (Parser.turn_takes turned).1.trans moves⟩

theorem length_askedAt (s : Session) :
    s.askedAt.length = s.starts.countP (·.parser.current.isKeyword) := by
  rw [askedAt]
  induction s.starts with
  | nil => rfl
  | cons t starts ih =>
      rw [List.flatMap_cons, List.length_append, Parser.length_askedHere, ih, List.countP_cons,
        Nat.add_comm]

/-- A run asks for forms where the events that it was handed say, and leaves the rest of them. -/
theorem run_asked {s : Session} (works : s.sink.failure = none)
    (noToken : s.parser.current = .eof) :
    s.askedAt ++ (leaves run s).parser.askedBehind = s.parser.askedBehind ∧
      Parser.Moves s.parser (leaves run s).parser := by
  have other : s.parser.current.isKeyword = false := by
    rw [noToken]
    rfl
  have first := Parser.advance_asked_of_other other
  rw [Parser.asked_of_other other] at first
  cases read : s.parser.advance with
  | error e p =>
      obtain ⟨t, begun, rfl⟩ := (begin_ensures works).of_error read
      rw [askedAt, starts_of_begin_error begun, leaves_of_error (run_of_begin_error begun)]
      exact ⟨first.of_error read, .read (leaves_of_error read ▸ .refl _)⟩
  | ok _ p =>
      obtain ⟨t, begun, follows⟩ := (begin_ensures works).of_ok read
      obtain ⟨asked, moves⟩ := allRounds_asked follows.works
      rw [askedAt, starts_of_begin begun, parser_leaves_run begun, asked, follows.parser]
      exact ⟨first.of_ok read, .read (leaves_of_ok read ▸ follows.parser ▸ moves)⟩

/-- With an output that works, a run over a source asks for a form once at every `def` and `extern`
    that the lexer hands out, in their order and whatever stands around them, and for nothing else
    at such a word but this: for each number without a value right behind the word, it asks for the
    form there again. So the forms are as many as the words just if no word is met so. -/
theorem keywords_start_forms {s : Session} (works : s.sink.failure = none) (table : Operators)
    (source : Source) :
    ∃ handed, source.feed.events =
        handed ++ (leaves run (s.reading table source.feed)).parser.feed.events ∧
      (s.reading table source.feed).askedAt ++
          (leaves run (s.reading table source.feed)).parser.askedBehind =
        askedIn .eof source.feed.events ∧
      (s.reading table source.feed).starts.countP (·.parser.current.isKeyword) =
        handed.countP Event.isKeyword + repeats .eof handed ∧
      ((s.reading table source.feed).starts.countP (·.parser.current.isKeyword) =
        handed.countP Event.isKeyword ↔ ¬Interrupts handed) := by
  obtain ⟨asked, moves⟩ := run_asked (s := s.reading table source.feed) works rfl
  obtain ⟨handed, whole, length⟩ := moves.handed
  have count : (s.reading table source.feed).starts.countP (·.parser.current.isKeyword) =
      handed.countP Event.isKeyword + repeats .eof handed := by
    have lengths := congrArg List.length asked
    rw [List.length_append, length_askedAt, length] at lengths
    exact Nat.add_right_cancel lengths
  -- The end of input, which stands before all events, is no keyword.
  have interrupted : 0 < repeats .eof handed ↔ Interrupts handed := by
    rw [repeats_pos_iff, interrupts_cons_iff]
    simp [Event.isKeyword, Token.isKeyword]
  refine ⟨handed, whole, asked, count, ?_⟩
  rw [← interrupted, count]
  omega

/-- The word that stops one form starts the next, and starts it again behind the number. -/
theorem keywords_start_forms_interrupted :
    ∃ (s : Session) (source : Source), source = .ofString "extern def\n٣\n" ∧
      s.sink.failure = none ∧
      ∃ handed, handed = source.feed.events ∧ handed.countP Event.isKeyword = 2 ∧
        repeats .eof handed = 1 ∧
        (s.reading .standard source.feed).starts.countP (·.parser.current.isKeyword) = 3 := by
  let s : Session := ⟨.ofFeed (.ofTokens []), .empty "m", {}, {}⟩
  have feed : (Source.ofString "extern def\n٣\n").feed =
      ⟨[.token .declare, .token .define, .invalidNumber "٣"], .finished⟩ := by decide +kernel
  obtain ⟨handed, whole, -, count, -⟩ :=
    keywords_start_forms (s := s) rfl .standard (.ofString "extern def\n٣\n")
  have readAll : (leaves run (s.reading .standard
      (Source.ofString "extern def\n٣\n").feed)).parser.feed.events = [] := by
    rw [feed]
    rfl
  rw [readAll, List.append_nil] at whole
  refine ⟨s, _, rfl, rfl, handed, whole.symm, ?_, ?_, ?_⟩
  · rw [← whole, feed]
    rfl
  · rw [← whole, feed]
    rfl
  · rw [count, ← whole, feed]
    rfl

/-- A word with a number behind it that has no value starts two forms. -/
theorem keyword_starts_two_forms :
    ∃ (s : Session) (source : Source), s.sink.failure = none ∧
      source = .ofString "extern\n٣\n" ∧
      (leaves run (s.reading .standard source.feed)).parser.feed.events = [] ∧
      source.feed.events.countP Event.isKeyword = 1 ∧
      (s.reading .standard source.feed).starts.countP (·.parser.current.isKeyword) = 2 := by
  have feed : (Source.ofString "extern\n٣\n").feed =
      ⟨[.token .declare, .invalidNumber "٣"], .finished⟩ := by decide +kernel
  refine ⟨⟨.ofFeed (.ofTokens []), .empty "m", {}, {}⟩, _, rfl, rfl, ?_⟩
  rw [feed]
  exact ⟨rfl, rfl, rfl⟩

end Session

end Reckon
