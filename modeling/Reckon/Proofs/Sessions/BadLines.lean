import Reckon.Proofs.Parsing.Keywords
import Reckon.Proofs.Reading.Cutoffs
import Reckon.Proofs.Sessions.Continuations
import Reckon.Proofs.Sessions.Endings
import Reckon.Proofs.Sessions.Progress

/-! # Lines with a number that has no value

Where complete lines come before a line that cannot be cut into tokens, the session does with them
what it does with them alone, up to the last form. A form is read only with the token behind it. So
the last one is lost, though it is complete, unless it ends with a `;`: the number behind it is met
in its place.
-/

namespace Reckon

namespace Parser

variable {p q : Parser}

/-- Behind the last event, the read meets the number that the input goes on with. -/
theorem advance_before_of_invalid {behind : Feed} {text : String} {more : List Event}
    (bad : behind.events = .invalidNumber text :: more) (none : p.feed.events = []) :
    ∃ q, advance (p.before behind) = .error (.read (.invalidNumber text)) q := by
  have here : (p.before behind).feed.events = .invalidNumber text :: more := by
    rw [before, none, bad, List.nil_append]
  rcases (p.before behind).advance_cases with ⟨t, events, other, -⟩ | ⟨text', events, same, run⟩ |
    ⟨none, -, -⟩ | ⟨reason, none, -, -⟩
  · cases here.symm.trans other
  · cases here.symm.trans same
    exact ⟨_, run⟩
  · cases here.symm.trans none
  · cases here.symm.trans none

/-- Behind reads that took everything and found no end of input, the last event is the current
    token. -/
theorem Moves.last_event (h : Moves p q) (all : q.feed.events = []) (isToken : q.current ≠ .eof)
    (lexes : ∀ text, .invalidNumber text ∉ p.feed.events) :
    p.feed.events = [] ∧ q.current = p.current ∨
      p.feed.events.getLast? = some (.token q.current) := by
  induction h with
  | refl => exact .inl ⟨all, rfl⟩
  | @read p q _ ih =>
      have rest := ih all isToken
      rcases p.advance_cases with ⟨t, events, here, run⟩ | ⟨text, events, here, run⟩ |
        ⟨none, -, run⟩ | ⟨reason, -, -, run⟩
      · rw [here] at lexes ⊢
        simp only [leaves, run] at rest
        right
        rcases rest fun text mem => lexes text (List.mem_cons_of_mem _ mem) with
          ⟨none, same⟩ | last
        · rw [none, same]
          rfl
        · rw [List.getLast?_cons, last]
          rfl
      · exact absurd (here ▸ List.mem_cons_self) (lexes text)
      · simp only [leaves, run, none] at rest
        rcases rest fun _ => List.not_mem_nil with ⟨-, atEnd⟩ | last
        · exact absurd atEnd isToken
        · cases last
      · rw [leaves_of_error run] at rest
        exact rest lexes

theorem current_of_left (none : p.left = 0) : p.current = .eof := by
  by_contra isToken
  rw [left, if_neg isToken] at none
  omega

theorem left_leaves_advance (finished : p.feed.ending = .finished) (none : p.feed.events = []) :
    (leaves advance p).left = 0 := by
  rcases p.advance_cases with ⟨t, events, here, -⟩ | ⟨text, events, here, -⟩ |
    ⟨-, -, run⟩ | ⟨reason, -, fails, -⟩
  · cases none.symm.trans here
  · cases none.symm.trans here
  · simp [leaves, run, left, none]
  · cases finished.symm.trans fails

theorem events_of_advance (noEof : .token .eof ∉ p.feed.events) (run : advance p = .ok () q)
    (atEnd : q.current = .eof) : p.feed.events = [] := by
  rcases p.advance_cases with ⟨t, events, here, run'⟩ | ⟨text, events, -, run'⟩ |
    ⟨none, -, -⟩ | ⟨reason, none, -, -⟩
  · cases run.symm.trans run'
    cases atEnd
    exact absurd (here ▸ List.mem_cons_self) noEof
  · cases run.symm.trans run'
  · exact none
  · exact none

end Parser

/-- The events end where the session itself reads on: there are none, or the last one is a `;`. -/
def EndsApart (events : List Event) : Prop :=
  ∀ event, events.getLast? = some event → event = .token (.char ';')

namespace Session

variable {s t : Session} {behind : Feed} {text : String}

/-- The last round on the shorter input, whose read behind the last event meets the end there, and
    the number on the longer input. -/
inductive Parts (behind : Feed) (text : String) (s t : Session) : Prop where
  /-- The session reads on behind a `;`. -/
  | separator (u : Session) : s.parser.current = .char ';' → s.parser.feed.events = [] →
    round (s.before behind) = .error (.parse (.read (.invalidNumber text))) u →
    u.sink = t.sink → u.backend = t.backend → Parts behind text s t
  /-- The parser reads on behind the last token of a form. -/
  | form (f : Form) (r : Parser) : s.parser.form? = some f →
    (s.before behind).parser.Misreads text → Parser.Moves s.parser r → r.feed.events = [] →
    r.current.closes = true → Parts behind text s t

/-- The session is about to go on with a token, its source holds no number without a value and does
    not fail, and neither does its output. -/
structure Lexing (behind : Feed) (s : Session) : Prop where
  works : s.sink.failure = none
  finished : s.parser.feed.ending = .finished
  lexes : ∀ text, .invalidNumber text ∉ s.parser.feed.events
  isToken : s.parser.current ≠ .eof
  started : (s.before behind).parser.Started

namespace Lexing

variable {more : List Event} (bad : behind.events = .invalidNumber text :: more)

theorem moves {p : Parser} (h : Lexing behind s) (moves : Parser.Moves s.parser p) :
    p.feed.ending = .finished ∧ (∀ text, .invalidNumber text ∉ p.feed.events) ∧
      .token .eof ∉ p.feed.events :=
  ⟨moves.ending_eq.trans h.finished, fun text mem => h.lexes text (moves.events_suffix.subset mem),
    fun mem => h.started.noEof (List.mem_append_left _ (moves.events_suffix.subset mem))⟩

include bad in
theorem next (h : Lexing behind s) (run : round s = .ok true t)
    (runToo : round (s.before behind) = .ok true (t.before behind)) : Lexing behind t := by
  obtain ⟨turned, -⟩ := follows_of_round run
  obtain ⟨t', run', follows⟩ := (round_turn h.works).of_ok turned
  cases run.symm.trans run'
  have onward := h.moves (Parser.turn_takes turned).1
  have started := (Parser.turn_takes (follows_of_round runToo).1).1.started h.started
  refine ⟨follows.works, onward.1, onward.2.1, fun atEnd => ?_, started⟩
  have none := started.atEof atEnd
  simp only [before, withParser, Parser.before, bad] at none
  simp at none

theorem round_ok (h : Lexing behind s) :
    ∃ t, round s = .ok true t ∧ s.parser.turn = .ok true t.parser := by
  have outcome := round_turn h.works
  cases turned : s.parser.turn with
  | error e q =>
      obtain ⟨r, text, fetched, -, meets⟩ := (Parser.turn_of_finished h.finished).of_error turned
      have onward := h.moves (Parser.moves_of_fetch? fetched)
      exact absurd (List.mem_of_head? meets) (onward.2.1 text)
  | ok goesOn q =>
      cases goesOn with
      | false => exact absurd (Parser.current_of_turn turned) h.isToken
      | true =>
          obtain ⟨t, run, follows⟩ := outcome.of_ok turned
          exact ⟨t, run, by rw [follows.parser]⟩

include bad in
theorem round_separator (h : Lexing behind s) (here : s.parser.current = .char ';') :
    ∃ t, round s = .ok true t ∧
      (round (s.before behind) = .ok true (t.before behind) ∨
        t.parser.current = .eof ∧ Parts behind text s t) := by
  obtain ⟨t, run, -⟩ := h.round_ok
  refine ⟨t, run, ?_⟩
  have alone := (round_of_separator here).symm.trans run
  have all := round_of_separator (s := s.before behind) here
  by_cases none : s.parser.feed.events = []
  · right
    cases moved : s.parser.advance with
    | error e q => cases (bind_of_error (advance_of_error moved)).symm.trans alone
    | ok _ q =>
        cases (bind_of_ok (advance_of_ok moved)).symm.trans alone
        have found := Parser.left_leaves_advance h.finished none
        rw [leaves_of_ok moved] at found
        obtain ⟨r, stuck⟩ := Parser.advance_before_of_invalid bad none
        exact ⟨Parser.current_of_left found, .separator _ here none
          (all.trans (bind_of_error (advance_of_error stuck))) rfl rfl⟩
  · left
    exact all.trans ((alike_bind (advance_alike none behind) (.pure true)).of_ok alone)

include bad in
theorem round_form (h : Lexing behind s) (atForm : s.parser.AtForm) {f : Form}
    (found : s.parser.form? = some f) :
    ∃ t, round s = .ok true t ∧
      (round (s.before behind) = .ok true (t.before behind) ∧
          (s.before behind).parser.form? = some f ∨
        t.parser.current = .eof ∧ Parts behind text s t) := by
  obtain ⟨t, run, turned⟩ := h.round_ok
  obtain ⟨-, q, read⟩ := Parser.form?_eq_some found
  cases turned.symm.trans (atForm.turn_of_ok read)
  have atFormToo := atForm_before atForm behind
  refine ⟨t, run, ?_⟩
  cases Parser.form_alike behind s.parser with
  | ok f' q' read' readToo =>
      cases read.symm.trans read'
      have goesOn : IgnoresParser (do takeForm f; prompt; pure true : Act Bool) :=
        (IgnoresParser.reporting.takeForm f).bind fun _ =>
          IgnoresParser.reporting.prompt.bind fun _ => .pure _
      have same := goesOn.alike behind (s.withParser t.parser)
      have all := round_of_read (s := s.before behind) atFormToo readToo
      exact .inl ⟨all.trans (same.of_ok ((round_of_read atForm read).symm.trans run)),
        atFormToo.form?_of_ok readToo⟩
  | error e q' bad => cases read.symm.trans bad
  | beyond r none comes comesToo =>
      right
      have moves := ((Parser.form_forward _).of_ok read).moves
      have left : (leaves Parser.advance r).left = 0 :=
        Parser.left_leaves_advance (h.moves comes.reads.moves).1 none
      have onward := comes.goesOn
      rw [leaves_of_ok read] at onward
      have atEnd := Parser.current_of_left (Nat.le_zero.mp (left ▸ onward.left_le))
      obtain ⟨last, movesToo, closes, ends⟩ := Parser.form_closes read
      obtain ⟨r', stuck⟩ := Parser.advance_before_of_invalid bad none
      exact ⟨atEnd, .form f last found ⟨atFormToo, r', comesToo.fails _ _ stuck⟩ movesToo
        (Parser.events_of_advance (h.moves movesToo).2.2 ends atEnd) closes⟩

end Lexing

/-- The rounds `early` are made alike on both inputs, and the one from `v` meets what they differ
    in: it is the last one on the shorter input, where `w` is left at the end. -/
structure AlikeUpTo (behind : Feed) (text : String) (s : Session) (early : List Session)
    (v w : Session) : Prop where
  starts : s.startsFrom = early ++ [v, w]
  startsToo : (s.before behind).startsFrom =
    early.map (·.before behind) ++ (v.before behind).startsFrom
  forms : ∀ u ∈ early, (u.before behind).parser.form? = u.parser.form?
  ran : allRounds s = .ok () w
  ranToo : allRounds (s.before behind) = allRounds (v.before behind)
  moves : Parser.Moves s.parser v.parser
  atEnd : w.parser.current = .eof
  parts : Parts behind text v w

section

variable {more : List Event} (bad : behind.events = .invalidNumber text :: more)
include bad

theorem round_parts (h : Lexing behind s)
    (parses : s.parser.AtForm → s.parser.form?.isSome = true) :
    ∃ t, round s = .ok true t ∧
      (round (s.before behind) = .ok true (t.before behind) ∧
          (s.before behind).parser.form? = s.parser.form? ∨
        t.parser.current = .eof ∧ Parts behind text s t) := by
  rcases s.parser.turn_cases with here | here | atForm
  · exact absurd here h.isToken
  · obtain ⟨t, run, all⟩ := h.round_separator bad here
    refine ⟨t, run, all.imp_left fun all => ⟨all, ?_⟩⟩
    rw [Parser.form?_of_separator here]
    exact Parser.form?_of_separator (p := (s.before behind).parser) here
  · obtain ⟨f, found⟩ := Option.isSome_iff_exists.mp (parses atForm)
    exact found ▸ h.round_form bad atForm found

theorem rounds_parts (h : Lexing behind s)
    (parses : ∀ t ∈ s.startsFrom, t.parser.AtForm → t.parser.form?.isSome = true) :
    ∃ early v w, AlikeUpTo behind text s early v w := by
  -- Over the rounds on the shorter input. A session about to go on with a token has a round that
  -- goes on, so the last one is not met: the induction stops at the round that reads beyond.
  induction s using rounds_induction with
  | last s ends =>
      have here := parses s (startsFrom_of_last ends ▸ List.mem_singleton_self s)
      obtain ⟨t, run, -⟩ := round_parts bad h here
      exact absurd run (ends t)
  | next s t run ih =>
      have starts := startsFrom_of_ok run
      obtain ⟨t', run', outcome⟩ := round_parts bad h (parses s (starts ▸ List.mem_cons_self))
      cases run.symm.trans run'
      rcases outcome with ⟨runToo, sameForm⟩ | ⟨atEnd, parts⟩
      · obtain ⟨early, v, w, alike⟩ := ih (h.next bad run runToo)
          fun u mem => parses u (starts ▸ List.mem_cons_of_mem _ mem)
        refine ⟨s :: early, v, w, ?_, ?_, ?_, ?_, ?_, ?_, alike.atEnd, alike.parts⟩
        · rw [starts, alike.starts, List.cons_append]
        · rw [startsFrom_of_ok runToo, alike.startsToo, List.map_cons, List.cons_append]
        · exact List.forall_mem_cons.mpr ⟨sameForm, alike.forms⟩
        · exact (allRounds_of_ok run).trans alike.ran
        · exact (allRounds_of_ok runToo).trans alike.ranToo
        · exact (Parser.turn_takes (follows_of_round run).1).1.trans alike.moves
      · have ended : round t = .ok false t := round_of_eof atEnd
        have last : ∀ u, round t ≠ .ok true u := fun u run => by cases ended.symm.trans run
        refine ⟨[], s, t, ?_, rfl, by simp, ?_, rfl, .refl _, atEnd, parts⟩
        · rw [starts, startsFrom_of_last last, List.nil_append]
        · exact (allRounds_of_ok run).trans (allRounds_of_end ended)

end

/-- What becomes of complete lines if a number without a value comes behind them. The session
    `alone` reads these lines only, and is left as `w` at their end; `all` goes on with `behind`. -/
inductive Spoiled (behind : Feed) (text : String) (alone all w : Session) : Prop where
  /-- The session itself reads on behind them. So it has processed all their forms, and to the same
      effect; and it ends there. -/
  | apart (early : List Session) (u : Session) :
    EndsApart alone.parser.feed.events →
    alone.starts = early ++ [w] → all.starts = early.map (·.before behind) →
    all.forms = alone.forms →
    run all = .error (.parse (.read (.invalidNumber text))) u →
    u.sink = w.sink → u.backend = w.backend → Spoiled behind text alone all w
  /-- The last form reads on behind them. All other forms are processed to the same effect, and in
      place of this one the number is met. -/
  | inForm (early later : List Session) (v : Session) (f : Form) :
    ¬EndsApart alone.parser.feed.events →
    alone.starts = early ++ [v, w] →
    all.starts = early.map (·.before behind) ++ v.before behind :: later →
    alone.forms = early.filterMap (·.parser.form?) ++ [f] → v.parser.form? = some f →
    all.forms = early.filterMap (·.parser.form?) ++ later.filterMap (·.parser.form?) →
    (v.before behind).parser.Misreads text → Spoiled behind text alone all w

theorem filterMap_before {early : List Session}
    (same : ∀ u ∈ early, (u.before behind).parser.form? = u.parser.form?) :
    (early.map (·.before behind)).filterMap (·.parser.form?) =
      early.filterMap (·.parser.form?) := by
  rw [List.filterMap_map]
  exact List.filterMap_congr same

theorem spoiled_of_begin {more : List Event} (bad : behind.events = .invalidNumber text :: more)
    (begun : begin s = .ok () t) (begunToo : begin (s.before behind) = .ok () (t.before behind))
    (lexing : Lexing behind t) (lexes : ∀ text, .invalidNumber text ∉ s.parser.feed.events)
    (some : s.parser.feed.events ≠ [])
    (parses : ∀ u ∈ s.starts, u.parser.AtForm → u.parser.form?.isSome = true) :
    ∃ w, run s = .ok () (w.wrote w.backend.target.text) ∧
      Spoiled behind text s (s.before behind) w := by
  have starts := starts_of_begin begun
  have startsToo := starts_of_begin begunToo
  obtain ⟨early, v, w, alike⟩ := rounds_parts bad lexing (starts ▸ parses)
  have onward : Parser.Moves s.parser v.parser := by
    have first := (follows_of_begin begun).1
    exact .read (leaves_of_ok first ▸ alike.moves)
  have formless : w.parser.form? = none := Parser.form?_of_eof alike.atEnd
  refine ⟨w, run_of_allRounds begun lexing.works alike.ran, ?_⟩
  cases alike.parts with
  | separator u here none failed sink backend =>
      have ends : ∀ u, round (v.before behind) ≠ .ok true u :=
        fun u run => by cases failed.symm.trans run
      have isToken : v.parser.current ≠ .eof := by simp [here]
      have last := (onward.last_event none isToken lexes).resolve_left fun stays => some stays.1
      have noForm : v.parser.form? = .none := Parser.form?_of_separator here
      have noFormToo : (v.before behind).parser.form? = .none :=
        Parser.form?_of_separator (p := (v.before behind).parser) here
      have alone : s.starts = (early ++ [v]) ++ [w] := by
        rw [starts, alike.starts, List.append_assoc]
        rfl
      have all : (s.before behind).starts = (early ++ [v]).map (·.before behind) := by
        rw [startsToo, alike.startsToo, startsFrom_of_last ends, List.map_append]
        rfl
      refine .apart (early ++ [v]) u ?_ alone all ?_ ?_ sink backend
      · intro event isLast
        cases last.symm.trans isLast
        rw [here]
      · have same : ∀ u ∈ early ++ [v], (u.before behind).parser.form? = u.parser.form? := by
          intro u mem
          rcases List.mem_append.mp mem with mem | mem
          · exact alike.forms u mem
          · rw [List.mem_singleton.mp mem, noForm, noFormToo]
        rw [forms, forms, alone, all, filterMap_before same, List.filterMap_append,
          List.filterMap_append]
        simp [formless]
      · exact run_of_allRounds_error begunToo
          (alike.ranToo.trans (allRounds_of_error failed))
  | form f r found misreads moves none closes =>
      -- A form is closed by a token of its own, so the last event is no separator.
      obtain ⟨later, rest⟩ := startsFrom_eq_cons (v.before behind)
      have isToken : r.current ≠ .eof := fun atEnd => by simp [atEnd, Token.closes] at closes
      have last := ((onward.trans moves).last_event none isToken lexes).resolve_left
        fun stays => some stays.1
      have lost : (v.before behind).parser.form? = .none := by
        obtain ⟨atForm, q, failed⟩ := misreads
        exact atForm.form?_of_error failed
      have all : (s.before behind).starts =
          early.map (·.before behind) ++ v.before behind :: later := by
        rw [startsToo, alike.startsToo, rest]
      refine .inForm early later v f ?_ (starts.trans alike.starts) all ?_ found ?_ misreads
      · intro apart
        have isSeparator := apart _ last
        simp only [Event.token.injEq] at isSeparator
        simp [isSeparator, Token.closes] at closes
      · rw [forms, starts, alike.starts, List.filterMap_append]
        simp [found, formless]
      · rw [forms, all, List.filterMap_append, filterMap_before alike.forms]
        simp [lost]

/-- Where there are no events before the number, the first read meets it. -/
theorem spoiled_of_nothing {more : List Event} (bad : behind.events = .invalidNumber text :: more)
    (works : s.sink.failure = none) (finished : s.parser.feed.ending = .finished)
    (empty : s.parser.feed.events = []) :
    ∃ w, run s = .ok () (w.wrote w.backend.target.text) ∧
      Spoiled behind text s (s.before behind) w := by
  obtain ⟨t, prompted, follows⟩ := Talks.prompt s works
  have promptedToo := (IgnoresParser.reporting.prompt.alike behind s).of_ok prompted
  have stands := follows.parser
  cases moved : t.parser.advance with
  | error e q =>
      obtain ⟨_, -, meets⟩ :=
        (Parser.advance_of_finished (stands ▸ finished)).of_error moved
      rw [Parser.MeetsInvalid, stands, empty] at meets
      cases meets
  | ok _ q =>
      have begun : begin s = .ok () (t.withParser q) :=
        (begin_of_prompt prompted).trans (advance_of_ok moved)
      have found := Parser.left_leaves_advance (stands ▸ finished) (stands ▸ empty)
      rw [leaves_of_ok moved] at found
      have atEnd : (t.withParser q).parser.current = .eof := Parser.current_of_left found
      have ended := round_of_eof atEnd
      have last : ∀ u, round (t.withParser q) ≠ .ok true u :=
        fun u run => by cases ended.symm.trans run
      obtain ⟨r, stuck⟩ := Parser.advance_before_of_invalid bad (stands ▸ empty)
      have begunToo := (begin_of_prompt promptedToo).trans (advance_of_error stuck)
      have starts : s.starts = [t.withParser q] :=
        (starts_of_begin begun).trans (startsFrom_of_last last)
      have startsToo := starts_of_begin_error begunToo
      refine ⟨_, run_of_allRounds begun follows.works (allRounds_of_end ended),
        .apart [] _ ?_ starts startsToo ?_ (run_of_begin_error begunToo) rfl rfl⟩
      · rw [empty]
        exact fun event last => by cases last
      · rw [forms, forms, starts, startsToo]
        simp [Parser.form?_of_eof atEnd]

theorem lexing_of_begin (works : s.sink.failure = none)
    (finished : s.parser.feed.ending = .finished)
    (lexes : ∀ text, .invalidNumber text ∉ s.parser.feed.events)
    (noEof : .token .eof ∉ (s.before behind).parser.feed.events)
    (some : s.parser.feed.events ≠ []) :
    ∃ t, begin s = .ok () t ∧ begin (s.before behind) = .ok () (t.before behind) ∧
      Lexing behind t := by
  obtain ⟨t, prompted, follows⟩ := Talks.prompt s works
  have promptedToo := (IgnoresParser.reporting.prompt.alike behind s).of_ok prompted
  rw [← follows.parser] at finished lexes some
  rcases t.parser.advance_cases with ⟨token, events, here, run⟩ | ⟨text, events, here, -⟩ |
    ⟨none, -, -⟩ | ⟨reason, none, -, -⟩
  · have moved := advance_of_ok run
    have begunToo := (begin_of_prompt promptedToo).trans ((advance_alike some behind).of_ok moved)
    refine ⟨_, (begin_of_prompt prompted).trans moved, begunToo, follows.works, finished, ?_, ?_,
      Parser.started_of_advance noEof (follows_of_begin begunToo).1⟩
    · exact fun text mem => lexes text (here ▸ List.mem_cons_of_mem _ mem)
    · rintro rfl
      refine noEof (List.mem_append_left _ ?_)
      rw [← follows.parser, here]
      exact List.mem_cons_self
  · exact absurd (here ▸ List.mem_cons_self) (lexes text)
  · exact absurd none some
  · exact absurd none some

/-- Whether a run reads all its forms depends on the parser alone. -/
theorem parses_of_turns (works : s.sink.failure = none) {p : Parser}
    (first : s.parser.advance = .ok () p)
    (reads : ∀ q ∈ p.turnsFrom, q.AtForm → q.form?.isSome = true) :
    ∀ t ∈ s.starts, t.parser.AtForm → t.parser.form?.isSome = true := by
  intro t mem
  exact reads _ (parser_starts works first ▸ List.mem_map_of_mem mem)

/-- Behind complete lines that all lex, and of which the session reads every form, comes a line with
    a number that has no value. Then all forms of the lines before are processed to the same effect
    as without that line, if there are none or the last one is closed off by a `;`; and else all but
    the last one, which is lost. -/
theorem bad_line_costs_last_form {s : Session} (works : s.sink.failure = none) (table : Operators)
    {first line rest : List UInt8} {text : String}
    (wholeLines : first = [] ∨ first.getLast? = some lineFeed)
    (lexes : ∀ text, .invalidNumber text ∉ (Source.mk first none).feed.events)
    (parses : ∀ t ∈ (s.reading table (Source.mk first none).feed).starts,
      t.parser.AtForm → t.parser.form?.isSome = true)
    (isLine : splitLines (line ++ rest) = line :: splitLines rest)
    (bad : (tokensOfLine line).2 = some text) :
    let alone := s.reading table (Source.mk first none).feed
    let all := s.reading table (Source.mk (first ++ (line ++ rest)) none).feed
    let behind := (Source.mk (line ++ rest) none).feed
    ∃ w, run alone = .ok () (w.wrote w.backend.target.text) ∧ Spoiled behind text alone all w := by
  intro alone all behind
  have goesOn : alone.before behind = all := by
    simp only [all, Source.feed_append wholeLines]
    rfl
  have noEof : .token .eof ∉ all.parser.feed.events := Source.eof_not_mem_feed _
  obtain ⟨more, isBehind⟩ := Source.feed_of_bad isLine bad
  have badToo : behind.events = .invalidNumber text :: more := congrArg Feed.events isBehind
  rw [← goesOn]
  by_cases empty : alone.parser.feed.events = []
  · exact spoiled_of_nothing badToo works rfl empty
  · obtain ⟨t, begun, begunToo, lexing⟩ :=
      lexing_of_begin (s := alone) works rfl lexes (goesOn ▸ noEof) empty
    exact spoiled_of_begin badToo begun begunToo lexing lexes empty parses

/-- The second of two bare expressions is lost, and the one behind the number is read. -/
theorem bad_line_costs_last_form_bare :
    ∃ (s : Session) (first line rest : Source), first = .ofString "1;\n2\n" ∧
      line = .ofString "٣\n" ∧ rest = .ofString "3\n" ∧
      ∃ w, Spoiled (Source.mk (line.bytes ++ rest.bytes) none).feed "٣"
        (s.reading .standard (Source.mk first.bytes none).feed)
        (s.reading .standard (Source.mk (first.bytes ++ (line.bytes ++ rest.bytes)) none).feed)
        w := by
  let s : Session := ⟨.ofFeed (.ofTokens []), .empty "m", {}, {}⟩
  let two : Double := ⟨0x4000000000000000⟩
  have feed : (Source.ofString "1;\n2\n").feed =
      ⟨[.token (.number .one), .token (.char ';'), .token (.number two)], .finished⟩ := by
    decide +kernel
  have parses : ∀ t ∈ (s.reading .standard (Source.ofString "1;\n2\n").feed).starts,
      t.parser.AtForm → t.parser.form?.isSome = true := by
    rw [feed]
    refine parses_of_turns rfl rfl fun q mem atForm => ?_
    have turns : q ∈ [⟨.number .one, ⟨[.token (.char ';'), .token (.number two)], .finished⟩,
        .standard⟩, ⟨.char ';', ⟨[.token (.number two)], .finished⟩, .standard⟩,
        ⟨.number two, ⟨[], .finished⟩, .standard⟩, ⟨.eof, ⟨[], .finished⟩, .standard⟩] := mem
    simp only [List.mem_cons, List.not_mem_nil, or_false] at turns
    rcases turns with rfl | rfl | rfl | rfl
    · rfl
    · exact absurd rfl atForm.noSeparator
    · rfl
    · exact absurd rfl atForm.isToken
  have lexes : ∀ text, .invalidNumber text ∉ (Source.ofString "1;\n2\n").feed.events := by
    simp [feed]
  have wholeLines : (Source.ofString "1;\n2\n").bytes.getLast? = some lineFeed := by
    decide +kernel
  have isLine : splitLines ((Source.ofString "٣\n").bytes ++ (Source.ofString "3\n").bytes) =
      (Source.ofString "٣\n").bytes :: splitLines (Source.ofString "3\n").bytes := by
    decide +kernel
  have bad : (tokensOfLine (Source.ofString "٣\n").bytes).2 = some "٣" := by decide +kernel
  obtain ⟨w, -, spoiled⟩ :=
    bad_line_costs_last_form (s := s) rfl .standard (.inr wholeLines) lexes parses isLine bad
  exact ⟨s, _, _, _, rfl, rfl, rfl, w, spoiled⟩

/-- A definition that is complete on a line of its own is not processed, since the next line holds
    a number without a value. -/
theorem bad_line_costs_definition :
    ∃ (s : Session) (first line : Source), s.sink.failure = none ∧
      first = .ofString "def f(x) x\n" ∧ line = .ofString "٣\n" ∧
      first.feed.events = [.token .define, .token (.ident "f"), .token (.char '('),
        .token (.ident "x"), .token (.char ')'), .token (.ident "x")] ∧
      (∀ t ∈ (s.reading .standard first.feed).starts,
        t.parser.AtForm → t.parser.form?.isSome = true) ∧
      (tokensOfLine line.bytes).2 = some "٣" ∧
      (s.reading .standard first.feed).forms = [.definition ⟨⟨"f", ["x"]⟩, .var "x"⟩] ∧
      (s.reading .standard (Source.mk (first.bytes ++ line.bytes) none).feed).forms = [] := by
  let tokens : List Event := [.token .define, .token (.ident "f"), .token (.char '('),
    .token (.ident "x"), .token (.char ')'), .token (.ident "x")]
  have feed : (Source.ofString "def f(x) x\n").feed = ⟨tokens, .finished⟩ := by decide +kernel
  have feedAll : (Source.mk ((Source.ofString "def f(x) x\n").bytes ++
      (Source.ofString "٣\n").bytes) none).feed =
      ⟨tokens ++ [.invalidNumber "٣"], .finished⟩ := by decide +kernel
  refine ⟨⟨.ofFeed (.ofTokens []), .empty "m", {}, {}⟩, _, _, rfl, rfl, rfl, ?_, ?_, ?_, ?_, ?_⟩
  · rw [feed]
  · rw [feed]
    refine parses_of_turns rfl rfl fun q mem atForm => ?_
    have turns : q ∈ [⟨.define, ⟨tokens.tail, .finished⟩, .standard⟩,
        ⟨.eof, ⟨[], .finished⟩, .standard⟩] := mem
    simp only [List.mem_cons, List.not_mem_nil, or_false] at turns
    rcases turns with rfl | rfl
    · rfl
    · exact absurd rfl atForm.isToken
  · decide +kernel
  · rw [feed, forms_eq rfl rfl]
    rfl
  · rw [feedAll, forms_eq rfl rfl]
    rfl

end Session

end Reckon
