import Reckon.Lexer
import Reckon.Proofs.Sessions.Rounds

/-! # How sessions end

A session with a source and an output that work reads everything, reports whatever it could not
parse and writes its module last, unless a number without a value comes where the session itself
reads a token: as the first one, behind a `;`, or when it skips a token after an error. In a form
such a number is reported like any other mistake; there it ends the session.
-/

namespace Reckon

theorem Lexeme.token_ne_eof (lexeme : Lexeme) : lexeme.token ≠ .ok .eof := by
  intro isEof
  cases lexeme with
  | word text =>
      simp only [token, Token.ofWord] at isEof
      split at isEof
      · cases isEof
      · split at isEof <;> cases isEof
  | number text =>
      simp only [token] at isEof
      split at isEof <;> cases isEof
  | mark c => cases isEof

theorem eof_not_mem_tokensOfLexemes (lexemes : List Lexeme) :
    .eof ∉ (tokensOfLexemes lexemes).1 := by
  induction lexemes with
  | nil => exact List.not_mem_nil
  | cons lexeme lexemes ih =>
      simp only [tokensOfLexemes]
      split
      · next token made =>
        intro mem
        rcases List.mem_cons.mp mem with rfl | later
        · exact lexeme.token_ne_eof made
        · exact ih later
      · exact List.not_mem_nil

theorem Source.eof_not_mem_feed (source : Source) : .token .eof ∉ source.feed.events := by
  intro mem
  simp only [Source.feed_eq, List.mem_flatMap] at mem
  obtain ⟨line, -, mem⟩ := mem
  simp only [eventsOfLine, tokensOfLine, List.mem_append] at mem
  rcases mem with invalid | mem
  · simp at invalid
  · obtain ⟨token, isToken, same⟩ := List.mem_map.mp mem
    cases same
    exact eof_not_mem_tokensOfLexemes _ isToken

namespace Session

/-- Where the session itself reads a token in a run, in order. -/
def fetches (s : Session) : List Parser := s.parser :: s.starts.filterMap (·.parser.fetch?)

theorem fetches_eq {s : Session} (works : s.sink.failure = none) {p : Parser}
    (first : s.parser.advance = .ok () p) :
    s.fetches = s.parser :: p.turnsFrom.filterMap Parser.fetch? := by
  rw [← parser_starts works first, List.filterMap_map]
  rfl

/-- The error is in the output. -/
def Tells (s : Session) (message : String) : Prop :=
  ∃ before after, s.sink.written = before ++ s!"Error: {message}\n".toUTF8 ++ after

/-- The run from `s` comes to `t` with all input read and all mistakes reported, and then the module
    is all that is left to write. -/
structure Completes (s t : Session) : Prop where
  ran : run s = .ok () (t.wrote t.backend.target.text)
  atEnd : t.parser.current = .eof
  readAll : t.parser.feed.events = []
  reports : ∀ u ∈ s.starts, u.ReportedIn t
  tells : ∀ text, .invalidNumber text ∈ s.parser.feed.events →
    t.Tells (ReadError.invalidNumber text).message

theorem completes_of_ok {s : Session} (works : s.sink.failure = none) {p : Parser}
    (noEof : .token .eof ∉ s.parser.feed.events) (first : s.parser.advance = .ok () p) {t : Session}
    (ran : run s = .ok () t) : ∃ u, Completes s u := by
  obtain ⟨u, rfl, ⟨atEnd, last⟩, follows, reports, fine⟩ := (run_ensures works first).of_ok ran
  have started := (Parser.moves_of_mem_turnsFrom last).started
    (Parser.started_of_advance noEof first)
  have readAll := started.atEof atEnd
  refine ⟨u, ran, atEnd, readAll, reports, fun text mem => ?_⟩
  -- Behind the first read the number is ahead of all rounds, and behind them nothing is: some
  -- round met it, and as the run went on, that was in a form.
  have ahead := (Parser.Reads.read first (.refl p)).invalid_mem mem
  rcases Parser.turns_invalid_mem ahead last with none | ⟨q, later, atForm, r, bad⟩
  · rw [readAll] at none
    contradiction
  · rw [← parser_starts works first] at later
    obtain ⟨v, isStart, rfl⟩ := List.mem_map.mp later
    obtain ⟨more, written⟩ := reports v isStart atForm _ r bad
    exact ⟨v.sink.written, more, written⟩

/-- Nothing that the session itself reads is a number without a value. -/
def MeetsNoInvalid (s : Session) : Prop := ∀ p ∈ s.fetches, ∀ text, ¬p.MeetsInvalid text

theorem MeetsNoInvalid.completes {s : Session} (h : s.MeetsNoInvalid)
    (works : s.sink.failure = none) (finished : s.parser.feed.ending = .finished)
    (noEof : .token .eof ∉ s.parser.feed.events) : ∃ t, Completes s t := by
  cases first : s.parser.advance with
  | error e q =>
      obtain ⟨text, -, meets⟩ := (Parser.advance_of_finished finished).of_error first
      exact absurd meets (h s.parser List.mem_cons_self text)
  | ok _ p =>
      have started : Parser.Moves s.parser p := (Parser.Reads.read first (.refl p)).moves
      have outcome := run_ensures works first
      cases ran : run s with
      | ok _ t => exact completes_of_ok works noEof first ran
      | error e t =>
          obtain ⟨q, mem, e', r, failed, -⟩ := outcome.of_error ran
          have moves := started.trans (Parser.moves_of_mem_turnsFrom mem)
          obtain ⟨r', text, fetched, -, meets⟩ :=
            (Parser.turn_of_finished (moves.ending_eq.trans finished)).of_error failed
          refine absurd meets (h r' ?_ text)
          rw [fetches_eq works first]
          exact List.mem_cons_of_mem _ (List.mem_filterMap.mpr ⟨q, mem, fetched⟩)

theorem run_of_meetsInvalid {s : Session} (works : s.sink.failure = none)
    (finished : s.parser.feed.ending = .finished) {p : Parser} (fetches : p ∈ s.fetches)
    {text : String} (meets : p.MeetsInvalid text) :
    ∃ t, run s = .error (.parse (.read (.invalidNumber text))) t := by
  cases first : s.parser.advance with
  | error e q =>
      obtain ⟨t, begun, -⟩ := (begin_ensures works).of_error first
      have only : s.fetches = [s.parser] := by
        simp only [Session.fetches, starts, begun, List.filterMap_nil]
      rw [only, List.mem_singleton] at fetches
      subst fetches
      obtain ⟨text', rfl, meets'⟩ := (Parser.advance_of_finished finished).of_error first
      cases meets.symm.trans meets'
      exact ⟨t, run_of_begin_error begun⟩
  | ok _ q =>
      rw [fetches_eq works first] at fetches
      rcases List.mem_cons.mp fetches with rfl | later
      · exact absurd meets ((Parser.advance_of_finished finished).of_ok first text)
      · obtain ⟨r, mem, fetched⟩ := List.mem_filterMap.mp later
        have moves := (Parser.Reads.read first (.refl q)).moves.trans
          (Parser.moves_of_mem_turnsFrom mem)
        have turned := Parser.turn_of_finished (moves.ending_eq.trans finished)
        cases failed : r.turn with
        | ok more r' => exact absurd meets (turned.of_ok failed p fetched text)
        | error e r' =>
            obtain ⟨p', text', fetched', rfl, meets'⟩ := turned.of_error failed
            cases fetched.symm.trans fetched'
            cases meets.symm.trans meets'
            exact run_of_turn_error works first mem failed

/-- Over a source that does not fail, with an output that works, a run completes if nothing that
    the session itself reads is a number without a value, and otherwise ends at that number. -/
theorem run_completes {s : Session} (works : s.sink.failure = none) {source : Source}
    (reads : source.failure = none) (table : Operators) :
    ((s.reading table source.feed).MeetsNoInvalid →
        ∃ t, Completes (s.reading table source.feed) t) ∧
      ∀ p ∈ (s.reading table source.feed).fetches, ∀ text, p.MeetsInvalid text →
        ∃ t, run (s.reading table source.feed) =
          .error (.parse (.read (.invalidNumber text))) t := by
  have finished : source.feed.ending = .finished := by
    simp only [Source.feed_eq, Source.ending, reads]
  constructor
  · exact fun free => free.completes works finished source.eof_not_mem_feed
  · exact fun p mem text meets => run_of_meetsInvalid (s := s.reading table source.feed) works
      finished mem meets

/-- The number without a value stands where an operand should, and the session goes on behind it. -/
theorem run_completes_misread :
    ∃ (s : Session) (source : Source), source = .ofString "1 +\n٣\n2\n" ∧
      .invalidNumber "٣" ∈ source.feed.events ∧
      ∃ t, Completes (s.reading .standard source.feed) t := by
  let s : Session := ⟨.ofFeed (.ofTokens []), .empty "m", {}, {}⟩
  let two : Double := ⟨0x4000000000000000⟩
  have feed : (Source.ofString "1 +\n٣\n2\n").feed =
      ⟨[.token (.number .one), .token (.char '+'), .invalidNumber "٣", .token (.number two)],
        .finished⟩ := by decide +kernel
  refine ⟨s, _, rfl, by simp [feed], (run_completes rfl rfl .standard).1 ?_⟩
  have fetches : (s.reading .standard (Source.ofString "1 +\n٣\n2\n").feed).fetches =
      [⟨.eof, ⟨[.token (.number .one), .token (.char '+'), .invalidNumber "٣",
          .token (.number two)], .finished⟩, .standard⟩,
        ⟨.char '+', ⟨[.token (.number two)], .finished⟩, .standard⟩] := by
    rw [feed, fetches_eq rfl rfl]
    rfl
  intro p mem text
  rw [fetches] at mem
  rcases List.mem_cons.mp mem with rfl | later
  · exact nofun
  · cases List.mem_singleton.mp later
    exact nofun

/-- Reading and writing work, and yet the session ends without its module: its first read meets a
    number without a value. -/
theorem run_ends_at_first_read :
    ∃ (s : Session) (source : Source), s.sink.failure = none ∧ source = .ofString "٣" ∧
      source.failure = none ∧ ∃ t, t.sink.written = .empty ∧
        run (s.reading .standard source.feed) = .error (.parse (.read (.invalidNumber "٣"))) t := by
  have feed : (Source.ofString "٣").feed = ⟨[.invalidNumber "٣"], .finished⟩ := by decide +kernel
  refine ⟨⟨.ofFeed (.ofTokens []), .empty "m", {}, {}⟩, _, rfl, rfl, rfl, ?_⟩
  rw [feed]
  exact ⟨_, rfl, rfl⟩

end Session

end Reckon
