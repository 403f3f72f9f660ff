import Reckon.Lexer
import Reckon.Proofs.Reading.Lines

/-! # What a lexer delivers

A lexer keeps tokens of the lines it has read, knows whether its source has ended, and reads on
when it has to. From outside none of this is seen: reading again and again gives the events of the
source's lines one after the other, each line's as its lexemes say, and then the source's ending.
-/

namespace Reckon

theorem cutLine_cases (bytes : List UInt8) :
    (lineFeed ∉ bytes ∧ cutLine bytes = (bytes, [])) ∨
    ∃ line rest, lineFeed ∉ line ∧ bytes = line ++ lineFeed :: rest ∧
      cutLine bytes = (line ++ [lineFeed], rest) := by
  by_cases mem : lineFeed ∈ bytes
  · obtain ⟨line, rest, rfl, other⟩ := List.eq_append_cons_of_mem mem
    exact .inr ⟨line, rest, other, rfl, cutLine_append_lineFeed other rest⟩
  · exact .inl ⟨mem, cutLine_of_not_mem mem⟩

theorem splitLines_cutLine {bytes : List UInt8} (some : bytes ≠ []) :
    splitLines bytes = (cutLine bytes).1 :: splitLines (cutLine bytes).2 := by
  obtain ⟨other, cut⟩ | ⟨line, rest, other, rfl, cut⟩ := cutLine_cases bytes
  · rw [cut, splitLines_of_not_mem other some]
    rfl
  · rw [cut, splitLines_append_lineFeed other]

theorem not_getLast?_lineFeed {line : List UInt8} (other : lineFeed ∉ line) :
    line.getLast? ≠ some lineFeed :=
  fun last => other (List.mem_of_getLast? last)

namespace Source

theorem lines_of_readLine_end {source rest : Source} (read : source.readLine = (.ok [], rest)) :
    source.lines = [] ∧ source.ending = .finished := by
  obtain ⟨bytes, _ | cutoff⟩ := source
  · simp only [readLine, Prod.mk.injEq, Except.ok.injEq] at read
    have none : bytes = [] := by
      obtain ⟨-, cut⟩ | ⟨line, rest, -, -, cut⟩ := cutLine_cases bytes
      · rw [cut] at read
        exact read.1
      · simp [cut] at read
    subst none
    exact ⟨rfl, rfl⟩
  · simp only [readLine] at read
    split at read
    · next last =>
      simp only [Prod.mk.injEq, Except.ok.injEq] at read
      simp [read.1] at last
    · cases read

theorem lines_of_readLine {source rest : Source} {byte : UInt8} {line : List UInt8}
    (read : source.readLine = (.ok (byte :: line), rest)) :
    source.lines = (byte :: line) :: rest.lines ∧ source.ending = rest.ending := by
  obtain ⟨bytes, _ | cutoff⟩ := source
  · have some : bytes ≠ [] := by
      rintro rfl
      cases read
    simp only [readLine, Prod.mk.injEq, Except.ok.injEq] at read
    obtain ⟨first, rfl⟩ := read
    exact ⟨by simp only [lines, splitLines_cutLine some, first], rfl⟩
  · simp only [readLine] at read
    split at read
    · next last =>
      simp only [Prod.mk.injEq, Except.ok.injEq] at read
      obtain ⟨first, rfl⟩ := read
      have some : bytes.take cutoff.bytes ≠ [] := by
        intro none
        simp [none, cutLine] at last
      refine ⟨?_, rfl⟩
      rw [first] at last
      simp [lines, splitLines_cutLine some, first, last]
    · cases read

/-- Nothing of a line that reading failed in is delivered, then or later. -/
theorem lines_of_readLine_failed {source rest : Source} {reason : String}
    (read : source.readLine = (.error reason, rest)) :
    source.lines = [] ∧ source.ending = .failed reason ∧ rest.lines = [] ∧
      rest.ending = .failed reason := by
  obtain ⟨bytes, _ | cutoff⟩ := source
  · cases read
  · simp only [readLine] at read
    split at read
    · cases read
    · next partial_ =>
      simp only [Prod.mk.injEq, Except.error.injEq] at read
      obtain ⟨rfl, rfl⟩ := read
      obtain ⟨other, cut⟩ | ⟨line, rest, -, -, cut⟩ := cutLine_cases (bytes.take cutoff.bytes)
      · rw [cut]
        refine ⟨?_, rfl, rfl, rfl⟩
        by_cases none : bytes.take cutoff.bytes = []
        · simp [lines, none, splitLines]
        · simp [lines, splitLines_of_not_mem other none, not_getLast?_lineFeed other]
      · simp [cut] at partial_

end Source

namespace Lexer

/-- Reading gives the next of the events that the lexer will deliver, and leaves the others. -/
theorem next_feed (lexer : Lexer) :
    lexer.next.1 = lexer.feed.next.1 ∧ lexer.next.2.feed = lexer.feed.next.2 := by
  fun_induction next lexer with
  | case1 lexer token pending ready =>
      cases ended : lexer.exhausted <;> simp [feed, Feed.next, ready, ended, Event.read]
  | case2 lexer empty ended => simp [feed, Feed.next, empty, ended, Ending.read]
  | case3 lexer empty more reason rest read =>
      obtain ⟨none, ending, restNone, restEnding⟩ := Source.lines_of_readLine_failed read
      simp [feed, Feed.next, empty, more, none, ending, restNone, restEnding, Ending.read]
  | case4 lexer empty more rest read =>
      obtain ⟨none, ending⟩ := Source.lines_of_readLine_end read
      simp [feed, Feed.next, empty, more, none, ending, Ending.read]
  | case5 lexer empty more byte line rest read tokens text cut =>
      obtain ⟨lines, ending⟩ := Source.lines_of_readLine read
      simp [feed, Feed.next, empty, more, lines, ending, eventsOfLine, cut, Event.read]
  | case6 lexer empty more byte line rest read tokens cut ih =>
      obtain ⟨lines, ending⟩ := Source.lines_of_readLine read
      have same : lexer.feed = (⟨tokens, rest, lexer.exhausted⟩ : Lexer).feed := by
        simp [feed, empty, more, lines, ending, eventsOfLine, cut]
      rw [same]
      exact ih

/-- What the successive reads give, from the next one on. -/
def reads (lexer : Lexer) : Nat → Except ReadError Token
  | 0 => lexer.next.1
  | count + 1 => lexer.next.2.reads count

end Lexer

/-- What the successive reads of a feed give: its events, then its ending forever. -/
def Feed.reads (feed : Feed) (count : Nat) : Except ReadError Token :=
  (feed.events.map Event.read)[count]?.getD feed.ending.read

theorem Feed.reads_next (feed : Feed) :
    feed.reads 0 = feed.next.1 ∧ ∀ count, feed.reads (count + 1) = feed.next.2.reads count := by
  obtain ⟨_ | ⟨event, events⟩, ending⟩ := feed <;> simp [Feed.reads, Feed.next]

theorem Lexer.reads_eq (lexer : Lexer) (count : Nat) :
    lexer.reads count = lexer.feed.reads count := by
  induction count generalizing lexer with
  | zero => rw [Lexer.reads, lexer.next_feed.1, (Feed.reads_next _).1]
  | succ count ih => rw [Lexer.reads, ih, lexer.next_feed.2, (Feed.reads_next _).2]

theorem lineContent_lineFeed (text : List Char) :
    lineContent (text ++ ['\n']) = lineContent text := by
  simp [lineContent]

theorem eventsOfLine_lineFeed (line : List UInt8) :
    eventsOfLine (line ++ [lineFeed]) = eventsOfLine line := by
  have text : Utf8.decode (line ++ [lineFeed]) = Utf8.decode line ++ ['\n'] :=
    Utf8.decode_append_lineFeed line []
  simp only [eventsOfLine, tokensOfLine, text, lineContent_lineFeed]

theorem eventsOfLine_nil : eventsOfLine [] = [] := by
  simp [eventsOfLine, tokensOfLine, Utf8.decode, Utf8.decodeFrom, lineContent, Lexeme.ofText,
    tokensOfLexemes]

namespace Source

/-- The lines of the source's text: what stands between line feeds. Where the source fails, its
    last line is incomplete and does not count. -/
def textLines (source : Source) : List (List Char) :=
  match source.failure with
  | none => (Utf8.decode source.bytes).splitOn '\n'
  | some cutoff => ((Utf8.decode (source.bytes.take cutoff.bytes)).splitOn '\n').dropLast

/-- The lines that are read deliver what the pieces between line feeds deliver. -/
theorem flatMap_splitLines (bytes : List UInt8) :
    (splitLines bytes).flatMap eventsOfLine = (bytes.splitOn lineFeed).flatMap eventsOfLine := by
  induction bytes using lines_induction with
  | last line other =>
      by_cases none : line = []
      · subst none
        simp [splitLines, eventsOfLine_nil]
      · rw [splitLines_of_not_mem other none, splitOn_of_not_mem other]
  | next line rest other ih =>
      rw [splitLines_append_lineFeed other, splitOn_append other, List.flatMap_cons,
        List.flatMap_cons, eventsOfLine_lineFeed, ih]

/-- Only the pieces that a line feed ends are lines of a source that fails. -/
theorem flatMap_complete (bytes : List UInt8) :
    ((splitLines bytes).filter (·.getLast? == some lineFeed)).flatMap eventsOfLine =
      (bytes.splitOn lineFeed).dropLast.flatMap eventsOfLine := by
  induction bytes using lines_induction with
  | last line other =>
      by_cases none : line = []
      · subst none
        rfl
      · simp [splitLines_of_not_mem other none, splitOn_of_not_mem other,
          not_getLast?_lineFeed other]
  | next line rest other ih =>
      have more : rest.splitOn lineFeed ≠ [] := List.splitOnP_ne_nil _ _
      rw [splitLines_append_lineFeed other, splitOn_append other, List.dropLast_cons_of_ne_nil more]
      simp [ih, eventsOfLine_lineFeed]

/-- The source's events are those of some pieces of bytes, whose texts are the source's lines. -/
theorem pieces_deliver (source : Source) :
    ∃ pieces : List (List UInt8), source.textLines = pieces.map Utf8.decode ∧
      source.feed.events = pieces.flatMap eventsOfLine := by
  obtain ⟨bytes, _ | cutoff⟩ := source
  · exact ⟨bytes.splitOn lineFeed, decode_splitOn bytes, flatMap_splitLines bytes⟩
  · refine ⟨((bytes.take cutoff.bytes).splitOn lineFeed).dropLast, ?_, flatMap_complete _⟩
    simp only [textLines, decode_splitOn, List.map_dropLast]

end Source

end Reckon
