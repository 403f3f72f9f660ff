import Reckon.Proofs.Reading.Delivery

/-! # Parts of sources

A source that fails behind its first bytes still delivers the lines that are complete within them:
the first lines of all, as many as there are line feeds in these bytes. What those lines deliver is
the beginning of what the source would deliver if it did not fail. And bytes that are put behind
complete lines change nothing of what these deliver.
-/

namespace Reckon

/-- How many lines end within the first bytes. -/
def linesWithin (bytes : List UInt8) (count : Nat) : Nat := (bytes.take count).count lineFeed

theorem take_append_lineFeed {line : List UInt8} (rest : List UInt8) {count : Nat}
    (enough : line.length < count) : (line ++ lineFeed :: rest).take count =
      line ++ lineFeed :: rest.take (count - (line.length + 1)) := by
  obtain ⟨more, rfl⟩ := Nat.exists_eq_add_of_lt enough
  rw [List.take_append, List.take_of_length_le (by omega),
    show line.length + more + 1 - line.length = more + 1 by omega, List.take_succ_cons,
    show line.length + more + 1 - (line.length + 1) = more by omega]

/-- The complete lines of the first bytes are the first lines of all. -/
theorem splitLines_take (bytes : List UInt8) (count : Nat) :
    (splitLines (bytes.take count)).filter (·.getLast? == some lineFeed) =
      (splitLines bytes).take (linesWithin bytes count) := by
  have incomplete : ∀ (line : List UInt8) (all : List (List UInt8)), lineFeed ∉ line →
      (splitLines line).filter (·.getLast? == some lineFeed) = all.take (line.count lineFeed) := by
    intro line all other
    rw [List.count_eq_zero.mpr other, List.take_zero]
    by_cases none : line = []
    · subst none
      rfl
    · simp [splitLines_of_not_mem other none, not_getLast?_lineFeed other]
  induction bytes using lines_induction generalizing count with
  | last line other => exact incomplete _ _ fun mem => other (List.mem_of_mem_take mem)
  | next line rest other ih =>
      by_cases enough : line.length < count
      · rw [linesWithin, take_append_lineFeed rest enough, splitLines_append_lineFeed other,
          splitLines_append_lineFeed other, List.filter_cons_of_pos (by simp), ih,
          List.count_append, List.count_cons_self, List.count_eq_zero.mpr other, Nat.zero_add,
          List.take_succ_cons]
        rfl
      · rw [linesWithin, List.take_append_of_le_length (Nat.le_of_not_lt enough)]
        exact incomplete _ _ fun mem => other (List.mem_of_mem_take mem)

/-- What the lines that are not complete within the first bytes deliver, if all are read. -/
def feedBehind (bytes : List UInt8) (count : Nat) : Feed :=
  ⟨((splitLines bytes).drop (linesWithin bytes count)).flatMap eventsOfLine, .finished⟩

/-- A source that fails delivers what its complete lines do, and then fails. -/
theorem Source.feed_of_failing (bytes : List UInt8) (cutoff : Cutoff) :
    (Source.mk bytes (some cutoff)).feed =
      ⟨((splitLines bytes).take (linesWithin bytes cutoff.bytes)).flatMap eventsOfLine,
        .failed cutoff.reason⟩ := by
  rw [← splitLines_take]
  rfl

/-- What a source delivers that does not fail, it delivers up to a failure, and then behind. -/
theorem Source.feed_of_working (bytes : List UInt8) (cutoff : Cutoff) :
    (Source.mk bytes none).feed =
      ⟨(Source.mk bytes (some cutoff)).feed.events ++ (feedBehind bytes cutoff.bytes).events,
        .finished⟩ := by
  rw [feed_of_failing, feedBehind, ← List.flatMap_append, List.take_append_drop]
  rfl

theorem splitLines_append {first : List UInt8}
    (wholeLines : first = [] ∨ first.getLast? = some lineFeed) (rest : List UInt8) :
    splitLines (first ++ rest) = splitLines first ++ splitLines rest := by
  induction first using lines_induction with
  | last line other =>
      rcases wholeLines with rfl | last
      · rfl
      · exact absurd last (not_getLast?_lineFeed other)
  | next line later other ih =>
      have wholeToo : later = [] ∨ later.getLast? = some lineFeed := by
        by_cases none : later = []
        · exact .inl none
        · right
          have last := List.getLast?_eq_some_getLast none
          simpa [List.getLast?_append, List.getLast?_cons, last] using wholeLines
      rw [List.append_assoc, List.cons_append, splitLines_append_lineFeed other,
        splitLines_append_lineFeed other, ih wholeToo, List.cons_append]

theorem Source.feed_append {first : List UInt8}
    (wholeLines : first = [] ∨ first.getLast? = some lineFeed) (rest : List UInt8) :
    (Source.mk (first ++ rest) none).feed =
      ⟨(Source.mk first none).feed.events ++ (Source.mk rest none).feed.events, .finished⟩ := by
  simp only [feed_eq, lines, ending, splitLines_append wholeLines, List.flatMap_append]

/-- A line with a number that has no value delivers that number first. -/
theorem Source.feed_of_bad {line rest : List UInt8} {text : String}
    (isLine : splitLines (line ++ rest) = line :: splitLines rest)
    (bad : (tokensOfLine line).2 = some text) :
    ∃ more, (Source.mk (line ++ rest) none).feed = ⟨.invalidNumber text :: more, .finished⟩ := by
  refine ⟨(tokensOfLine line).1.map .token ++ (splitLines rest).flatMap eventsOfLine, ?_⟩
  rw [Source.feed_eq, Source.lines, Source.ending]
  simp only [isLine, List.flatMap_cons, eventsOfLine, bad, Option.map_some, Option.toList_some,
    List.cons_append, List.nil_append]

end Reckon
