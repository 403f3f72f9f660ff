import Reckon.Proofs.Reading.Lexemes

/-! # What a source delivers

Reading a source on and on gives what its lines deliver, one after the other, and then the source's
ending. A line is the text between two line feeds of the decoded source, and what it delivers is
said of the longest lexemes that cut it: their tokens, with a number that has no value reported
ahead of the tokens before it, and nothing of what is behind it.
-/

namespace Reckon

/-- What a line of text delivers. -/
inductive Delivers (text : List Char) : List Event → Prop
  | tokens {lexemes : List Lexeme} {tokens : List Token} :
      Lexeme.Cuts (beforeComment text) lexemes → Lexeme.Yields lexemes (tokens, none) →
      Delivers text (tokens.map .token)
  | invalidNumber {lexemes : List Lexeme} {before : List Token} {number : String} :
      Lexeme.Cuts (beforeComment text) lexemes → Lexeme.Yields lexemes (before, some number) →
      Delivers text (.invalidNumber number :: before.map .token)

theorem delivers_eventsOfLine (line : List UInt8) :
    Delivers (Utf8.decode line) (eventsOfLine line) := by
  have cuts := Lexeme.cuts_ofText (beforeComment (Utf8.decode line))
  have yields := yields_tokensOfLine line
  unfold eventsOfLine
  generalize tokensOfLine line = yielded at yields
  obtain ⟨tokens, _ | number⟩ := yielded
  · exact .tokens cuts yields
  · exact .invalidNumber cuts yields

/-- Reading on and on gives what the lines of the source's text deliver, line by line, and then the
    source's ending forever; and the texts of the lines, decoded one by one, are the lines of the
    text decoded as a whole. -/
theorem Lexer.reads_source (source : Source) :
    (∃ delivered : List (List Event),
      List.Forall₂ Delivers source.textLines delivered ∧
      ∀ count, (Lexer.ofSource source).reads count =
        (delivered.flatten.map Event.read)[count]?.getD source.ending.read) ∧
    ((splitLines source.bytes).map Utf8.decode).flatten = Utf8.decode source.bytes ∧
    (source.bytes.splitOn lineFeed).map Utf8.decode = (Utf8.decode source.bytes).splitOn '\n' := by
  refine ⟨?_, decode_splitLines source.bytes, (decode_splitOn source.bytes).symm⟩
  obtain ⟨pieces, texts, events⟩ := source.pieces_deliver
  refine ⟨pieces.map eventsOfLine, ?_, fun count => ?_⟩
  · rw [texts, List.forall₂_map_left_iff, List.forall₂_map_right_iff, List.forall₂_same]
    exact fun piece _ => delivers_eventsOfLine piece
  · rw [reads_eq, ← List.flatMap_def, ← events]
    rfl

end Reckon
