import Reckon.Feed
import Reckon.Lexeme
import Reckon.Text.Utf8

/-! # The lexer

The lexer reads a line when it has no token left, and cuts it into tokens. Line breaks at its end
and everything from `#` on are dropped first. A number without a value spoils the rest of its line:
the error is delivered at once, ahead of the tokens that stand before the number, and nothing after
the number is. `Lexer.next` reads one token; `Lexer.feed` is all that the lexer will ever deliver.
-/

namespace Reckon

/-- The part of a decoded line that holds tokens: without the line breaks at its end and without
    its comment. -/
def lineContent (text : List Char) : List Char :=
  (text.reverse.dropWhile fun c => c == '\n' || c == '\r').reverse.takeWhile (· != '#')

/-- The tokens of some lexemes up to the first number without a value, and that number's text. -/
def tokensOfLexemes : List Lexeme → List Token × Option String
  | [] => ([], none)
  | lexeme :: lexemes =>
    match lexeme.token with
    | .ok token =>
      let (tokens, invalid) := tokensOfLexemes lexemes
      (token :: tokens, invalid)
    | .error text => ([], some text)

/-- The tokens of a line of bytes up to the first number without a value, and that number's
    text. -/
def tokensOfLine (line : List UInt8) : List Token × Option String :=
  tokensOfLexemes (Lexeme.ofText (lineContent (Utf8.decode line)))

/-- What a line delivers: the number without a value if there is one, then the tokens. -/
def eventsOfLine (line : List UInt8) : List Event :=
  let (tokens, invalid) := tokensOfLine line
  (invalid.map Event.invalidNumber).toList ++ tokens.map .token

/-- A lexer between two tokens. -/
structure Lexer where
  /-- Tokens of the lines read so far. -/
  pending : List Token
  /-- What is still to be read. -/
  source : Source
  /-- The end of the source was reached. -/
  exhausted : Bool
  deriving Repr

namespace Lexer

def ofSource (source : Source) : Lexer := ⟨[], source, false⟩

/-- Reads one token, and for it as many lines as it takes to find one. -/
def next (lexer : Lexer) : Except ReadError Token × Lexer :=
  match lexer.pending with
  | token :: pending => (.ok token, { lexer with pending })
  | [] =>
    if lexer.exhausted then (.ok .eof, lexer)
    else
      match _ : lexer.source.readLine with
      | (.error reason, source) => (.error (.failed reason), { lexer with source })
      | (.ok [], source) => (.ok .eof, { lexer with source, exhausted := true })
      | (.ok (byte :: line), source) =>
        match tokensOfLine (byte :: line) with
        | (pending, some text) => (.error (.invalidNumber text), { lexer with pending, source })
        | (pending, none) => next { lexer with pending, source }
termination_by lexer.source.bytes.length
decreasing_by exact Source.length_of_readLine ‹_›

/-- All that the lexer will deliver. -/
def feed (lexer : Lexer) : Feed :=
  let ready := lexer.pending.map Event.token
  if lexer.exhausted then ⟨ready, .finished⟩
  else ⟨ready ++ lexer.source.lines.flatMap eventsOfLine, lexer.source.ending⟩

end Lexer

def Source.feed (source : Source) : Feed := (Lexer.ofSource source).feed

theorem Source.feed_eq (source : Source) :
    source.feed = ⟨source.lines.flatMap eventsOfLine, source.ending⟩ := rfl

end Reckon
