import Reckon.Source
import Reckon.Token

/-! # Feeds

A feed is all that a lexer will deliver: a list of events, each a token or a number that has no
value, and then the ending of the source, again and again. The parser takes its tokens from a
feed, so that what it does depends on the events alone and not on the lines they stood on.
-/

namespace Reckon

/-- Why no token could be read. -/
inductive ReadError where
  /-- The source failed. -/
  | failed (reason : String)
  /-- The number has digits without a value. -/
  | invalidNumber (text : String)
  deriving DecidableEq, Repr

namespace ReadError

def message : ReadError → String
  | failed reason => s!"failed to read input: {reason}"
  | invalidNumber text => s!"invalid number literal {text}"

end ReadError

/-- One thing that a source delivers before it ends. -/
inductive Event where
  | token (token : Token)
  | invalidNumber (text : String)
  deriving DecidableEq, Repr

namespace Event

/-- What reading the event gives. -/
def read : Event → Except ReadError Token
  | token t => .ok t
  | invalidNumber text => .error (.invalidNumber text)

end Event

namespace Ending

/-- What reading past the last event gives. -/
def read : Ending → Except ReadError Token
  | finished => .ok .eof
  | failed reason => .error (.failed reason)

end Ending

/-- The events still to be delivered, and what comes after them. -/
structure Feed where
  events : List Event
  ending : Ending
  deriving DecidableEq, Repr, Inhabited

namespace Feed

/-- Some tokens, then the end of input. -/
def ofTokens (tokens : List Token) : Feed := ⟨tokens.map .token, .finished⟩

def next (feed : Feed) : Except ReadError Token × Feed :=
  match feed.events with
  | [] => (feed.ending.read, feed)
  | event :: events => (event.read, { feed with events })

end Feed

end Reckon
