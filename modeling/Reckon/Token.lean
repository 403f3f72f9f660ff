import Reckon.Double.Text

/-! # Tokens

What the lexer hands to the parser. Every character that is no part of a word, a number or white
space is a token of its own; the table of operators says later which of them are operators.
-/

namespace Reckon

/-- A token of the language. -/
inductive Token where
  /-- Nothing is left. -/
  | eof
  /-- The word `def`, which starts a definition. -/
  | define
  /-- The word `extern`, which starts a declaration. -/
  | declare
  /-- Any other word. -/
  | ident (name : String)
  /-- A number, by its value. -/
  | number (value : Double)
  /-- A single character, standing for itself. -/
  | char (c : Char)
  deriving DecidableEq, Repr, Inhabited

namespace Token

/-- How messages name the token. -/
def describe : Token → String
  | eof => "end of input"
  | define => "'def'"
  | declare => "'extern'"
  | ident name => s!"identifier '{name}'"
  | number value => s!"number {value.plain}"
  | char c => s!"'{c}'"

def ofWord (word : String) : Token :=
  if word = "def" then define else if word = "extern" then declare else ident word

end Token

end Reckon
