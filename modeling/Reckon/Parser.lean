import Reckon.Expr
import Reckon.Feed
import Reckon.Operators

/-! # The parser

A recursive descent parser with one token of lookahead, which climbs precedences between operands:
`Parser.climb` takes the operators that bind at least as tight as its bound, and gives a right
operand to the operator after it if that one binds tighter. An error leaves the parser where it
was met, so that a caller can go on from there.

The functions that call each other count down a depth. Each call goes one deeper, and no chain of
calls can be deeper than twice the tokens left and a little more, since a call that reads no token
leads to one that does. `Parser.depth` is that bound; it is never reached.
-/

namespace Reckon

/-- Why a form cannot be parsed. -/
inductive ParseError where
  | expectedCloseParen
  | unknownToken (token : Token)
  | expectedArgumentDelimiter (token : Token)
  | expectedFunctionName (token : Token)
  | expectedPrototypeOpen (token : Token)
  | expectedPrototypeClose (token : Token)
  /-- There is no next token. -/
  | read (error : ReadError)
  deriving DecidableEq, Repr

namespace ParseError

def message : ParseError → String
  | expectedCloseParen => "expected ')'"
  | unknownToken token => s!"unknown token {token.describe}, expected an expression"
  | expectedArgumentDelimiter token =>
    s!"expected ')' or ',' in argument list, found {token.describe}"
  | expectedFunctionName token => s!"expected function name in prototype, found {token.describe}"
  | expectedPrototypeOpen token => s!"expected '(' in prototype, found {token.describe}"
  | expectedPrototypeClose token => s!"expected ')' in prototype, found {token.describe}"
  | read error => error.message

end ParseError

/-- A parser between two tokens. -/
structure Parser where
  /-- The token to parse next. -/
  current : Token
  /-- What comes after it. -/
  feed : Feed
  operators : Operators
  deriving Repr, Inhabited

/-- A step of a parser. -/
abbrev Parse := EStateM ParseError Parser

namespace Parser

/-- A parser that has read nothing: its current token is the end of input until it advances. -/
def ofFeed (feed : Feed) : Parser := ⟨.eof, feed, .standard⟩

/-- The events still to be parsed, the current token among them. -/
def left (p : Parser) : Nat := p.feed.events.length + if p.current = .eof then 0 else 1

/-- A depth that no chain of calls reaches. -/
def depth (p : Parser) : Nat := 2 * p.left + 3

/-- The current token as a binary operator, with its precedence. -/
def operator? (p : Parser) : Option (Char × Int32) :=
  match p.current with
  | .char op => (p.operators.precedence? op).map (op, ·)
  | _ => none

/-- Reads the next token. If there is none, the current token stays. -/
def advance : Parse Unit := fun p =>
  match p.feed.next with
  | (.ok current, feed) => .ok () { p with current, feed }
  | (.error e, feed) => .error (.read e) { p with feed }

def peek : Parse Token := fun p => .ok p.current p

def peekOperator? : Parse (Option (Char × Int32)) := fun p => .ok p.operator? p

/-- Fails at the current token. -/
def fail (error : Token → ParseError) : Parse α := fun p => .error (error p.current) p

/-- Takes one character, or fails at the current token. -/
def expect (c : Char) (error : Token → ParseError) : Parse Unit := do
  if (← peek) = .char c then advance else fail error

mutual

/-- An operand and the operators after it. -/
def expressionWithin : Nat → Parse Expr
  | 0 => fail .unknownToken
  | depth + 1 => do
    let left ← operandWithin depth
    climb depth 0 left

/-- A literal, a variable, a call, or an expression in brackets. -/
def operandWithin : Nat → Parse Expr
  | 0 => fail .unknownToken
  | depth + 1 => do
    match ← peek with
    | .number value =>
      advance
      pure (.number value)
    | .ident name =>
      advance
      if (← peek) = .char '(' then
        advance
        let args ← if (← peek) = .char ')' then pure [] else argumentsWithin depth
        advance
        pure (.call name args)
      else pure (.var name)
    | .char '(' =>
      advance
      let inner ← expressionWithin depth
      expect ')' fun _ => .expectedCloseParen
      pure inner
    | _ => fail .unknownToken

/-- One argument or more, up to the closing bracket, which stays the current token. -/
def argumentsWithin : Nat → Parse (List Expr)
  | 0 => fail .unknownToken
  | depth + 1 => do
    let arg ← expressionWithin depth
    match ← peek with
    | .char ')' => pure [arg]
    | .char ',' =>
      advance
      let args ← argumentsWithin depth
      pure (arg :: args)
    | _ => fail .expectedArgumentDelimiter

/-- The operators after an operand, as far as their precedence is at least `least`. -/
def climb : Nat → Int32 → Expr → Parse Expr
  | 0, _, _ => fail .unknownToken
  | depth + 1, least, left => do
    match ← peekOperator? with
    | none => pure left
    | some (op, precedence) =>
      if precedence < least then pure left
      else
        advance
        let operand ← operandWithin depth
        let right ←
          match ← peekOperator? with
          | none => pure operand
          | some (_, next) =>
            if precedence < next then climb depth (precedence + 1) operand else pure operand
        climb depth least (.binary op left right)

end

def expression : Parse Expr := fun p => expressionWithin p.depth p

/-- Names up to the first token that is none; at most `count` of them. -/
def names : Nat → Parse (List String)
  | 0 => pure []
  | count + 1 => do
    advance
    match ← peek with
    | .ident name =>
      let rest ← names count
      pure (name :: rest)
    | _ => pure []

/-- A name, and names between brackets. -/
def prototype : Parse Prototype := do
  match ← peek with
  | .ident name =>
    advance
    if (← peek) = .char '(' then
      let params ← fun p => names (p.feed.events.length + 1) p
      expect ')' .expectedPrototypeClose
      pure ⟨name, params⟩
    else fail .expectedPrototypeOpen
  | _ => fail .expectedFunctionName

/-- A prototype after the word that announces it. -/
def declaration : Parse Prototype := do
  advance
  prototype

/-- A prototype and its body, after the word that announces them. -/
def definition : Parse Definition := do
  advance
  let prototype ← prototype
  let body ← expression
  pure ⟨prototype, body⟩

/-- An expression as the body of a function without a name. -/
def bareExpression : Parse Definition := do
  let body ← expression
  pure ⟨.anonymous, body⟩

/-- The form that starts at the current token. -/
def form : Parse Form := do
  match ← peek with
  | .define => .definition <$> definition
  | .declare => .declaration <$> declaration
  | _ => .definition <$> bareExpression

end Parser

end Reckon
