import Reckon.Compile
import Reckon.Parser

/-! # Sessions

A session reads forms, compiles them into one module, reports each, and at the end of input prints
the module. A bare expression is evaluated and its function removed again. A malformed form is
reported, and the session goes on after the token that the parser stopped at, or at that token if
a form can start there; an error of the compiler costs no token, since its form was read whole.
What ends a session early is a failure to read or to write, and a number without a value where
the session itself reads a token between forms.
-/

namespace Reckon

/-- What a session writes to: the bytes written so far, and where writing fails if it does. -/
structure Sink where
  written : ByteArray := .empty
  failure : Option Cutoff := none

namespace Sink

/-- Writes a text. Past the breaking point nothing is written, and the reason is given. -/
def write (sink : Sink) (text : String) : Option String × Sink :=
  let bytes := text.toUTF8
  match sink.failure with
  | none => (none, { sink with written := sink.written ++ bytes })
  | some cutoff =>
    let room := cutoff.bytes - sink.written.size
    if bytes.size ≤ room then (none, { sink with written := sink.written ++ bytes })
    else (some cutoff.reason, { sink with written := sink.written ++ bytes.extract 0 room })

end Sink

/-- How a session talks. -/
structure Options where
  /-- Write a prompt before each form. -/
  prompt : Bool := false
  /-- Evaluate bare expressions if the backend can. -/
  evaluate : Bool := true
  deriving DecidableEq, Repr

/-- Why a session ends early. -/
inductive SessionError where
  /-- A token could not be read. -/
  | parse (error : ParseError)
  /-- The output failed. -/
  | write (reason : String)
  deriving DecidableEq, Repr

def SessionError.message : SessionError → String
  | parse error => error.message
  | write reason => reason

/-- All that a session owns. -/
structure Session where
  parser : Parser
  backend : Backend
  sink : Sink
  options : Options

/-- How reports announce a form. -/
def Form.heading : Form → String
  | .declaration _ => "Read extern:"
  | .definition d =>
    if d.prototype.isAnonymous then "Read top-level expression:" else "Read function definition:"

def Form.isBare : Form → Bool
  | .declaration _ => false
  | .definition d => d.prototype.isAnonymous

namespace Session

/-- A step of a session. -/
abbrev Act := EStateM SessionError Session

/-- Writes a text. -/
def write (text : String) : Act Unit := fun s =>
  match s.sink.write text with
  | (none, sink) => .ok () { s with sink }
  | (some reason, sink) => .error (.write reason) { s with sink }

def writeLine (line : String) : Act Unit := write (line ++ "\n")

/-- Writes the prompt, if one is wanted. -/
def prompt : Act Unit := do
  if (← get).options.prompt then write "ready> " else pure ()

/-- Reports an error. -/
def report (message : String) : Act Unit := writeLine s!"Error: {message}"

def advance : Act Unit := fun s =>
  match s.parser.advance with
  | .ok () parser => .ok () { s with parser }
  | .error e parser => .error (.parse e) { s with parser }

def parseForm : Act (Except ParseError Form) := fun s =>
  match Parser.form s.parser with
  | .ok form parser => .ok (.ok form) { s with parser }
  | .error e parser => .ok (.error e) { s with parser }

def compileForm (form : Form) : Act (Except CompileError Ir.FunctionId) := fun s =>
  match form.compile s.backend with
  | .ok id backend => .ok (.ok id) { s with backend }
  | .error e backend => .ok (.error e) { s with backend }

/-- Reports that a form could not be parsed, and skips the token that the parser stopped at unless
    a form starts there or none is left. A failed source ends the session unreported. -/
def recover (error : ParseError) : Act Unit := do
  match error with
  | .read (.failed _) => throw (.parse error)
  | _ =>
    report error.message
    match (← get).parser.current with
    | .eof | .define | .declare => pure ()
    | _ => advance

/-- Evaluates a bare expression's function, if that is wanted, removes it and reports its value. -/
def evaluateBare (id : Ir.FunctionId) : Act Unit := do
  let s ← get
  let value := if s.options.evaluate then s.backend.evaluate id else none
  set { s with backend := s.backend.remove id }
  match value with
  | some (.ok value) => writeLine s!"Evaluated to {value.plain}"
  | some (.error e) => report e.message
  | none => pure ()

/-- Parses, compiles and reports one form. -/
def handleForm : Act Unit := do
  match ← parseForm with
  | .error e => recover e
  | .ok form =>
    match ← compileForm form with
    | .error e => report e.message
    | .ok id =>
      writeLine form.heading
      write ((← get).backend.target.textOf id)
      if form.isBare then evaluateBare id else pure ()

/-- One round of the session: a `;` is skipped, and at any other token but the end of input a form
    is handled and the prompt for the next one written. Tells whether there was a token. -/
def round : Act Bool := do
  match (← get).parser.current with
  | .eof => pure false
  | .char ';' =>
    advance
    pure true
  | _ =>
    handleForm
    prompt
    pure true

/-- Rounds up to the end of input, at most `count` of them. -/
def rounds : Nat → Act Unit
  | 0 => pure ()
  | count + 1 => do
    if ← round then rounds count else pure ()

/-- All rounds. Each takes a token or a number without a value off what is left, so what is left
    bounds their count. -/
def allRounds : Act Unit := fun s => rounds (s.parser.left + 1) s

/-- Runs the session: all forms, and then the module. -/
def run : Act Unit := do
  prompt
  advance
  allRounds
  write (← get).backend.target.text

end Session

end Reckon
