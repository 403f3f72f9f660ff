import Reckon.Arguments
import Reckon.Lexer
import Reckon.Session

/-! # The command

From settings and a source to what the command writes and the code it exits with. Help and version
go to standard output, all else to standard error.
-/

namespace Reckon

/-- What a run of the command leaves behind. -/
structure Outcome where
  code : UInt32
  out : ByteArray := .empty
  err : ByteArray := .empty

namespace Outcome

/-- A failure with its cause, reported behind what was written before. -/
def failure (written : ByteArray) (message : String) (cause : Option String) : Outcome :=
  let causeText :=
    match cause with
    | some cause => s!"\n\nCaused by:\n    {cause}"
    | none => ""
  { code := 1, err := written ++ s!"Error: {message}{causeText}\n".toUTF8 }

end Outcome

namespace Command

/-- What is written instead of a session. -/
def stopped (caller : Caller) (stop : Stop) : Outcome :=
  let text := (stop.message caller ++ "\n").toUTF8
  match stop with
  | .help | .version => { code := 0, out := text }
  | .refused _ _ => { code := 1, err := text }

def unopened (path reason : String) : Outcome :=
  .failure .empty s!"failed to open {path}" (some reason)

/-- The session of these settings on a source. Its module has the name of the command. -/
def session (settings : Settings) (source : Source) : Session where
  parser := .ofFeed source.feed
  backend := .empty commandName
  sink := {}
  options := { prompt := settings.prompt, evaluate := settings.evaluate }

/-- What is behind an error that ended a session. -/
def causeOf : SessionError → Option String
  | .parse (.read (.failed reason)) => some reason
  | _ => none

/-- Runs the settings on a source that was opened. -/
def runOn (settings : Settings) (source : Source) : Outcome :=
  match settings.backend with
  | .llvm =>
    .failure .empty "built without the llvm backend, rebuild with \x60--features llvm\x60" none
  | .ir =>
    match Session.run (session settings source) with
    | .ok () s => { code := 0, err := s.sink.written }
    | .error e s => .failure s.sink.written e.message (causeOf e)

def run (caller : Caller) (arguments : List String) (directory : Directory) (stdin : Source) :
    Outcome :=
  match Arguments.read arguments with
  | .error stop => stopped caller stop
  | .ok settings =>
    match settings.input with
    | none => runOn settings stdin
    | some path =>
      match directory.openPath path with
      | .error reason => unopened path reason
      | .ok source => runOn settings source

end Command

end Reckon
