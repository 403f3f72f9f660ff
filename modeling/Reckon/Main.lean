import Reckon.Command

/-! # The program

Reads the source and writes what the command says. With a prompt someone is typing, so the session
is run again on all that was typed so far, as a source that fails at its end, whenever more of it
arrives: what such a session wrote is the beginning of what the whole session writes.
-/

namespace Reckon.Program

/-- The system's words and number for an error. -/
def reasonOf (e : IO.Error) : String :=
  match e with
  | .noFileOrDirectory _ code details | .permissionDenied _ code details
  | .inappropriateType _ code details | .resourceExhausted _ code details
  | .invalidArgument _ code details => s!"{details} (os error {code})"
  | .hardwareFault code details | .otherError code details => s!"{details} (os error {code})"
  | e => toString e

/-- Reads a stream to its end or to its failure. -/
def readAll (read : IO ByteArray) : IO Source := do
  let mut bytes : ByteArray := .empty
  repeat
    match ← read.toBaseIO with
    | .ok chunk =>
      if chunk.isEmpty then return ⟨bytes.toList, none⟩
      bytes := bytes ++ chunk
    | .error e => return ⟨bytes.toList, some ⟨bytes.size, reasonOf e⟩⟩
  return ⟨bytes.toList, none⟩

/-- Opens a file and reads it, or gives the reason why it cannot be opened. -/
def readPath (path : String) : IO (Except String Source) := do
  match ← (IO.FS.Handle.mk path .read).toBaseIO with
  | .ok handle => return .ok (← readAll (handle.read 65536))
  | .error e => return .error (reasonOf e)

/-- Writes an outcome, but for what was written to standard error before. -/
def finish (outcome : Outcome) (before : Nat) : IO UInt32 := do
  let out ← IO.getStdout
  let err ← IO.getStderr
  out.write outcome.out
  out.flush
  err.write (outcome.err.extract before outcome.err.size)
  err.flush
  return outcome.code

/-- Runs a session on what is typed, as it is typed. -/
def converse (settings : Settings) : IO UInt32 := do
  let input ← IO.getStdin
  let err ← IO.getStderr
  let mut bytes : ByteArray := .empty
  let mut shown := 0
  repeat
    let source : Source := ⟨bytes.toList, some ⟨bytes.size, ""⟩⟩
    match Session.run (Command.session settings source) with
    | .error (.parse (.read (.failed _))) s =>
      err.write (s.sink.written.extract shown s.sink.written.size)
      err.flush
      shown := s.sink.written.size
    | _ => return ← finish (Command.runOn settings source) shown
    match ← (input.read 65536).toBaseIO with
    | .ok chunk =>
      if chunk.isEmpty then
        return ← finish (Command.runOn settings ⟨bytes.toList, none⟩) shown
      bytes := bytes ++ chunk
    | .error e =>
      let source : Source := ⟨bytes.toList, some ⟨bytes.size, reasonOf e⟩⟩
      return ← finish (Command.runOn settings source) shown
  return 0

end Reckon.Program

open Reckon in
/-- Runs the command on standard input or on the file that it is given. -/
def main (arguments : List String) : IO UInt32 := do
  match Arguments.read arguments with
  | .error stop => Program.finish (Command.stopped {} stop) 0
  | .ok settings =>
    match settings.input with
    | some path =>
      match ← Program.readPath path with
      | .error reason => Program.finish (Command.unopened path reason) 0
      | .ok source => Program.finish (Command.runOn settings source) 0
    | none =>
      if settings.prompt && settings.backend = .ir then Program.converse settings
      else if settings.backend = .llvm then Program.finish (Command.runOn settings ⟨[], none⟩) 0
      else
        let input ← IO.getStdin
        Program.finish (Command.runOn settings (← Program.readAll (input.read 65536))) 0
