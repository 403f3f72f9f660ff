/-! # Settings

What the arguments of the command come to.
-/

namespace Reckon

/-- What code is generated for. -/
inductive BackendKind where
  /-- The module of this library. -/
  | ir
  /-- A native code generator, which is not built in. -/
  | llvm
  deriving DecidableEq, Repr

def BackendKind.name : BackendKind → String
  | ir => "ir"
  | llvm => "llvm"

def BackendKind.ofName? (name : String) : Option BackendKind :=
  [ir, llvm].find? (·.name = name)

/-- How much is logged. -/
inductive LogLevel where
  | warn
  | info
  | debug
  | trace
  deriving DecidableEq, Repr

def LogLevel.name : LogLevel → String
  | warn => "warn"
  | info => "info"
  | debug => "debug"
  | trace => "trace"

/-- What the command is to do. -/
structure Settings where
  /-- The file to read; standard input without one. -/
  input : Option String
  backend : BackendKind
  /-- Write a prompt before each form. -/
  prompt : Bool
  /-- Evaluate bare expressions. -/
  evaluate : Bool
  verbosity : Nat
  deriving DecidableEq, Repr

/-- The level of a verbosity. -/
def Settings.logLevel (s : Settings) : LogLevel :=
  match s.verbosity with
  | 0 => .warn
  | 1 => .info
  | 2 => .debug
  | _ => .trace

end Reckon
