import Reckon.Path

/-! # Switches and usage

The switches that the command knows, and the texts that explain them.
-/

namespace Reckon

/-- A switch of the command, in the order in which usage lists them. -/
inductive Switch where
  | backend
  | help
  | noEval
  | quiet
  | version
  | verbose
  deriving DecidableEq, Repr

namespace Switch

/-- All switches, in order. -/
def all : List Switch := [backend, help, noEval, quiet, version, verbose]

/-- The word behind two dashes. -/
def long? : Switch → Option String
  | backend => some "backend"
  | help => some "help"
  | noEval => some "no-eval"
  | quiet => some "quiet"
  | version => some "version"
  | verbose => none

/-- The letter behind one dash. -/
def short? : Switch → Option Char
  | backend => some 'b'
  | help => some 'h'
  | noEval => none
  | quiet => some 'q'
  | version => some 'V'
  | verbose => some 'v'

/-- How usage and errors write the switch. -/
def display : Switch → String
  | backend => "--backend <backend>"
  | help => "--help"
  | noEval => "--no-eval"
  | quiet => "--quiet"
  | version => "--version"
  | verbose => "-v"

def ofLong? (word : String) : Option Switch := all.find? (·.long? = some word)

def ofShort? (letter : Char) : Option Switch := all.find? (·.short? = some letter)

/-- The switches with a word, in the order in which one that was meant is looked for: help and
    version come behind those that change a setting, and the backend, which takes a value, comes
    last. -/
def worded : List Switch := [quiet, noEval, help, version, backend]

theorem mem_worded (s : Switch) : s ∈ worded ↔ s.long?.isSome := by
  cases s <;> decide

end Switch

def commandName : String := "kaleido"

/-- The name under which the command was called, which its usage shows. -/
structure Caller where
  name : String := commandName
  deriving DecidableEq, Repr

namespace Caller

/-- The last name on the path of the program. -/
def ofProgram (path : String) : Caller :=
  match Path.fileName? path with
  | some name => ⟨name⟩
  | none => {}

/-- The name in the title: that of the command, unless it was called by words with blanks between
    them, which are then joined by dashes. -/
def title (caller : Caller) : String :=
  if caller.name.contains ' ' then
    String.ofList (caller.name.toList.map fun c => if c = ' ' then '-' else c)
  else commandName

/-- The usage of a call in which these switches were used, or of any call if none were. -/
def usage (caller : Caller) (used : List Switch) : String :=
  "USAGE:\n    " ++ caller.name ++
    if used.isEmpty then " [FLAGS] [OPTIONS] [INPUT]"
    else String.join ((Switch.all.filter used.contains).map fun s => " " ++ s.display)

def versionText (caller : Caller) : String := caller.title ++ " 0.1.0"

def helpText (caller : Caller) : String :=
  "\n".intercalate [
    caller.versionText,
    "interactive front end for a tiny expression language",
    "",
    caller.usage [],
    "",
    "FLAGS:",
    "    -h, --help       Prints help information",
    "        --no-eval    do not evaluate top-level expressions",
    "    -q, --quiet      do not print the ready> prompt",
    "    -V, --version    Prints version information",
    "    -v               increase log verbosity, may be repeated",
    "",
    "OPTIONS:",
    "    -b, --backend <backend>    code generation backend [default: ir]  " ++
      "[possible values: ir, llvm]",
    "",
    "ARGS:",
    "    <INPUT>    source file to read, stdin when omitted"]

end Caller

end Reckon
