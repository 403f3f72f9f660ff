import Reckon.Arguments.Settings
import Reckon.Arguments.Usage
import Reckon.Text.Similarity

/-! # Arguments

The arguments are read from left to right. A word behind dashes is a switch, and so is each letter
behind a single dash; the backend takes its name from the rest of the letters, from behind an equals
sign, or from the next argument unless that is a switch. A lone dash is no switch, two dashes end
the switches. Help and version are given as soon as they are met, and an unknown argument is refused
at once; a name that is no backend, and a switch that was given too often, only when all are read.
-/

namespace Reckon

/-- The arguments read so far. -/
structure Given where
  input : Option String := none
  /-- Every occurrence of a switch, in order. -/
  switches : List Switch := []
  /-- The names given for the backend, in order. -/
  backends : List String := []
  deriving DecidableEq, Repr

namespace Given

def add (given : Given) (s : Switch) : Given := { given with switches := given.switches ++ [s] }

/-- Adds a name for the backend. Equals signs in front of it are dropped. -/
def addBackend (given : Given) (name : List Char) : Given :=
  { given with backends := given.backends ++ [String.ofList (name.dropWhile (· == '='))] }

end Given

/-- Why arguments are refused. -/
inductive Refusal where
  /-- The argument is no switch, and no second file is read. -/
  | unknown (argument : String) (meant : Option Switch)
  /-- No backend has this name. -/
  | invalidBackend (name : String)
  /-- The switch can be given only once. -/
  | repeated (s : Switch)
  deriving DecidableEq, Repr

/-- Why the command does not run. -/
inductive Stop where
  | help
  | version
  | refused (refusal : Refusal) (given : Given)
  deriving DecidableEq, Repr

namespace Refusal

/-- A word in green. -/
def highlighted (word : String) : String := "\x1b[32m" ++ word ++ "\x1b[0m"

/-- The text up to the usage. -/
def reason : Refusal → String
  | unknown argument meant =>
    let suggestion :=
      match meant.bind Switch.long? with
      | some word => "\n\tDid you mean " ++ highlighted "--" ++ highlighted word ++ "?"
      | none => ""
    s!"Found argument '{argument}' which wasn't expected, or isn't valid in this context" ++
      suggestion
  | invalidBackend name =>
    let suggestion :=
      match Similarity.closest? name BackendKind.name [.ir, .llvm] with
      | some kind => s!"\n\tDid you mean '{highlighted kind.name}'?"
      | none => ""
    s!"'{name}' isn't a valid value for '{Switch.backend.display}'\n" ++
      "\t[possible values: ir, llvm]\n" ++ suggestion
  | repeated s =>
    s!"The argument '{s.display}' was provided more than once, " ++
      "but cannot be used multiple times"

/-- The switches that the usage shows: those given, one that was meant, and the backend, whose
    default counts as given once all arguments are read. -/
def used (given : Given) : Refusal → List Switch
  | unknown _ meant => given.switches ++ meant.toList
  | invalidBackend _ | repeated _ => .backend :: given.switches

def message (caller : Caller) (given : Given) (refusal : Refusal) : String :=
  s!"error: {refusal.reason}\n\n{caller.usage (refusal.used given)}\n\n" ++
    "For more information try --help"

end Refusal

/-- The text that is given instead of running. -/
def Stop.message (caller : Caller) : Stop → String
  | help => caller.helpText
  | version => caller.versionText
  | refused refusal given => refusal.message caller given

namespace Arguments

/-- What an argument looks like. -/
inductive Shape where
  /-- Two dashes. -/
  | endOfSwitches
  /-- A word behind two dashes or more, and what follows it from an equals sign on. -/
  | word (word : String) (value : Option (List Char))
  /-- Letters behind a dash. -/
  | letters (letters : List Char)
  /-- Anything else, a lone dash included. -/
  | plain
  deriving DecidableEq, Repr

def shapeOf (argument : String) : Shape :=
  match argument.toList with
  | ['-', '-'] => .endOfSwitches
  | '-' :: '-' :: rest =>
    let body := rest.dropWhile (· == '-')
    let value := body.dropWhile (· != '=')
    .word (String.ofList (body.takeWhile (· != '='))) (if value.isEmpty then none else some value)
  | '-' :: c :: rest => .letters (c :: rest)
  | _ => .plain

/-- What the next argument can be. -/
inductive Expecting where
  | anything
  /-- The name of the backend, unless it is a switch. -/
  | backendName
  /-- A file, whatever it looks like. -/
  | file
  deriving DecidableEq, Repr

/-- Reads a word behind dashes. A value behind a switch that takes none is dropped. -/
def readWord (given : Given) (word : String) (value : Option (List Char)) :
    Except Stop (Given × Expecting) :=
  match Switch.ofLong? word with
  | none =>
    let meant := Similarity.closest? word (fun s => s.long?.getD "") Switch.worded
    .error (.refused (.unknown s!"--{word}" meant) given)
  | some .help => .error .help
  | some .version => .error .version
  | some .backend =>
    match value with
    | some name => .ok ((given.add .backend).addBackend name, .anything)
    | none => .ok (given.add .backend, .backendName)
  | some s => .ok (given.add s, .anything)

/-- Reads letters behind a dash. -/
def readLetters (given : Given) : List Char → Except Stop (Given × Expecting)
  | [] => .ok (given, .anything)
  | letter :: rest =>
    match Switch.ofShort? letter with
    | none => .error (.refused (.unknown s!"-{letter}" none) given)
    | some .help => .error .help
    | some .version => .error .version
    | some .backend =>
      if rest.isEmpty then .ok (given.add .backend, .backendName)
      else .ok ((given.add .backend).addBackend rest, .anything)
    | some s => readLetters (given.add s) rest

def readInput (given : Given) (argument : String) : Except Stop Given :=
  match given.input with
  | none => .ok { given with input := some argument }
  | some _ => .error (.refused (.unknown argument none) given)

def readOne (given : Given) (expecting : Expecting) (argument : String) :
    Except Stop (Given × Expecting) :=
  match expecting, shapeOf argument with
  | .file, _ => do pure (← readInput given argument, .file)
  | _, .endOfSwitches => .ok (given, .file)
  | _, .word word value => readWord given word value
  | _, .letters letters => readLetters given letters
  | .backendName, .plain =>
    .ok ({ given with backends := given.backends ++ [argument] }, .anything)
  | .anything, .plain => do pure (← readInput given argument, .anything)

/-- The switches that can be given only once. -/
def single : List Switch := [.backend, .noEval, .quiet]

/-- The settings of all arguments. -/
def conclude (given : Given) : Except Stop Settings :=
  match given.backends.find? fun name => (BackendKind.ofName? name).isNone with
  | some name => .error (.refused (.invalidBackend name) given)
  | none =>
    match single.find? fun s => 1 < given.switches.count s with
    | some s => .error (.refused (.repeated s) given)
    | none => .ok {
        input := given.input
        backend := (given.backends.head?.bind BackendKind.ofName?).getD .ir
        prompt := given.input.isNone && !given.switches.contains .quiet
        evaluate := !given.switches.contains .noEval
        verbosity := given.switches.count .verbose }

def read (arguments : List String) : Except Stop Settings := do
  let start : Given × Expecting := ({}, .anything)
  let (given, _) ← arguments.foldlM (fun (given, expecting) => readOne given expecting) start
  conclude given

end Arguments

end Reckon
