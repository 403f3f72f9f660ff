import Reckon.Ir.Module

/-! # Building a module

The operations that change a module. Functions are added as declarations; opening a function gives
it an empty body and makes it the one that receives instructions, until another is opened or it is
cleared or deleted. An operation on a function that is gone changes nothing.
-/

namespace Reckon.Ir

/-- Why an operation on a module fails. -/
inductive Error where
  /-- No function is open. -/
  | noInsertionPoint
  | danglingFunction (id : FunctionId)
  /-- A declaration that the host has no function for. -/
  | unresolvedSymbol (name : String)
  | recursionLimit (frames : Nat)
  /-- Only a function without parameters can be evaluated. -/
  | notNullary (name : String) (arity : Nat)
  /-- A body that reads what it does not have, or does not return. -/
  | malformed (name : String)
  /-- The fault planned for a build call. -/
  | faultAtBuild (call : Nat)
  /-- The fault planned for opening a function. -/
  | faultAtEntry
  deriving DecidableEq, Repr

namespace Error

def message : Error → String
  | noInsertionPoint => "no insertion point, open a function body first"
  | danglingFunction id => s!"function {id.label} no longer exists"
  | unresolvedSymbol name => s!"unresolved external symbol {name}"
  | recursionLimit frames => s!"call depth exceeded {frames} frames"
  | notNullary name arity => s!"cannot evaluate function {name} taking {arity} arguments"
  | malformed name => s!"builder error: malformed function {name}"
  | faultAtBuild call => s!"builder error: injected at {call}"
  | faultAtEntry => "builder error: injected at entry"

end Error

namespace Module

def update (m : Module) (id : FunctionId) (change : Function → Function) : Module :=
  { m with functions := m.functions.map fun f => if f.id = id then change f else f }

/-- Adds a declaration at the end. -/
def addFunction (m : Module) (name : String) (params : List String) : FunctionId × Module :=
  let id : FunctionId := ⟨m.nextId⟩
  (id, { m with functions := m.functions ++ [⟨id, name, params, none, 0⟩], nextId := m.nextId + 1 })

/-- Renames the parameters, if the names are as many as the parameters. -/
def setParamNames (m : Module) (id : FunctionId) (names : List String) : Module :=
  m.update id fun f => if f.params.length = names.length then { f with params := names } else f

/-- Stops adding instructions to a function. -/
def leave (m : Module) (id : FunctionId) : Module :=
  if m.insertion = some id then { m with insertion := none } else m

/-- Makes a declaration of the function again. -/
def clearBody (m : Module) (id : FunctionId) : Module :=
  (m.update id fun f => { f with body := none, nextTemp := 0 }).leave id

def deleteFunction (m : Module) (id : FunctionId) : Module :=
  { m with functions := m.functions.filter (·.id ≠ id) }.leave id

end Module

/-- An operation that can fail, with the module as its state. -/
abbrev Build := EStateM Error Module

namespace Build

/-- Gives the function an empty body and opens it. -/
def openBody (id : FunctionId) : Build Unit := fun m =>
  match m.function? id with
  | none => .error (.danglingFunction id) m
  | some _ =>
    .ok () { m.update id fun f => { f with body := some [], nextTemp := 0 } with
      insertion := some id }

/-- The open function and its body. -/
def target : Build (Function × List Instr) := fun m =>
  match m.insertion.bind m.function? with
  | some f =>
    match f.body with
    | some body => .ok (f, body) m
    | none => .error .noInsertionPoint m
  | none => .error .noInsertionPoint m

/-- Adds an instruction that assigns the next temporary. -/
def emit (make : Nat → Instr) : Build Value := do
  let (f, body) ← target
  modify fun m => m.update f.id fun f =>
    { f with body := some (body ++ [make f.nextTemp]), nextTemp := f.nextTemp + 1 }
  pure (.temp f.nextTemp)

def arith (op : Arith) (left right : Value) : Build Value := emit (.arith op left right)

def lessThan (left right : Value) : Build Value := do
  let truth ← emit (.lessThan left right)
  emit (.widen truth)

def call (callee : FunctionId) (args : List Value) : Build Value := emit (.call callee args)

def ret (value : Value) : Build Unit := do
  let (f, body) ← target
  modify fun m => m.update f.id fun f => { f with body := some (body ++ [.ret value]) }

end Build

end Reckon.Ir
