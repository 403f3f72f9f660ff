import Reckon.Backend
import Reckon.Expr

/-! # Compiling forms

A form is compiled into the module of a backend. Declaring a name that is already there changes
nothing. A definition gives a body to a name that has none; if the name was declared, the numbers
of parameters must agree and the names of the definition take the place of the declared ones. A
definition that fails leaves no trace: a function that it added is deleted, and one that was
declared before loses the begun body.
-/

namespace Reckon

/-- Why a form cannot be compiled. -/
inductive CompileError where
  | unknownVariable (name : String)
  | unknownOperator (op : Char)
  | unknownFunction (name : String)
  | invalidCall (callee : String) (expected found : Nat)
  | arityMismatch (name : String) (declared defined : Nat)
  | redefinition (name : String)
  | invalidFunction (name : String)
  /-- The backend failed. -/
  | backend (error : Ir.Error)
  deriving DecidableEq, Repr

namespace CompileError

def message : CompileError → String
  | unknownVariable name => s!"unknown variable name {name}"
  | unknownOperator op => s!"invalid binary operator {op}"
  | unknownFunction name => s!"unknown function referenced {name}"
  | invalidCall callee expected found =>
    s!"incorrect number of arguments passed to {callee}, expected {expected} found {found}"
  | arityMismatch name declared defined =>
    s!"function {name} declared with {declared} parameters, defined with {defined}"
  | redefinition name => s!"function {name} cannot be redefined"
  | invalidFunction name => s!"failed to verify function {name}"
  | backend error => error.message

end CompileError

/-- The name of functions around bare expressions. It is no identifier, so no source names it. -/
def anonymousSymbol : String := "__anon_expr"

/-- The name under which a function stands in the module. -/
def Prototype.symbol (p : Prototype) : String :=
  if p.isAnonymous then anonymousSymbol else p.name

/-- A compilation step, with the backend as its state. -/
abbrev Compile := EStateM CompileError Backend

namespace Compile

def lift (step : Backend.Step α) : Compile α := fun b =>
  match step b with
  | .ok a b => .ok a b
  | .error e b => .error (.backend e) b

def query (ask : Ir.Module → α) : Compile α := fun b => .ok (ask b.target) b

def onTarget (change : Ir.Module → Ir.Module) : Compile Unit := fun b => .ok () (b.onTarget change)

def addFunction (name : String) (params : List String) : Compile Ir.FunctionId := fun b =>
  let (id, target) := b.target.addFunction name params
  .ok id { b with target }

/-- Runs a step and, if it fails, undoes in the module what it began. -/
def undoing (undo : Ir.Module → Ir.Module) (step : Compile α) : Compile α := fun b =>
  match step b with
  | .ok a b => .ok a b
  | .error e b => .error e (b.onTarget undo)

end Compile

/-- The parameters of a function by name, the last one first. -/
abbrev Scope := List (String × Ir.Value)

/-- The scope of a body. Looking a name up finds the last parameter of that name. -/
def Scope.ofParams (names : List String) (values : List Ir.Value) : Scope :=
  (names.zip values).reverse

/-- The build call for an operator. -/
def buildOperator (op : Char) (left right : Ir.Value) : Option (Ir.Build Ir.Value) :=
  match op with
  | '+' => some (.arith .add left right)
  | '-' => some (.arith .sub left right)
  | '*' => some (.arith .mul left right)
  | '<' => some (.lessThan left right)
  | _ => none

mutual

/-- Adds the instructions of an expression to the open function, operands before operators and
    from left to right, and gives the operand that holds its value. -/
def Expr.compile (scope : Scope) : Expr → Compile Ir.Value
  | .number value => pure (.const value)
  | .var name =>
    match scope.lookup name with
    | some value => pure value
    | none => throw (.unknownVariable name)
  | .binary op left right => do
    let left ← left.compile scope
    let right ← right.compile scope
    match buildOperator op left right with
    | some build => Compile.lift (Backend.build build)
    | none => throw (.unknownOperator op)
  | .call callee args => do
    match ← Compile.query (·.lookup? callee) with
    | none => throw (.unknownFunction callee)
    | some id =>
      let expected ← Compile.query (·.paramCount id)
      if expected = args.length then
        let values ← compileArgs scope args
        Compile.lift (Backend.build (.call id values))
      else throw (.invalidCall callee expected args.length)

def compileArgs (scope : Scope) : List Expr → Compile (List Ir.Value)
  | [] => pure []
  | arg :: args => do
    let value ← arg.compile scope
    let values ← compileArgs scope args
    pure (value :: values)

end

/-- The function of a declaration: the one of that name, or a new one. -/
def Prototype.declare (p : Prototype) : Compile Ir.FunctionId := do
  match ← Compile.query (·.lookup? p.symbol) with
  | some id => pure id
  | none => Compile.addFunction p.symbol p.params

namespace Definition

/-- Gives a function without a body the body of this definition, and verifies it. -/
def compileBody (d : Definition) (id : Ir.FunctionId) : Compile Unit := do
  Compile.lift (Backend.openBody id)
  let params ← Compile.query (·.paramValues id)
  let value ← d.body.compile (Scope.ofParams d.prototype.params params)
  Compile.lift (Backend.build (.ret value))
  if (← get).verify id then pure () else throw (.invalidFunction d.prototype.symbol)

/-- The function of a definition, with its body. -/
def compile (d : Definition) : Compile Ir.FunctionId := do
  let name := d.prototype.symbol
  match ← Compile.query (·.lookup? name) with
  | none =>
    let id ← Compile.addFunction name d.prototype.params
    Compile.undoing (·.deleteFunction id) (d.compileBody id)
    pure id
  | some id =>
    if ← Compile.query (·.hasBody id) then throw (.redefinition name)
    else
      let declared ← Compile.query (·.paramCount id)
      if declared = d.prototype.params.length then
        Compile.undoing (·.clearBody id) (d.compileBody id)
        Compile.onTarget (·.setParamNames id d.prototype.params)
        pure id
      else throw (.arityMismatch name declared d.prototype.params.length)

end Definition

def Form.compile : Form → Compile Ir.FunctionId
  | .declaration p => p.declare
  | .definition d => d.compile

namespace Backend

/-- Removes a function once it has been used. -/
def remove (b : Backend) (id : Ir.FunctionId) : Backend := b.onTarget (·.deleteFunction id)

/-- The names of all functions but those around bare expressions. -/
def namedFunctions (b : Backend) : List String :=
  b.target.functionNames.filter (· ≠ anonymousSymbol)

end Backend

end Reckon
