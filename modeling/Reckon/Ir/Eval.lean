import Reckon.Ir.Build

/-! # Evaluating functions

A call runs the callee's body over its arguments and over temporaries that start as zero; a
declaration is answered by the host's mathematical functions. Calls inside calls are limited in
depth, and the limit is met before the callee is looked at, so that evaluation always ends.
-/

namespace Reckon.Ir

/-- The greatest depth at which a call is entered; the outermost call has depth zero. -/
def maxCallDepth : Nat := 256

/-- The host's function for a declaration, by name and number of arguments. -/
def callHost (name : String) (args : List Double) : Except Error Double :=
  match name, args with
  | "sin", [x] => .ok x.sin
  | "cos", [x] => .ok x.cos
  | "tan", [x] => .ok x.tan
  | "sqrt", [x] => .ok x.sqrt
  | "exp", [x] => .ok x.exp
  | "log", [x] => .ok x.log
  | "fabs", [x] => .ok x.abs
  | "floor", [x] => .ok x.floor
  | "ceil", [x] => .ok x.ceil
  | "pow", [x, y] => .ok (x.pow y)
  | _, _ => .error (.unresolvedSymbol name)

def Value.read (args : List Double) (temps : Array Double) : Value → Option Double
  | const value => some value
  | param index => args[index]?
  | temp index => temps[index]?

/-- The value that an instruction assigns. An operand that is not there makes the body malformed,
    before a call is entered. -/
def Instr.result (call : FunctionId → List Double → Except Error Double) (malformed : Error)
    (args : List Double) (temps : Array Double) : Instr → Except Error Double
  | arith op left right _ =>
    match left.read args temps, right.read args temps with
    | some a, some b => .ok (op.apply a b)
    | _, _ => .error malformed
  | lessThan left right _ =>
    match left.read args temps, right.read args temps with
    | some a, some b => .ok (.ofBool (a.lessOrUnordered b))
    | _, _ => .error malformed
  | widen source _ | ret source =>
    match source.read args temps with
    | some a => .ok a
    | none => .error malformed
  | .call callee operands _ =>
    match operands.mapM (·.read args temps) with
    | some values => call callee values
    | none => .error malformed

/-- Runs instructions up to the first return. -/
def runInstrs (call : FunctionId → List Double → Except Error Double) (malformed : Error)
    (args : List Double) : Array Double → List Instr → Except Error Double
  | _, [] => .error malformed
  | temps, instr :: rest =>
    match instr.result call malformed args temps with
    | .error e => .error e
    | .ok value =>
      match instr.dest? with
      | none => .ok value
      | some dest =>
        if dest < temps.size then
          runInstrs call malformed args (temps.setIfInBounds dest value) rest
        else .error malformed

namespace Module

/-- Calls a function with so many frames left. -/
def call (m : Module) : Nat → FunctionId → List Double → Except Error Double
  | 0, _, _ => .error (.recursionLimit maxCallDepth)
  | frames + 1, id, args =>
    match m.function? id with
    | none => .error (.danglingFunction id)
    | some f =>
      match f.body with
      | none => callHost f.name args
      | some body =>
        runInstrs (m.call frames) (.malformed f.name) args (.replicate f.nextTemp .zero) body

/-- The value of a function without parameters; nothing if the function is gone. -/
def evaluate (m : Module) (id : FunctionId) : Option (Except Error Double) :=
  (m.function? id).map fun f =>
    if f.params.isEmpty then m.call (maxCallDepth + 1) id []
    else .error (.notNullary f.name f.params.length)

end Module

end Reckon.Ir
