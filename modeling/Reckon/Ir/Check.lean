import Reckon.Ir.Module

/-! # Well-formed bodies

A body is well-formed if it ends with its only return, every operand is there and of the kind that
its instruction takes, every callee is in the module and gets as many arguments as it has
parameters, and no temporary is assigned twice. `Module.check` goes through the body in order and
gives the first defect.
-/

namespace Reckon.Ir

/-- The kinds of values: a comparison makes a truth value, everything else a number. -/
inductive Kind where
  | float
  | bool
  deriving DecidableEq, Repr

def Kind.describe : Kind → String
  | float => "Float"
  | bool => "Bool"

/-- What is wrong with a function. -/
inductive Defect where
  | noBody
  | notTerminated
  | afterReturn
  | paramOutOfRange (index : Nat)
  | usedBeforeDefinition (temp : Nat)
  | wrongKind (value : Value) (kind expected : Kind)
  | assignedTwice (temp : Nat)
  | deletedCallee (id : FunctionId)
  | wrongArity (callee : String) (passed expected : Nat)
  deriving DecidableEq, Repr

def Defect.message : Defect → String
  | noBody => "function has no body"
  | notTerminated => "entry block is not terminated by ret"
  | afterReturn => "instructions after ret"
  | paramOutOfRange index => s!"parameter {index} out of range"
  | usedBeforeDefinition temp => s!"%{temp} used before definition"
  | wrongKind value kind expected =>
    s!"operand {value.describe} has kind {kind.describe}, expected {expected.describe}"
  | assignedTwice temp => s!"%{temp} assigned twice"
  | deletedCallee id => s!"call to deleted function {id.label}"
  | wrongArity callee passed expected =>
    s!"call to {callee} passes {passed} arguments, expected {expected}"

/-- The temporaries assigned so far, with their kinds. -/
abbrev Kinds := List (Nat × Kind)

namespace Kinds

def kindOf (kinds : Kinds) (paramCount : Nat) : Value → Except Defect Kind
  | .const _ => .ok .float
  | .param index => if index < paramCount then .ok .float else .error (.paramOutOfRange index)
  | .temp index =>
    match kinds.lookup index with
    | some kind => .ok kind
    | none => .error (.usedBeforeDefinition index)

/-- Refuses an operand that is not there or of another kind. -/
def operand (kinds : Kinds) (paramCount : Nat) (expected : Kind) (value : Value) :
    Except Defect Unit := do
  let kind ← kinds.kindOf paramCount value
  if kind = expected then pure () else throw (.wrongKind value kind expected)

def assign (kinds : Kinds) (temp : Nat) (kind : Kind) : Except Defect Kinds :=
  match kinds.lookup temp with
  | some _ => .error (.assignedTwice temp)
  | none => .ok ((temp, kind) :: kinds)

end Kinds

namespace Module

/-- Refuses a call that its callee does not answer to. -/
def checkCallee (m : Module) (callee : FunctionId) (args : List Value) : Except Defect Unit :=
  match m.function? callee with
  | none => .error (.deletedCallee callee)
  | some f =>
    if f.params.length = args.length then .ok ()
    else .error (.wrongArity f.name args.length f.params.length)

/-- The first defect of some instructions that come after others. -/
def checkInstrs (m : Module) (paramCount : Nat) : Kinds → List Instr → Except Defect Unit
  | _, [] => pure ()
  | kinds, .arith _ left right dest :: rest => do
    kinds.operand paramCount .float left
    kinds.operand paramCount .float right
    m.checkInstrs paramCount (← kinds.assign dest .float) rest
  | kinds, .lessThan left right dest :: rest => do
    kinds.operand paramCount .float left
    kinds.operand paramCount .float right
    m.checkInstrs paramCount (← kinds.assign dest .bool) rest
  | kinds, .widen source dest :: rest => do
    kinds.operand paramCount .bool source
    m.checkInstrs paramCount (← kinds.assign dest .float) rest
  | kinds, .call callee args dest :: rest => do
    m.checkCallee callee args
    args.forM (kinds.operand paramCount .float)
    m.checkInstrs paramCount (← kinds.assign dest .float) rest
  | kinds, [.ret value] => kinds.operand paramCount .float value
  | _, .ret _ :: _ :: _ => throw .afterReturn

/-- The first defect of a function, if it has one. -/
def check (m : Module) (f : Function) : Except Defect Unit :=
  match f.body with
  | none => .error .noBody
  | some body =>
    if body.getLast?.any Instr.isRet then m.checkInstrs f.params.length [] body
    else .error .notTerminated

/-- The function is there and well-formed. -/
def verify (m : Module) (id : FunctionId) : Bool :=
  (m.function? id).any fun f => (m.check f).isOk

/-- What is wrong with the function, if it is there. -/
def defect? (m : Module) (id : FunctionId) : Option Defect :=
  match (m.function? id).map m.check with
  | some (.error defect) => some defect
  | _ => none

end Module

end Reckon.Ir
