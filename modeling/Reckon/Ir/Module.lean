import Reckon.Double.Text

/-! # Modules of straight-line code

A module is a list of functions over numbers, in the order in which they were declared. A function
with a body has one block of three-address instructions: each but the return assigns a numbered
temporary, and operands are constants, parameters by position, or temporaries. Instructions call
functions by their ids, which are never given twice, and not by their names.

Ids and temporaries are words of 32 bits. They are natural numbers here, which is the same as long
as fewer than `2 ^ 32` functions are ever added to a module and fewer than `2 ^ 32` temporaries are
assigned in a body, so that neither `nextId` nor `nextTemp` overflows.
-/

namespace Reckon.Ir

/-- The number of a function among all that were ever added to its module. -/
structure FunctionId where
  index : Nat
  deriving DecidableEq, Repr, Inhabited

/-- How messages write an id. -/
def FunctionId.label (id : FunctionId) : String := s!"FunctionId({id.index})"

/-- An operand. -/
inductive Value where
  | const (value : Double)
  | param (index : Nat)
  | temp (index : Nat)
  deriving DecidableEq, Repr, Inhabited

/-- How the verifier's reasons write an operand. -/
def Value.describe : Value → String
  | const value => s!"Const({value.literal})"
  | param index => s!"Param({index})"
  | temp index => s!"Temp({index})"

/-- The arithmetic operations. -/
inductive Arith where
  | add
  | sub
  | mul
  deriving DecidableEq, Repr

namespace Arith

def mnemonic : Arith → String
  | add => "fadd"
  | sub => "fsub"
  | mul => "fmul"

def apply : Arith → Double → Double → Double
  | add, a, b => a + b
  | sub, a, b => a - b
  | mul, a, b => a * b

end Arith

/-- One step of a body; `dest` is the temporary that it assigns. -/
inductive Instr where
  | arith (op : Arith) (left right : Value) (dest : Nat)
  /-- Compares two numbers into a truth value. -/
  | lessThan (left right : Value) (dest : Nat)
  /-- Makes one of true and zero of false. -/
  | widen (source : Value) (dest : Nat)
  | call (callee : FunctionId) (args : List Value) (dest : Nat)
  /-- Ends the function. -/
  | ret (value : Value)
  deriving DecidableEq, Repr

/-- The temporary that the instruction assigns. -/
def Instr.dest? : Instr → Option Nat
  | arith _ _ _ dest | lessThan _ _ dest | widen _ dest | call _ _ dest => some dest
  | ret _ => none

def Instr.isRet : Instr → Bool
  | ret _ => true
  | _ => false

/-- A function of a module. -/
structure Function where
  id : FunctionId
  name : String
  params : List String
  /-- Missing in a declaration. -/
  body : Option (List Instr)
  /-- The temporary that the next instruction assigns. -/
  nextTemp : Nat
  deriving DecidableEq, Repr

/-- The functions, and where instructions are added. -/
structure Module where
  name : String
  functions : List Function
  /-- The index of the next function's id. -/
  nextId : Nat
  /-- The function whose body receives instructions. -/
  insertion : Option FunctionId
  deriving DecidableEq, Repr

namespace Module

def empty (name : String) : Module := ⟨name, [], 0, none⟩

def function? (m : Module) (id : FunctionId) : Option Function :=
  m.functions.find? (·.id = id)

/-- The first function of this name. -/
def lookup? (m : Module) (name : String) : Option FunctionId :=
  (m.functions.find? (·.name = name)).map (·.id)

/-- How many parameters the function has; none if it is gone. -/
def paramCount (m : Module) (id : FunctionId) : Nat :=
  match m.function? id with
  | some f => f.params.length
  | none => 0

def paramValues (m : Module) (id : FunctionId) : List Value :=
  (List.range (m.paramCount id)).map .param

/-- The function is there and has a body. -/
def hasBody (m : Module) (id : FunctionId) : Bool :=
  (m.function? id).any (·.body.isSome)

def functionNames (m : Module) : List String := m.functions.map (·.name)

end Module

end Reckon.Ir
