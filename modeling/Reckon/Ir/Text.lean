import Reckon.Ir.Module

/-! # Printed modules

A module prints as a header and its functions, each after an empty line. Parameters are written by
name and temporaries by number, behind a percent sign; a callee is written by the name that it has
in the module.
-/

namespace Reckon.Ir

def commaSeparated (texts : List String) : String := ", ".intercalate texts

namespace Function

def operandText (f : Function) : Value → String
  | .const value => value.constant
  | .param index =>
    match f.params[index]? with
    | some name => s!"%{name}"
    | none => s!"%arg{index}"
  | .temp index => s!"%{index}"

def headText (f : Function) : String :=
  s!"double @{f.name}(" ++ commaSeparated (f.params.map fun p => s!"double %{p}") ++ ")"

end Function

namespace Module

def calleeName (m : Module) (id : FunctionId) : String :=
  match m.function? id with
  | some f => f.name
  | none => "<deleted>"

/-- One instruction of a function, without its line break. -/
def instrText (m : Module) (f : Function) : Instr → String
  | .arith op left right dest =>
    s!"  %{dest} = {op.mnemonic} double {f.operandText left}, {f.operandText right}"
  | .lessThan left right dest =>
    s!"  %{dest} = fcmp ult double {f.operandText left}, {f.operandText right}"
  | .widen source dest => s!"  %{dest} = uitofp i1 {f.operandText source} to double"
  | .call callee args dest =>
    let operands := commaSeparated (args.map fun arg => s!"double {f.operandText arg}")
    s!"  %{dest} = call double @{m.calleeName callee}({operands})"
  | .ret value => s!"  ret double {f.operandText value}"

/-- A function: one line for a declaration, a block for a body. -/
def functionText (m : Module) (f : Function) : String :=
  match f.body with
  | none => s!"declare {f.headText}\n"
  | some body =>
    s!"define {f.headText} \x7b\nentry:\n" ++
      String.join (body.map fun instr => m.instrText f instr ++ "\n") ++ "\x7d\n"

/-- The text of the function with this id; empty if it is gone. -/
def textOf (m : Module) (id : FunctionId) : String :=
  match m.function? id with
  | some f => m.functionText f
  | none => ""

def text (m : Module) : String :=
  s!"; ModuleID = '{m.name}'\n" ++ String.join (m.functions.map fun f => "\n" ++ m.functionText f)

end Module

end Reckon.Ir
