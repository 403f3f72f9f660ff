import Reckon.Expr
import Reckon.Ir.Eval

/-! # The meaning of expressions

What an expression means is said on the tree and on the machine's numbers, without any code:
operands and arguments have values from left to right, a variable is the last parameter of its
name, and a call looks its callee up by name among the definitions. A name without a definition is
the host's. What a compiled expression never meets, an unknown variable or operator, is malformed
here.
-/

namespace Reckon

/-- What an operator makes of two numbers. A comparison is one where the first of them is less or
    the two are unordered, since one is not a number, and else zero. -/
def evalOperator (op : Char) (a b : Double) : Except Ir.Error Double :=
  match op with
  | '+' => .ok (.ofFloat (a.toFloat + b.toFloat))
  | '-' => .ok (.ofFloat (a.toFloat - b.toFloat))
  | '*' => .ok (.ofFloat (a.toFloat * b.toFloat))
  | '<' => .ok (if a.toFloat < b.toFloat ∨ a.isNaN ∨ b.isNaN then .one else .zero)
  | _ => .error (.malformed op.toString)

def hostUnary : List (String × (Float → Float)) :=
  [("sin", .sin), ("cos", .cos), ("tan", .tan), ("sqrt", .sqrt), ("exp", .exp), ("log", .log),
    ("fabs", .abs), ("floor", .floor), ("ceil", .ceil)]

def hostBinary : List (String × (Float → Float → Float)) := [("pow", .pow)]

/-- The host's answer to a call, by the number of arguments and then by name. -/
def evalHost (name : String) (args : List Double) : Except Ir.Error Double :=
  match args with
  | [x] =>
    match hostUnary.lookup name with
    | some f => .ok (.ofFloat (f x.toFloat))
    | none => .error (.unresolvedSymbol name)
  | [x, y] =>
    match hostBinary.lookup name with
    | some f => .ok (.ofFloat (f x.toFloat y.toFloat))
    | none => .error (.unresolvedSymbol name)
  | _ => .error (.unresolvedSymbol name)

mutual

/-- The value of an expression under these variables, where `call` answers calls by name. -/
def Expr.eval (call : String → List Double → Except Ir.Error Double)
    (env : List (String × Double)) : Expr → Except Ir.Error Double
  | .number value => .ok value
  | .var name =>
    match env.lookup name with
    | some value => .ok value
    | none => .error (.malformed name)
  | .binary op left right => do
    let a ← left.eval call env
    let b ← right.eval call env
    evalOperator op a b
  | .call callee args => do
    let values ← evalArgs call env args
    call callee values

def evalArgs (call : String → List Double → Except Ir.Error Double)
    (env : List (String × Double)) : List Expr → Except Ir.Error (List Double)
  | [] => .ok []
  | arg :: args => do
    let value ← arg.eval call env
    let values ← evalArgs call env args
    .ok (value :: values)

end

/-- The variables of a body, the last parameter first. -/
def boundTo (params : List String) (args : List Double) : List (String × Double) :=
  (params.zip args).reverse

/-- What a call entered at a depth gives. A depth above 256 ends it before anything else. -/
def callNamed (definitions : List Definition) (depth : Nat) :
    String → List Double → Except Ir.Error Double := fun name args =>
  if 256 < depth then .error (.recursionLimit 256)
  else
    match definitions.find? (·.prototype.name = name) with
    | some d => d.body.eval (callNamed definitions (depth + 1)) (boundTo d.prototype.params args)
    | none => evalHost name args
termination_by 257 - depth

/-- The value of a bare expression, whose own calls are entered at depth one. -/
def Expr.meaning (definitions : List Definition) (e : Expr) : Except Ir.Error Double :=
  e.eval (callNamed definitions 1) []

end Reckon
