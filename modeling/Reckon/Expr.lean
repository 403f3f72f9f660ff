import Reckon.Double

/-! # Expressions and forms

The language has one type of value, the number, and one kind of statement, the top-level form: a
declaration gives a name its parameters, a definition also gives it a body, and a bare expression
is the body of a function without a name.
-/

namespace Reckon

/-- An expression over numbers. -/
inductive Expr where
  /-- A literal. -/
  | number (value : Double)
  /-- A parameter of the function around it. -/
  | var (name : String)
  /-- An operator between two operands. -/
  | binary (op : Char) (left right : Expr)
  /-- A function applied to arguments, in order. -/
  | call (callee : String) (args : List Expr)
  deriving Repr, BEq, Inhabited

/-- The name and the parameters of a function. -/
structure Prototype where
  /-- Empty for the function around a bare expression. -/
  name : String
  params : List String
  deriving DecidableEq, Repr, Inhabited

namespace Prototype

/-- The prototype around a bare expression. -/
def anonymous : Prototype := ⟨"", []⟩

def isAnonymous (p : Prototype) : Bool := p.name = ""

end Prototype

/-- A function with its body. -/
structure Definition where
  prototype : Prototype
  body : Expr
  deriving Repr, BEq, Inhabited

/-- What stands at the top level of a source. -/
inductive Form where
  /-- A name with its parameters. -/
  | declaration (prototype : Prototype)
  /-- A name with its parameters and body, or a bare expression. -/
  | definition (definition : Definition)
  deriving Repr, BEq, Inhabited

def Expr.toForm (body : Expr) : Form := .definition ⟨.anonymous, body⟩

end Reckon
