import Reckon.Expr
import Reckon.Operators
import Reckon.Token

/-! # Concrete trees

A concrete tree is an expression with its brackets: it has a node wherever the source has one, so
its tokens are just the ones that it was read from. A table of operators says of a concrete tree
whether every operator has the operands that its precedence gives it.
-/

namespace Reckon

/-- An expression with the brackets that are written around its parts. -/
inductive Tree where
  | number (value : Double)
  | var (name : String)
  | call (callee : String) (args : List Tree)
  | paren (inner : Tree)
  | binary (op : Char) (left right : Tree)
  deriving Repr

namespace Tree

mutual

/-- The expression, which needs no brackets. -/
def expr : Tree → Expr
  | number value => .number value
  | var name => .var name
  | call callee args => .call callee (exprs args)
  | paren inner => inner.expr
  | binary op left right => .binary op left.expr right.expr

def exprs : List Tree → List Expr
  | [] => []
  | tree :: trees => tree.expr :: exprs trees

end

mutual

/-- The tokens of the tree, in order. -/
def yield : Tree → List Token
  | number value => [.number value]
  | var name => [.ident name]
  | call callee args => .ident callee :: .char '(' :: (yieldArgs args ++ [.char ')'])
  | paren inner => .char '(' :: (inner.yield ++ [.char ')'])
  | binary op left right => left.yield ++ .char op :: right.yield

def yieldArgs : List Tree → List Token
  | [] => []
  | [arg] => arg.yield
  | arg :: next :: args => arg.yield ++ .char ',' :: yieldArgs (next :: args)

end

/-- The precedence of the operator that stands outside all brackets and binds loosest. -/
def precedence? (table : Operators) : Tree → Option Int32
  | binary op _ _ => table.precedence? op
  | _ => none

/-- Every operator has a precedence of at least zero; without brackets, its left operand binds at
    least as tight as itself and its right operand binds tighter. -/
inductive Binds (table : Operators) : Tree → Prop where
  | number (value : Double) : Binds table (number value)
  | var (name : String) : Binds table (var name)
  | call (callee : String) {args : List Tree} :
      (∀ arg ∈ args, Binds table arg) → Binds table (call callee args)
  | paren {inner : Tree} : Binds table inner → Binds table (paren inner)
  | binary {op : Char} {precedence : Int32} {left right : Tree} :
      table.precedence? op = some precedence → 0 ≤ precedence →
      (∀ inner, left.precedence? table = some inner → precedence ≤ inner) →
      (∀ inner, right.precedence? table = some inner → precedence < inner) →
      Binds table left → Binds table right → Binds table (binary op left right)

end Tree

end Reckon
