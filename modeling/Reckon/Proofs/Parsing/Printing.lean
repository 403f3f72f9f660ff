import Reckon.Proofs.Parsing.Tree
import Reckon.Proofs.Spelling

/-! # Printing with few brackets

A form is printed as tokens, with brackets only where the table of operators asks for them: around
a left operand that binds looser than its operator, and around a right operand that does not bind
tighter. The printed tree is one in which every operator binds as the table says.
-/

namespace Reckon

namespace Tree

/-- The tree as a left operand: in brackets if it binds looser. -/
def asLeft (table : Operators) (op : Char) (tree : Tree) : Tree :=
  match tree.precedence? table, table.precedence? op with
  | some inner, some outer => if inner < outer then paren tree else tree
  | _, _ => tree

/-- The tree as a right operand: in brackets if it does not bind tighter. -/
def asRight (table : Operators) (op : Char) (tree : Tree) : Tree :=
  match tree.precedence? table, table.precedence? op with
  | some inner, some outer => if inner ≤ outer then paren tree else tree
  | _, _ => tree

end Tree

mutual

/-- The expression with as few brackets as the table allows. -/
def Expr.tree (table : Operators) : Expr → Tree
  | .number value => .number value
  | .var name => .var name
  | .binary op left right =>
    .binary op ((left.tree table).asLeft table op) ((right.tree table).asRight table op)
  | .call callee args => .call callee (argTrees table args)

def argTrees (table : Operators) : List Expr → List Tree
  | [] => []
  | arg :: args => arg.tree table :: argTrees table args

end

mutual

def Expr.operators : Expr → List Char
  | .number _ | .var _ => []
  | .binary op left right => left.operators ++ op :: right.operators
  | .call _ args => argOperators args

def argOperators : List Expr → List Char
  | [] => []
  | arg :: args => arg.operators ++ argOperators args

end

def Prototype.tokens (p : Prototype) : List Token :=
  .ident p.name :: .char '(' :: (p.params.map .ident ++ [.char ')'])

/-- The tokens of a form, with as few brackets as the table allows. -/
def Form.tokens (table : Operators) : Form → List Token
  | .declaration p => .declare :: p.tokens
  | .definition d =>
    if d.prototype.isAnonymous then (d.body.tree table).yield
    else .define :: (d.prototype.tokens ++ (d.body.tree table).yield)

def Form.operators : Form → List Char
  | .declaration _ => []
  | .definition d => d.body.operators

/-- The table has a precedence of at least zero for each of these operators. -/
def Operators.Knows (table : Operators) (ops : List Char) : Prop :=
  ∀ op ∈ ops, ∃ precedence, table.precedence? op = some precedence ∧ 0 ≤ precedence

section

variable {table : Operators}

@[simp] theorem Tree.expr_asLeft (op : Char) (tree : Tree) :
    (tree.asLeft table op).expr = tree.expr := by
  unfold asLeft
  split
  · split <;> rfl
  · rfl

@[simp] theorem Tree.expr_asRight (op : Char) (tree : Tree) :
    (tree.asRight table op).expr = tree.expr := by
  unfold asRight
  split
  · split <;> rfl
  · rfl

mutual

theorem Expr.expr_tree (e : Expr) : (e.tree table).expr = e := by
  cases e with
  | number | var => rfl
  | binary op left right =>
      simp only [Expr.tree, Tree.expr, Tree.expr_asLeft, Tree.expr_asRight, left.expr_tree,
        right.expr_tree]
  | call callee args => simp only [Expr.tree, Tree.expr, exprs_argTrees args]

theorem exprs_argTrees (args : List Expr) : Tree.exprs (argTrees table args) = args := by
  cases args with
  | nil => rfl
  | cons arg args => simp only [argTrees, Tree.exprs, arg.expr_tree, exprs_argTrees args]

end

theorem Tree.Binds.asLeft {op : Char} {outer : Int32} {tree : Tree} (h : tree.Binds table)
    (known : table.precedence? op = some outer) : (tree.asLeft table op).Binds table ∧
      ∀ inner, (tree.asLeft table op).precedence? table = some inner → outer ≤ inner := by
  unfold Tree.asLeft
  cases loosest : tree.precedence? table with
  | none => exact ⟨h, fun inner some => by simp [loosest] at some⟩
  | some inner =>
      simp only [known]
      by_cases looser : inner < outer
      · rw [if_pos looser]
        exact ⟨.paren h, fun _ outside => nomatch outside⟩
      · rw [if_neg looser]
        refine ⟨h, fun other same => ?_⟩
        obtain rfl := Option.some.inj (loosest.symm.trans same)
        exact Int32.not_lt.mp looser

theorem Tree.Binds.asRight {op : Char} {outer : Int32} {tree : Tree} (h : tree.Binds table)
    (known : table.precedence? op = some outer) : (tree.asRight table op).Binds table ∧
      ∀ inner, (tree.asRight table op).precedence? table = some inner → outer < inner := by
  unfold Tree.asRight
  cases loosest : tree.precedence? table with
  | none => exact ⟨h, fun inner some => by simp [loosest] at some⟩
  | some inner =>
      simp only [known]
      by_cases noTighter : inner ≤ outer
      · rw [if_pos noTighter]
        exact ⟨.paren h, fun _ outside => nomatch outside⟩
      · rw [if_neg noTighter]
        refine ⟨h, fun other same => ?_⟩
        obtain rfl := Option.some.inj (loosest.symm.trans same)
        exact Int32.not_le.mp noTighter

mutual

/-- In the printed tree every operator binds as the table says. -/
theorem Expr.tree_binds (e : Expr) (knows : table.Knows e.operators) :
    (e.tree table).Binds table := by
  cases e with
  | number value => exact .number value
  | var name => exact .var name
  | binary op left right =>
      obtain ⟨precedence, known, positive⟩ := knows op (by simp [Expr.operators])
      obtain ⟨bindsLeft, fitsLeft⟩ := Tree.Binds.asLeft
        (left.tree_binds fun op mem => knows op (by simp [Expr.operators, mem])) known
      obtain ⟨bindsRight, fitsRight⟩ := Tree.Binds.asRight
        (right.tree_binds fun op mem => knows op (by simp [Expr.operators, mem])) known
      exact .binary known positive fitsLeft fitsRight bindsLeft bindsRight
  | call callee args => exact .call callee (argTrees_bind args knows)

theorem argTrees_bind (args : List Expr) (knows : table.Knows (argOperators args)) :
    ∀ arg ∈ argTrees table args, arg.Binds table := by
  cases args with
  | nil => simp [argTrees]
  | cons arg args =>
      have first := arg.tree_binds fun op mem => knows op (by simp [argOperators, mem])
      have others := argTrees_bind args fun op mem => knows op (by simp [argOperators, mem])
      intro tree mem
      rcases List.mem_cons.mp mem with rfl | mem
      · exact first
      · exact others tree mem

end

end

end Reckon
