import Reckon.Proofs.Parsing.Climbing
import Reckon.Proofs.Parsing.Moves
import Reckon.Proofs.Parsing.Printing

/-! # Printed forms are read back

Where the tokens of a concrete tree come next and its operators bind as the table says, the parser
reads just that tree, if what follows cannot go on with it. The loop over operators carries the
induction: reading the first operand of a tree and then operators comes to the same as having the
whole tree read already, as long as the operator behind the tree does not bind tighter than it.
-/

namespace Reckon

open Reckon.Parser

namespace Parser

/-- These tokens come next, one by one, and then the parser is `p'`. -/
def Ahead : List Token → Parser → Parser → Prop
  | [], p, p' => p = p'
  | token :: tokens, p, p' => p.current = token ∧ ∃ q, advance p = .ok () q ∧ Ahead tokens q p'

theorem ahead_append {first second : List Token} {p p' : Parser} :
    Ahead (first ++ second) p p' ↔ ∃ q, Ahead first p q ∧ Ahead second q p' := by
  induction first generalizing p with
  | nil => exact ⟨fun h => ⟨p, rfl, h⟩, fun ⟨_, same, h⟩ => same ▸ h⟩
  | cons token first ih =>
      constructor
      · rintro ⟨here, q, moved, rest⟩
        obtain ⟨r, ahead, behind⟩ := ih.mp rest
        exact ⟨r, ⟨here, q, moved, ahead⟩, behind⟩
      · rintro ⟨r, ⟨here, q, moved, ahead⟩, behind⟩
        exact ⟨here, q, moved, ih.mpr ⟨r, ahead, behind⟩⟩

theorem Ahead.moves {tokens : List Token} {p p' : Parser} (h : Ahead tokens p p') : Moves p p' := by
  induction tokens generalizing p with
  | nil => exact h ▸ .refl p
  | cons token tokens ih =>
      obtain ⟨-, q, moved, rest⟩ := h
      exact .read (leaves_of_ok moved ▸ ih rest)

/-- What comes next does not make a call of a name that the tokens end with. -/
def EndsAt (tokens : List Token) (p : Parser) : Prop :=
  ∀ name, tokens.getLast? = some (.ident name) → p.current ≠ .char '('

theorem EndsAt.of_append {first second : List Token} {p : Parser}
    (ends : EndsAt (first ++ second) p) : EndsAt second p := by
  intro name last
  apply ends name
  rw [List.getLast?_append, last]
  rfl

theorem EndsAt.of_cons {token : Token} {tokens : List Token} {p : Parser}
    (ends : EndsAt (token :: tokens) p) : EndsAt tokens p := @EndsAt.of_append [token] tokens p ends

theorem endsAt_of_ne {tokens : List Token} {p : Parser} (other : p.current ≠ .char '(') :
    EndsAt tokens p := fun _ _ => other

end Parser

namespace Operators

/-- Brackets and the comma are no operators that an expression could go on with. -/
def KeepsBrackets (table : Operators) : Prop :=
  ∀ c ∈ ['(', ')', ','], ∀ precedence, table.precedence? c = some precedence → precedence < 0

theorem standard_keepsBrackets : KeepsBrackets standard := by
  intro c isBracket precedence known
  have noOperator : standard.precedence? c = none := by
    simp only [List.mem_cons, List.not_mem_nil, or_false] at isBracket
    rcases isBracket with rfl | rfl | rfl <;> rfl
  cases noOperator.symm.trans known

theorem KeepsBrackets.stops {table : Operators} (h : table.KeepsBrackets) {p : Parser}
    (same : p.operators = table) {c : Char} (here : p.current = .char c)
    (isBracket : c ∈ ['(', ')', ',']) : p.Stops 0 := by
  intro op precedence operator
  simp only [operator?, here, same, Option.map_eq_some_iff, Prod.mk.injEq] at operator
  obtain ⟨_, known, rfl, rfl⟩ := operator
  exact h c isBracket _ known

end Operators

namespace Tree

variable {table : Operators}

theorem yield_eq_cons (tree : Tree) : ∃ token tokens, tree.yield = token :: tokens ∧
    token ≠ .define ∧ token ≠ .declare ∧ token ≠ .char ')' := by
  cases tree with
  | number value => exact ⟨_, _, rfl, nofun, nofun, nofun⟩
  | var name => exact ⟨_, _, rfl, nofun, nofun, nofun⟩
  | call callee args => exact ⟨_, _, rfl, nofun, nofun, nofun⟩
  | paren inner => exact ⟨_, _, rfl, nofun, nofun, by decide⟩
  | binary op left right =>
      obtain ⟨token, tokens, first, starts⟩ := left.yield_eq_cons
      exact ⟨token, _, by rw [yield, first, List.cons_append], starts⟩

theorem yieldArgs_eq_cons {args : List Tree} (nonempty : args ≠ []) :
    ∃ token tokens, yieldArgs args = token :: tokens ∧ token ≠ .char ')' := by
  obtain ⟨arg, args, rfl⟩ := List.exists_cons_of_ne_nil nonempty
  obtain ⟨token, tokens, first, -, -, starts⟩ := arg.yield_eq_cons
  cases args with
  | nil => exact ⟨token, tokens, first, starts⟩
  | cons next args => exact ⟨token, _, by rw [yieldArgs, first, List.cons_append], starts⟩

/-- Wherever the tree's tokens come next, it is read: as one operand if it has no operator outside
    of brackets, and else by the loop over operators. -/
structure IsRead (table : Operators) (tree : Tree) : Prop where
  operand : ∀ p p', p.operators = table → Ahead tree.yield p p' → EndsAt tree.yield p' →
    tree.precedence? table = none → operand p = .ok tree.expr p'
  operators : ∀ least p p', p.operators = table → Ahead tree.yield p p' → EndsAt tree.yield p' →
    (∀ inner, tree.precedence? table = some inner → least ≤ inner) →
    (∀ op next, p'.operator? = some (op, next) →
      ∀ inner, tree.precedence? table = some inner → next ≤ inner) →
    (do let left ← Parser.operand; operatorsFrom least left) p = operatorsFrom least tree.expr p'

theorem IsRead.of_operand {tree : Tree} (h : ∀ p p', p.operators = table →
    Ahead tree.yield p p' → EndsAt tree.yield p' → Parser.operand p = .ok tree.expr p') :
    tree.IsRead table where
  operand p p' same ahead ends _ := h p p' same ahead ends
  operators _ p p' same ahead ends _ _ := bind_of_ok (h p p' same ahead ends)

theorem IsRead.expression {tree : Tree} (h : tree.IsRead table)
    (positive : ∀ inner, tree.precedence? table = some inner → 0 ≤ inner) {p p' : Parser}
    (same : p.operators = table) (ahead : Ahead tree.yield p p') (ends : EndsAt tree.yield p')
    (stops : p'.Stops 0) : Parser.expression p = .ok tree.expr p' := by
  rw [expression_eq, h.operators 0 p p' same ahead ends positive]
  · exact operatorsFrom_of_stops stops _
  · intro op next operator inner outside
    exact Int32.le_trans (Int32.le_of_lt (stops op next operator)) (positive inner outside)

theorem Binds.positive {tree : Tree} (h : tree.Binds table) :
    ∀ inner, tree.precedence? table = some inner → 0 ≤ inner := by
  intro inner outside
  cases h with
  | binary known positive =>
      obtain rfl := Option.some.inj (known.symm.trans outside)
      exact positive
  | number | var | call | paren => contradiction

/-- Arguments are read up to the bracket that closes the call. -/
theorem reads_arguments {args : List Tree} (nonempty : args ≠ [])
    (bind : ∀ arg ∈ args, arg.Binds table) (read : ∀ arg ∈ args, arg.IsRead table)
    (brackets : table.KeepsBrackets) {p p' : Parser} (same : p.operators = table)
    (ahead : Ahead (yieldArgs args) p p') (closes : p'.current = .char ')') :
    Parser.arguments p = .ok (exprs args) p' := by
  induction args generalizing p with
  | nil => contradiction
  | cons arg args ih =>
      have first := read arg List.mem_cons_self
      have positive := (bind arg List.mem_cons_self).positive
      cases args with
      | nil =>
          have stops := brackets.stops (ahead.moves.operators_eq.trans same) closes (by simp)
          have ends : EndsAt arg.yield p' := endsAt_of_ne (by simp [closes])
          exact arguments_last (first.expression positive same ahead ends stops) closes
      | cons next args =>
          obtain ⟨q, aheadArg, separates, r, moved, aheadArgs⟩ := ahead_append.mp ahead
          have sameThere := aheadArg.moves.operators_eq.trans same
          have ends : EndsAt arg.yield q := endsAt_of_ne (by simp [separates])
          have stops := brackets.stops sameThere separates (by simp)
          have sameBehind : r.operators = table :=
            (Moves.of_advance moved).operators_eq.trans sameThere
          have others : Parser.arguments r = .ok (exprs (next :: args)) p' :=
            ih (by simp) (fun a mem => bind a (List.mem_cons_of_mem _ mem))
              (fun a mem => read a (List.mem_cons_of_mem _ mem)) sameBehind aheadArgs
          rw [arguments_next (first.expression positive same aheadArg ends stops) separates,
            bind_of_ok moved, bind_of_ok others]
          rfl

theorem IsRead.call {callee : String} {args : List Tree} (bind : ∀ arg ∈ args, arg.Binds table)
    (read : ∀ arg ∈ args, arg.IsRead table) (brackets : table.KeepsBrackets) :
    (Tree.call callee args).IsRead table := by
  refine .of_operand fun p p' same ahead _ => ?_
  obtain ⟨here, q, moved, opens, r, movedIn, inside⟩ := ahead
  obtain ⟨closing, aheadArgs, closes, last, movedOut, rfl⟩ := ahead_append.mp inside
  rw [operand_ident here, bind_of_ok moved, peek_bind opens, if_pos rfl, bind_of_ok movedIn]
  cases args with
  | nil =>
      obtain rfl : r = closing := aheadArgs
      rw [peek_bind closes, if_pos rfl]
      exact bind_of_ok movedOut
  | cons arg args =>
      have sameIn : r.operators = table := by
        have moves : Moves p r := .trans (.of_advance moved) (.of_advance movedIn)
        exact moves.operators_eq.trans same
      have notClosed : r.current ≠ .char ')' := by
        obtain ⟨token, tokens, first, starts⟩ := yieldArgs_eq_cons (List.cons_ne_nil arg args)
        rw [first] at aheadArgs
        exact aheadArgs.1 ▸ starts
      rw [peek_bind rfl, if_neg notClosed,
        bind_of_ok (reads_arguments (by simp) bind read brackets sameIn aheadArgs closes)]
      exact bind_of_ok movedOut

theorem IsRead.paren {inner : Tree} (binds : inner.Binds table) (read : inner.IsRead table)
    (brackets : table.KeepsBrackets) : (Tree.paren inner).IsRead table := by
  refine .of_operand fun p p' same ahead _ => ?_
  obtain ⟨here, q, moved, inside⟩ := ahead
  obtain ⟨closing, aheadInner, closes, last, movedOut, rfl⟩ := ahead_append.mp inside
  have sameIn : q.operators = table :=
    (Moves.of_advance moved).operators_eq.trans same
  have stops := brackets.stops (aheadInner.moves.operators_eq.trans sameIn) closes (by simp)
  have ends : EndsAt inner.yield closing := endsAt_of_ne (by simp [closes])
  rw [operand_paren here, bind_of_ok moved,
    bind_of_ok (read.expression binds.positive sameIn aheadInner ends stops)]
  exact bind_of_ok (expect_of_current closes movedOut)

/-- Where the precedence has one above it, looking at the operator at hand first changes nothing. -/
theorem rightOperand_eq {precedence inner : Int32} (below : precedence < inner) (p : Parser) :
    Parser.rightOperand precedence p =
      (do let left ← Parser.operand; operatorsFrom (precedence + 1) left) p := by
  refine Ensures.bind_congr rfl (operand_left p) fun operand q _ => ?_
  cases operator : q.operator? with
  | none =>
      have stops : q.Stops (precedence + 1) := by
        intro op next here
        rw [operator] at here
        contradiction
      rw [peekOperator?_bind operator, operatorsFrom_of_stops stops]
      rfl
  | some found =>
      rw [peekOperator?_bind operator]
      by_cases tighter : precedence < found.2
      · simp only [if_pos tighter]
      · have stops : q.Stops (precedence + 1) := by
          intro op next here
          rw [operator] at here
          cases here
          exact (lt_add_one_iff below).mpr (Int32.not_lt.mp tighter)
        simp only [if_neg tighter, operatorsFrom_of_stops stops]
        rfl

theorem IsRead.rightOperand {tree : Tree} (read : tree.IsRead table) {precedence : Int32}
    (tighter : ∀ inner, tree.precedence? table = some inner → precedence < inner) {p p' : Parser}
    (same : p.operators = table) (ahead : Ahead tree.yield p p') (ends : EndsAt tree.yield p')
    (looser : ∀ op next, p'.operator? = some (op, next) → next ≤ precedence) :
    Parser.rightOperand precedence p = .ok tree.expr p' := by
  cases loosest : tree.precedence? table with
  | none =>
      rw [Parser.rightOperand, bind_of_ok (read.operand p p' same ahead ends loosest)]
      cases operator : p'.operator? with
      | none =>
          rw [peekOperator?_bind operator]
          rfl
      | some found =>
          rw [peekOperator?_bind operator]
          simp only [if_neg (Int32.not_lt.mpr (looser found.1 found.2 operator))]
          rfl
  | some inner =>
      -- With a precedence above it, the one at hand is not the largest, so `+ 1` does not wrap.
      have below := tighter inner loosest
      have noWrap : ∀ next, next < precedence + 1 ↔ next ≤ precedence := fun next =>
        lt_add_one_iff below
      have least : precedence + 1 ≤ inner := by
        rw [← Int32.not_lt, noWrap, Int32.not_le]
        exact below
      rw [rightOperand_eq below, read.operators (precedence + 1) p p' same ahead ends]
      · have stops : p'.Stops (precedence + 1) :=
          fun op next operator => (noWrap next).mpr (looser op next operator)
        exact operatorsFrom_of_stops stops _
      · intro other outside
        obtain rfl := Option.some.inj (loosest.symm.trans outside)
        exact least
      · intro op next operator other outside
        obtain rfl := Option.some.inj (loosest.symm.trans outside)
        exact Int32.le_trans (looser op next operator) (Int32.le_of_lt below)

theorem IsRead.binary {op : Char} {precedence : Int32} {left right : Tree}
    (known : table.precedence? op = some precedence) (positive : 0 ≤ precedence)
    (fitsLeft : ∀ inner, left.precedence? table = some inner → precedence ≤ inner)
    (fitsRight : ∀ inner, right.precedence? table = some inner → precedence < inner)
    (readLeft : left.IsRead table) (readRight : right.IsRead table)
    (brackets : table.KeepsBrackets) : (Tree.binary op left right).IsRead table := by
  have loosest : (Tree.binary op left right).precedence? table = some precedence := known
  refine ⟨fun p p' _ _ _ isOperand => ?_, fun least p p' same ahead ends atLeast fits => ?_⟩
  · rw [loosest] at isOperand
    contradiction
  · obtain ⟨q, aheadLeft, here, r, moved, aheadRight⟩ := ahead_append.mp ahead
    have sameHere := aheadLeft.moves.operators_eq.trans same
    have sameBehind : r.operators = table :=
      (Moves.of_advance moved).operators_eq.trans sameHere
    have operator : q.operator? = some (op, precedence) := by
      simp only [operator?, here, sameHere, known, Option.map_some]
    have tight := atLeast precedence loosest
    have notOpening : q.current ≠ .char '(' := by
      intro opens
      obtain rfl := Token.char.inj (here.symm.trans opens)
      exact Int32.not_lt.mpr positive (brackets '(' (by simp) precedence known)
    have endsRight : EndsAt right.yield p' := EndsAt.of_cons (EndsAt.of_append ends)
    have looser : ∀ op next, p'.operator? = some (op, next) → next ≤ precedence :=
      fun op next behind => fits op next behind precedence loosest
    have goesOn : ∀ inner, left.precedence? table = some inner → least ≤ inner :=
      fun inner outside => Int32.le_trans tight (fitsLeft inner outside)
    rw [readLeft.operators least p q same aheadLeft (endsAt_of_ne notOpening) goesOn,
      operatorsFrom_of_operator operator tight, bind_of_ok moved,
      bind_of_ok (readRight.rightOperand fitsRight sameBehind aheadRight endsRight looser)]
    · rfl
    · intro other next behind inner outside
      obtain ⟨rfl, rfl⟩ := Prod.mk.inj (Option.some.inj (operator.symm.trans behind))
      exact fitsLeft inner outside

theorem Binds.isRead {tree : Tree} (h : tree.Binds table) (brackets : table.KeepsBrackets) :
    tree.IsRead table := by
  induction h with
  | number value =>
      refine .of_operand fun p p' _ ahead _ => ?_
      obtain ⟨here, q, moved, rfl⟩ := ahead
      rw [operand_number here]
      exact bind_of_ok moved
  | var name =>
      refine .of_operand fun p p' _ ahead ends => ?_
      obtain ⟨here, q, moved, rfl⟩ := ahead
      rw [operand_ident here, bind_of_ok moved, peek_bind rfl, if_neg (ends name rfl)]
      rfl
  | call callee bind read => exact .call bind read brackets
  | paren binds read => exact .paren binds read brackets
  | binary known positive fitsLeft fitsRight _ _ readLeft readRight =>
      exact .binary known positive fitsLeft fitsRight readLeft readRight brackets

end Tree

namespace Parser

theorem nameList_reads {names : List String} {p q p' : Parser} (moved : advance p = .ok () q)
    (ahead : Ahead (names.map .ident) q p') (other : ∀ name, p'.current ≠ .ident name) :
    nameList p = .ok names p' := by
  induction names generalizing p q with
  | nil =>
      obtain rfl : q = p' := ahead
      exact nameList_of_other moved other
  | cons name names ih =>
      obtain ⟨here, r, movedOn, rest⟩ := ahead
      rw [nameList_of_ident moved here, bind_of_ok (ih movedOn rest)]
      rfl

theorem prototype_reads {proto : Prototype} {p p' : Parser} (ahead : Ahead proto.tokens p p') :
    prototype p = .ok proto p' := by
  obtain ⟨here, q, moved, opens, r, movedIn, inside⟩ := ahead
  obtain ⟨closing, names, closes, last, movedOut, rfl⟩ := ahead_append.mp inside
  have params : nameList q = .ok proto.params closing :=
    nameList_reads movedIn names (closes ▸ fun _ => Token.noConfusion)
  rw [prototype, peek_bind here]
  simp only [bind_of_ok moved, peek_bind opens, if_pos]
  exact (bind_of_ok params).trans (bind_of_ok (expect_of_current closes movedOut))

theorem form_of_other {p : Parser} (noDef : p.current ≠ .define) (noExtern : p.current ≠ .declare) :
    form p = (Form.definition <$> bareExpression) p := by
  cases here : p.current with
  | define => contradiction
  | declare => contradiction
  | _ => rw [form, peek_bind here]

theorem ahead_onTokens (table : Operators) (tokens rest : List Token) :
    Ahead tokens (onTokens table (tokens ++ rest)) (onTokens table rest) := by
  induction tokens with
  | nil => rfl
  | cons token tokens ih => exact ⟨rfl, _, advance_onTokens table _, ih⟩

/-- Reading undoes printing: where the printed tokens of a form come next, and what follows them is
    no operator and does not make a call of a name at their end, the parser reads just that form
    and stops at what follows. -/
theorem form_reads_tokens {table : Operators} {f : Form} {p p' : Parser}
    (brackets : table.KeepsBrackets) (spelled : f.isSpelled = true)
    (knows : table.Knows f.operators) (same : p.operators = table)
    (ahead : Ahead (f.tokens table) p p') (stops : p'.Stops 0)
    (ends : EndsAt (f.tokens table) p') : form p = .ok f p' := by
  cases f with
  | declaration proto =>
      obtain ⟨here, q, moved, rest⟩ := ahead
      have read : declaration p = .ok proto p' :=
        (bind_of_ok moved).trans (prototype_reads rest)
      rw [form, peek_bind here]
      exact map_of_ok read
  | definition d =>
      have binds := d.body.tree_binds knows
      have isRead := binds.isRead brackets
      cases bare : d.prototype.isAnonymous with
      | true =>
          simp only [Form.tokens, bare, if_true] at ahead ends
          obtain ⟨token, tokens, first, noDef, noExtern, -⟩ := (d.body.tree table).yield_eq_cons
          have here : p.current = token := (first ▸ ahead).1
          have body := isRead.expression binds.positive same ahead ends stops
          have read : bareExpression p = .ok d p' := by
            rw [bareExpression, bind_of_ok body, d.body.expr_tree,
              ← Form.prototype_eq_anonymous spelled bare]
            rfl
          rw [form_of_other (here ▸ noDef) (here ▸ noExtern)]
          exact map_of_ok read
      | false =>
          simp only [Form.tokens, bare, Bool.false_eq_true, if_false] at ahead ends
          obtain ⟨here, q, moved, inside⟩ := ahead
          obtain ⟨r, aheadProto, aheadBody⟩ := ahead_append.mp inside
          have sameBehind : r.operators = table := by
            have moves : Moves p r := .read (leaves_of_ok moved ▸ aheadProto.moves)
            exact moves.operators_eq.trans same
          have endsBody : EndsAt (d.body.tree table).yield p' := ends.of_cons.of_append
          have body := isRead.expression binds.positive sameBehind aheadBody endsBody stops
          have read : definition p = .ok d p' := by
            rw [definition, bind_of_ok moved, bind_of_ok (prototype_reads aheadProto),
              bind_of_ok body, d.body.expr_tree]
            rfl
          rw [form, peek_bind here]
          exact map_of_ok read

/-- Of the brackets in `def f(x y) (x - (y - x)) * g(x < y)` only those that the table needs are
    printed. -/
theorem form_reads_tokens_bracketed :
    ∃ f, f = Form.definition ⟨⟨"f", ["x", "y"]⟩, .binary '*'
        (.binary '-' (.var "x") (.binary '-' (.var "y") (.var "x")))
        (.call "g" [.binary '<' (.var "x") (.var "y")])⟩ ∧
      f.tokens .standard = [.define, .ident "f", .char '(', .ident "x", .ident "y", .char ')',
        .char '(', .ident "x", .char '-', .char '(', .ident "y", .char '-', .ident "x", .char ')',
        .char ')', .char '*', .ident "g", .char '(', .ident "x", .char '<', .ident "y",
        .char ')'] ∧
      form (onTokens .standard (f.tokens .standard ++ [.char ';', .ident "x"])) =
        .ok f (onTokens .standard [.char ';', .ident "x"]) := by
  refine ⟨_, rfl, by decide, ?_⟩
  refine form_reads_tokens Operators.standard_keepsBrackets (by decide) ?_ rfl
    (ahead_onTokens _ _ _) ?_ (endsAt_of_ne (by decide))
  · intro op mem
    have isOperator : op = '-' ∨ op = '*' ∨ op = '<' := by
      simpa [Form.operators, Expr.operators, argOperators] using mem
    rcases isOperator with rfl | rfl | rfl
    · exact ⟨20, rfl, by decide⟩
    · exact ⟨40, rfl, by decide⟩
    · exact ⟨10, rfl, by decide⟩
  · intro op precedence operator
    nomatch operator

end Parser

end Reckon
