import Reckon.Proofs.Parsing.Depth
import Reckon.Proofs.Parsing.Tree

/-! # Climbing precedences

Whatever the table of operators is, an expression that the parser reads is the expression of a
concrete tree in which operators bind as their precedences say, and the tokens that it consumed are
just the tokens of that tree. The loop over operators keeps that the tree so far may stand to the
left of the operator at hand.
-/

namespace Reckon

/-- A parser that has these tokens ahead of it, and then the end of input. -/
def Parser.onTokens (table : Operators) (tokens : List Token) : Parser :=
  ⟨tokens.headD .eof, .ofTokens tokens.tail, table⟩

/-- The tree's tokens are read off, and the tree has the expression and binds by the table. -/
structure Tree.Reads (table : Operators) (tokens : List Token) (e : Expr) (p : Parser)
    (tree : Tree) (rest : List Token) : Prop where
  tokens : tokens = tree.yield ++ rest
  parser : p = .onTokens table rest
  expr : tree.expr = e
  binds : tree.Binds table

namespace Parser

variable {table : Operators} {tokens rest : List Token}

section Steps

variable {β : Type} {ok : β → Parser → Prop} {err : ParseError → Parser → Prop}

theorem advance_onTokens (table : Operators) (tokens : List Token) :
    advance (onTokens table tokens) = .ok () (onTokens table tokens.tail) := by
  cases tokens with
  | nil => rfl
  | cons token rest => cases rest <;> rfl

theorem ensures_advance {rest : Unit → Parse β}
    (h : Ensures (rest ()) (onTokens table tokens.tail) ok err) :
    Ensures (advance >>= rest) (onTokens table tokens) ok err := by
  simpa only [Ensures, bind_of_ok (advance_onTokens table tokens)] using h

end Steps

theorem cons_of_current {token : Token} (here : (onTokens table tokens).current = token)
    (isToken : token ≠ .eof) : ∃ rest, tokens = token :: rest := by
  cases tokens with
  | nil => exact absurd here.symm isToken
  | cons first rest =>
      cases here
      exact ⟨rest, rfl⟩

theorem expect_ensures (c : Char) (error : Token → ParseError) :
    Ensures (expect c error) (onTokens table tokens)
      (fun _ p => ∃ rest, tokens = .char c :: rest ∧ p = onTokens table rest)
      fun _ _ => True := by
  apply ensures_peek
  split
  · next here =>
    obtain ⟨rest, rfl⟩ := cons_of_current here Token.noConfusion
    simp only [Ensures, advance_onTokens]
    exact ⟨rest, rfl, rfl⟩
  · exact ensures_fail

theorem operator?_onTokens {op : Char} {precedence : Int32}
    (h : (onTokens table tokens).operator? = some (op, precedence)) :
    ∃ rest, tokens = .char op :: rest ∧ table.precedence? op = some precedence := by
  cases tokens with
  | nil => contradiction
  | cons token rest =>
      cases token with
      | char c =>
          simp only [operator?, onTokens, List.headD_cons, Option.map_eq_some_iff] at h
          obtain ⟨_, known, same⟩ := h
          cases same
          exact ⟨rest, rfl, known⟩
      | eof => contradiction
      | define => contradiction
      | declare => contradiction
      | ident name => contradiction
      | number value => contradiction

def Below (table : Operators) (least : Int32) (rest : List Token) : Prop :=
  ∀ op precedence, (onTokens table rest).operator? = some (op, precedence) → precedence < least

/-- An expression is read that no operator of the language follows. -/
def ReadsExpression (table : Operators) (tokens : List Token) (e : Expr) (p : Parser) : Prop :=
  ∃ tree rest, Tree.Reads table tokens e p tree rest ∧ Below table 0 rest

/-- An operand is read, which has no operator outside brackets. -/
def ReadsOperand (table : Operators) (tokens : List Token) (e : Expr) (p : Parser) : Prop :=
  ∃ tree rest, Tree.Reads table tokens e p tree rest ∧ tree.precedence? table = none

/-- Arguments are read up to a closing bracket. -/
def ReadsArguments (table : Operators) (tokens : List Token) (args : List Expr) (p : Parser) :
    Prop :=
  ∃ trees rest, tokens = Tree.yieldArgs trees ++ .char ')' :: rest ∧
    p = onTokens table (.char ')' :: rest) ∧ Tree.exprs trees = args ∧ trees ≠ [] ∧
    ∀ tree ∈ trees, tree.Binds table

/-- The tree so far, of operators from `least` on, may stand to the left of the operator at hand. -/
structure Climbs (table : Operators) (least : Int32) (tokens : List Token) (tree : Tree) :
    Prop where
  binds : tree.Binds table
  atLeast : ∀ inner, tree.precedence? table = some inner → least ≤ inner
  fits : ∀ op precedence, (onTokens table tokens).operator? = some (op, precedence) →
    ∀ inner, tree.precedence? table = some inner → precedence ≤ inner

theorem Climbs.of_operand {tree : Tree} (binds : tree.Binds table)
    (isOperand : tree.precedence? table = none) (least : Int32) (tokens : List Token) :
    Climbs table least tokens tree := by
  have noOperator : ∀ least inner, tree.precedence? table = some inner → least ≤ inner := by
    intro least inner outside
    rw [isOperand] at outside
    contradiction
  exact ⟨binds, noOperator least, fun _ precedence _ => noOperator precedence⟩

/-- The tree so far is extended by operators from `least` on, and what follows binds looser. -/
def ReadsOperators (table : Operators) (least : Int32) (left : Tree) (tokens : List Token)
    (e : Expr) (p : Parser) : Prop :=
  ∃ tree rest, Tree.Reads table (left.yield ++ tokens) e p tree rest ∧
    (∀ inner, tree.precedence? table = some inner → least ≤ inner) ∧ Below table least rest

/-- A right operand has all operators that bind tighter than this one, and none is left. -/
def ReadsRight (table : Operators) (precedence : Int32) (tokens : List Token) (e : Expr)
    (p : Parser) : Prop :=
  ∃ tree rest, Tree.Reads table tokens e p tree rest ∧
    (∀ inner, tree.precedence? table = some inner → precedence < inner) ∧
    ∀ op next, (onTokens table rest).operator? = some (op, next) → next ≤ precedence

/-- What the answers to calls ensure, each of the function that it is named for. -/
structure Sound (table : Operators) (calls : Calls) : Prop where
  expression : ∀ tokens, Ensures calls.expression (onTokens table tokens)
    (ReadsExpression table tokens) fun _ _ => True
  operand : ∀ tokens, Ensures calls.operand (onTokens table tokens)
    (ReadsOperand table tokens) fun _ _ => True
  arguments : ∀ tokens, Ensures calls.arguments (onTokens table tokens)
    (ReadsArguments table tokens) fun _ _ => True
  climb : ∀ tokens least left, 0 ≤ least → Climbs table least tokens left →
    Ensures (calls.climb least left.expr) (onTokens table tokens)
      (ReadsOperators table least left tokens) fun _ _ => True

namespace Sound

variable {calls : Calls}

theorem expression_unfold (h : Sound table calls) (tokens : List Token) :
    Ensures calls.unfold.expression (onTokens table tokens) (ReadsExpression table tokens)
      fun _ _ => True := by
  refine (h.operand tokens).bind fun left p read => ?_
  obtain ⟨tree, rest, reads, isOperand⟩ := read
  obtain rfl := reads.expr
  obtain rfl := reads.parser
  have climbs := Climbs.of_operand reads.binds isOperand 0 rest
  refine (h.climb rest 0 tree (Int32.le_refl 0) climbs).mono ?_ fun _ _ bad => bad
  intro e p done
  obtain ⟨whole, after, readsAll, -, below⟩ := done
  exact ⟨whole, after, reads.tokens ▸ readsAll, below⟩

theorem operand_unfold (h : Sound table calls) (tokens : List Token) :
    Ensures calls.unfold.operand (onTokens table tokens) (ReadsOperand table tokens)
      fun _ _ => True := by
  apply ensures_peek
  split
  · next value here =>
    obtain ⟨rest, rfl⟩ := cons_of_current here Token.noConfusion
    exact ensures_advance (.pure ⟨.number value, rest, ⟨rfl, rfl, rfl, .number value⟩, rfl⟩)
  · next name here =>
    obtain ⟨rest, rfl⟩ := cons_of_current here Token.noConfusion
    refine ensures_advance (ensures_peek ?_)
    split
    · next opens =>
      obtain ⟨inside, same⟩ := cons_of_current opens Token.noConfusion
      cases same
      refine ensures_advance (ensures_peek ?_)
      split
      · next closes =>
        obtain ⟨after, same⟩ := cons_of_current closes Token.noConfusion
        cases same
        refine ensures_advance (.pure ⟨.call name [], after, ⟨rfl, rfl, rfl, ?_⟩, rfl⟩)
        exact .call name (by simp)
      · apply (h.arguments inside).bind
        intro args p read
        obtain ⟨trees, after, sameTokens, rfl, rfl, -, bind⟩ := read
        refine ensures_advance (.pure ⟨.call name trees, after, ⟨?_, rfl, rfl, .call name bind⟩,
          rfl⟩)
        simp [Tree.yield, sameTokens]
    · exact .pure ⟨.var name, rest, ⟨rfl, rfl, rfl, .var name⟩, rfl⟩
  · next here =>
    obtain ⟨rest, rfl⟩ := cons_of_current here Token.noConfusion
    apply ensures_advance
    apply (h.expression rest).bind
    intro inner p read
    obtain ⟨tree, closing, reads, -⟩ := read
    obtain rfl := reads.parser
    refine (expect_ensures ')' _).bind fun _ p closed => ?_
    obtain ⟨after, same, rfl⟩ := closed
    refine .pure ⟨.paren tree, after, ⟨?_, rfl, reads.expr, .paren reads.binds⟩, rfl⟩
    simp [Tree.yield, reads.tokens, same]
  · exact ensures_fail

theorem arguments_unfold (h : Sound table calls) (tokens : List Token) :
    Ensures calls.unfold.arguments (onTokens table tokens) (ReadsArguments table tokens)
      fun _ _ => True := by
  refine (h.expression tokens).bind fun arg p read => ?_
  obtain ⟨tree, rest, reads, -⟩ := read
  obtain rfl := reads.parser
  obtain rfl := reads.expr
  apply ensures_peek
  split
  · next closes =>
    obtain ⟨after, rfl⟩ := cons_of_current closes Token.noConfusion
    refine .pure ⟨[tree], after, reads.tokens, rfl, rfl, by simp, ?_⟩
    simpa using reads.binds
  · next separates =>
    obtain ⟨following, rfl⟩ := cons_of_current separates Token.noConfusion
    apply ensures_advance
    apply (h.arguments following).bind
    intro args p more
    obtain ⟨trees, after, sameTokens, rfl, rfl, nonempty, bind⟩ := more
    obtain ⟨second, others, rfl⟩ := List.exists_cons_of_ne_nil nonempty
    refine .pure ⟨tree :: second :: others, after, ?_, rfl, rfl, by simp, ?_⟩
    · have sameTokens : following = Tree.yieldArgs (second :: others) ++ .char ')' :: after :=
        sameTokens
      simp [reads.tokens, sameTokens, Tree.yieldArgs]
    · intro t ht
      rcases List.mem_cons.mp ht with rfl | ht
      · exact reads.binds
      · exact bind t ht
  · exact ensures_fail

theorem right_ensures (h : Sound table calls) {precedence : Int32} (positive : 0 ≤ precedence)
    {tree : Tree} (binds : tree.Binds table) (isOperand : tree.precedence? table = none)
    (rest : List Token) :
    Ensures
      (atOperator (precedence < ·) (pure tree.expr) fun _ _ =>
        calls.climb (precedence + 1) tree.expr)
      (onTokens table rest) (ReadsRight table precedence (tree.yield ++ rest))
      fun _ _ => True := by
  refine ensures_atOperator (fun loose => ?_) fun op next _ tighter => ?_
  · refine .pure ⟨tree, rest, ⟨rfl, rfl, rfl, binds⟩, fun inner outside => ?_,
      fun op next seen => ?_⟩
    · rw [isOperand] at outside
      contradiction
    · exact Int32.not_lt.mp (of_decide_eq_false (loose op next seen))
  · -- The inner loop's bound does not wrap around, because the operator at hand reaches it.
    have noWrap : ∀ other, other < precedence + 1 ↔ other ≤ precedence := fun other =>
      lt_add_one_iff (of_decide_eq_true tighter)
    have positiveAbove : 0 ≤ precedence + 1 :=
      Int32.le_trans positive (Int32.le_of_lt ((noWrap precedence).mpr (Int32.le_refl _)))
    have climbs := Climbs.of_operand binds isOperand (precedence + 1) rest
    refine (h.climb rest _ tree positiveAbove climbs).mono ?_ fun _ _ bad => bad
    intro e p read
    obtain ⟨right, after, reads, atLeast, below⟩ := read
    refine ⟨right, after, reads, fun inner outside => ?_, fun op other seen => ?_⟩
    · have notBelow := Int32.not_lt.mpr (atLeast inner outside)
      rwa [noWrap, Int32.not_le] at notBelow
    · exact (noWrap other).mp (below op other seen)

theorem climb_unfold (h : Sound table calls) (tokens : List Token) (least : Int32) (left : Tree)
    (positive : 0 ≤ least) (climbs : Climbs table least tokens left) :
    Ensures (calls.unfold.climb least left.expr) (onTokens table tokens)
      (ReadsOperators table least left tokens) fun _ _ => True := by
  rw [Calls.unfold_climb]
  refine ensures_atOperator (fun loose => ?_) fun op precedence operator tight => ?_
  · refine .pure ⟨left, tokens, ⟨rfl, rfl, rfl, climbs.binds⟩, climbs.atLeast, ?_⟩
    exact fun op precedence seen => Int32.not_le.mp (of_decide_eq_false (loose op precedence seen))
  have enough := of_decide_eq_true tight
  have positive' := Int32.le_trans positive enough
  obtain ⟨rest, rfl, known⟩ := operator?_onTokens operator
  apply ensures_advance
  apply (h.operand rest).bind
  intro operand p read
  obtain ⟨tree, behind, reads, isOperand⟩ := read
  obtain rfl := reads.expr
  obtain rfl := reads.parser
  apply (h.right_ensures positive' reads.binds isOperand behind).bind
  intro right p read
  obtain ⟨right, after, readsRight, tighter, looser⟩ := read
  obtain rfl := readsRight.expr
  obtain rfl := readsRight.parser
  have binds : (Tree.binary op left right).Binds table :=
    .binary known positive' (climbs.fits op precedence operator) tighter climbs.binds
      readsRight.binds
  -- The operator at hand now binds no tighter than this one: those that do went to the right
  -- operand, so the tree may stand to the left of it.
  have extended : Climbs table least after (.binary op left right) := by
    refine ⟨binds, ?_, ?_⟩
    · intro inner outside
      cases known.symm.trans outside
      exact enough
    · intro op' next following inner outside
      cases known.symm.trans outside
      exact looser op' next following
  refine (h.climb after least _ positive extended).mono ?_ fun _ _ bad => bad
  intro e p read
  obtain ⟨whole, last, readsWhole, atLeast, below⟩ := read
  have consumed : left.yield ++ .char op :: rest =
      (Tree.binary op left right).yield ++ after := by
    simp only [reads.tokens, readsRight.tokens, Tree.yield, List.append_assoc, List.cons_append]
  exact ⟨whole, last, consumed ▸ readsWhole, atLeast, below⟩

theorem unfold (h : Sound table calls) : Sound table calls.unfold :=
  ⟨h.expression_unfold, h.operand_unfold, h.arguments_unfold, h.climb_unfold⟩

end Sound

theorem sound (table : Operators) (depth : Nat) : Sound table (.within depth) := by
  induction depth with
  | zero => exact ⟨fun _ => trivial, fun _ => trivial, fun _ => trivial, fun _ _ _ _ _ => trivial⟩
  | succ depth ih => exact ih.unfold

theorem sound_whole (table : Operators) : Sound table .whole where
  expression tokens := (sound table (onTokens table tokens).depth).expression tokens
  operand tokens := (sound table (onTokens table tokens).depth).operand tokens
  arguments tokens := (sound table (onTokens table tokens).depth).arguments tokens
  climb tokens := (sound table (onTokens table tokens).depth).climb tokens

/-- An expression that is read is that of a concrete tree of the consumed tokens in which every
    operator binds by the table, and no operator of the language comes next. -/
theorem expression_reads_tree {table : Operators} {tokens : List Token} {e : Expr} {p : Parser}
    (parsed : expression (onTokens table tokens) = .ok e p) :
    ∃ (tree : Tree) (rest : List Token), tokens = tree.yield ++ rest ∧ p = onTokens table rest ∧
      tree.expr = e ∧ tree.Binds table ∧
      ∀ op precedence, p.operator? = some (op, precedence) → precedence < 0 := by
  obtain ⟨tree, rest, reads, below⟩ := ((sound_whole table).expression tokens).of_ok parsed
  refine ⟨tree, rest, reads.tokens, reads.parser, reads.expr, reads.binds, ?_⟩
  rw [reads.parser]
  exact below

/-- In `a - b * c < d` the product binds tightest and the comparison loosest. -/
theorem expression_reads_tree_standard :
    ∃ e p, expression (onTokens .standard [.ident "a", .char '-', .ident "b", .char '*',
        .ident "c", .char '<', .ident "d", .char ')']) = .ok e p ∧
      e = .binary '<' (.binary '-' (.var "a") (.binary '*' (.var "b") (.var "c"))) (.var "d") ∧
      ∃ (tree : Tree) (rest : List Token), [.ident "a", .char '-', .ident "b", .char '*',
        .ident "c", .char '<', .ident "d", .char ')'] = tree.yield ++ rest ∧
        p = onTokens .standard rest ∧ tree.expr = e ∧ tree.Binds .standard ∧
        ∀ op precedence, p.operator? = some (op, precedence) → precedence < 0 := by
  refine ⟨_, _, rfl, rfl, ?_⟩
  exact expression_reads_tree rfl

end Parser

end Reckon
