import Reckon.Proofs.Parsing.Climbing
import Reckon.Proofs.Parsing.Unbounded

/-! # Only the order of precedences matters

The loop over operators compares precedences with bounds, and a bound is zero or lies just above
the precedence of an operator that was read. So under two tables with the same operators in the
same order the parser does the same, whatever the numbers are. The bound above a precedence is
asked for only where an operator with a greater one is at hand, and so it is always a number.
-/

namespace Reckon

namespace Operators

/-- The character is an operator that the parser can go on with. -/
def Ranks (table : Operators) (op : Char) (precedence : Int32) : Prop :=
  table.precedence? op = some precedence ∧ 0 ≤ precedence

/-- The tables have the same operators with a precedence of at least zero, and put them in the same
    order; then they also agree on which ones are equal. -/
structure SameOrder (table other : Operators) : Prop where
  operators : ∀ op, (∃ precedence, table.Ranks op precedence) ↔
    ∃ precedence, other.Ranks op precedence
  lt_iff : ∀ {op op' a a' b b'}, table.Ranks op a → table.Ranks op' a' → other.Ranks op b →
    other.Ranks op' b' → (a < a' ↔ b < b')

theorem precedence?_erase (table : Operators) (op c : Char) :
    (table.erase op).precedence? c = if c = op then none else table.precedence? c := by
  induction table with
  | nil => simp [erase, precedence?]
  | cons entry table ih =>
      obtain ⟨known, precedence⟩ := entry
      simp only [erase, precedence?] at ih ⊢
      by_cases isOp : known = op
      · subst isOp
        by_cases same : c = known
        · simpa [same] using ih
        · simpa [same, List.lookup_cons, beq_eq_false_iff_ne.mpr same] using ih
      · by_cases same : c = known
        · subst same
          simp [isOp]
        · simpa [isOp, List.lookup_cons, beq_eq_false_iff_ne.mpr same] using ih

/-- A negative precedence is as good as none. -/
theorem sameOrder_erase {table : Operators} {op : Char}
    (negative : ∀ precedence, table.precedence? op = some precedence → precedence < 0) :
    table.SameOrder (table.erase op) := by
  have ranks : ∀ c precedence, (table.erase op).Ranks c precedence ↔ table.Ranks c precedence := by
    intro c precedence
    rw [Ranks, Ranks, precedence?_erase]
    by_cases same : c = op
    · subst same
      simp only [if_true]
      refine iff_of_false (fun none => nomatch none.1) fun ranked => ?_
      exact Int32.not_lt.mpr ranked.2 (negative precedence ranked.1)
    · rw [if_neg same]
  refine ⟨fun c => exists_congr fun precedence => (ranks c precedence).symm, ?_⟩
  intro c c' a a' b b' known known' other other'
  obtain rfl := Option.some.inj (known.1.symm.trans ((ranks c b).mp other).1)
  obtain rfl := Option.some.inj (known'.1.symm.trans ((ranks c' b').mp other').1)
  exact Iff.rfl

theorem mem_of_precedence? {table : Operators} {op : Char} {precedence : Int32}
    (known : table.precedence? op = some precedence) : (op, precedence) ∈ table := by
  obtain ⟨before, after, rfl, -⟩ := List.lookup_eq_some_iff.mp known
  simp only [List.mem_append, List.mem_cons, true_or, or_true]

/-- Other numbers for the precedences. -/
def renumber (table : Operators) (number : Int32 → Int32) : Operators :=
  table.map fun entry => (entry.1, number entry.2)

theorem precedence?_renumber (table : Operators) (number : Int32 → Int32) (op : Char) :
    (table.renumber number).precedence? op = (table.precedence? op).map number := by
  induction table with
  | nil => rfl
  | cons entry table ih =>
      obtain ⟨known, precedence⟩ := entry
      simp only [renumber, precedence?, List.map_cons, List.lookup_cons] at ih ⊢
      cases op == known
      · exact ih
      · rfl

theorem sameOrder_renumber {table : Operators} {number : Int32 → Int32}
    (positive : ∀ entry ∈ table, 0 ≤ number entry.2 ↔ 0 ≤ entry.2)
    (ordered : ∀ entry ∈ table, ∀ later ∈ table,
      entry.2 < later.2 ↔ number entry.2 < number later.2) :
    table.SameOrder (table.renumber number) := by
  have ranks : ∀ {op b}, (table.renumber number).Ranks op b →
      ∃ a, table.Ranks op a ∧ number a = b := by
    intro op b ⟨known, isPositive⟩
    rw [precedence?_renumber, Option.map_eq_some_iff] at known
    obtain ⟨a, known, rfl⟩ := known
    exact ⟨a, ⟨known, (positive _ (mem_of_precedence? known)).mp isPositive⟩, rfl⟩
  refine ⟨fun op => ⟨fun ⟨a, known, isPositive⟩ => ?_, fun ⟨b, known⟩ => ?_⟩, ?_⟩
  · refine ⟨number a, ?_, (positive _ (mem_of_precedence? known)).mpr isPositive⟩
    rw [precedence?_renumber, known, Option.map_some]
  · obtain ⟨a, known, -⟩ := ranks known
    exact ⟨a, known⟩
  · intro op op' a a' b b' known known' numbered numbered'
    obtain ⟨c, knownToo, rfl⟩ := ranks numbered
    obtain ⟨c', knownToo', rfl⟩ := ranks numbered'
    obtain rfl := Option.some.inj (known.1.symm.trans knownToo.1)
    obtain rfl := Option.some.inj (known'.1.symm.trans knownToo'.1)
    exact ordered _ (mem_of_precedence? known.1) _ (mem_of_precedence? known'.1)

/-- The bounds admit the same operators, and none with a negative precedence. -/
structure SameBound (table other : Operators) (admits admits' : Int32 → Bool) : Prop where
  positive : ∀ a < 0, admits a = false
  positive' : ∀ b < 0, admits' b = false
  admits_eq : ∀ {op a b}, table.Ranks op a → other.Ranks op b → admits a = admits' b

variable {table other : Operators}

theorem sameBound_zero : SameBound table other (0 ≤ ·) (0 ≤ ·) where
  positive _ negative := decide_eq_false (Int32.not_le.mpr negative)
  positive' _ negative := decide_eq_false (Int32.not_le.mpr negative)
  admits_eq known known' := decide_eq_decide.mpr (iff_of_true known.2 known'.2)

theorem SameOrder.above (same : table.SameOrder other) {op : Char} {a b : Int32}
    (known : table.Ranks op a) (known' : other.Ranks op b) :
    SameBound table other (a < ·) (b < ·) where
  positive _ negative := decide_eq_false
    (Int32.not_lt.mpr (Int32.le_trans (Int32.le_of_lt negative) known.2))
  positive' _ negative := decide_eq_false
    (Int32.not_lt.mpr (Int32.le_trans (Int32.le_of_lt negative) known'.2))
  admits_eq later later' := decide_eq_decide.mpr (same.lt_iff known later known' later')

theorem ranks_of_admits {admits : Int32 → Bool} (positive : ∀ a < 0, admits a = false)
    {op : Char} {precedence : Int32} (known : table.precedence? op = some precedence)
    (admitted : admits precedence = true) : table.Ranks op precedence := by
  refine ⟨known, Int32.not_lt.mp fun negative => ?_⟩
  rw [positive precedence negative] at admitted
  contradiction

end Operators

namespace Parser

open Operators

def under (p : Parser) (table : Operators) : Parser := { p with operators := table }

/-- What the first step does under the one table, the second does under the other: it gives the same
    result or error and leaves the same token and the same input. -/
def Mirrors (table other : Operators) (x y : Parse α) : Prop :=
  ∀ p : Parser, p.operators = table → Ensures x p
    (fun a q => q.operators = table ∧ y (p.under other) = .ok a (q.under other))
    fun e q => y (p.under other) = .error e (q.under other)

variable {table other : Operators}

theorem operator?_eq_some_iff {p : Parser} {op : Char} {precedence : Int32} :
    p.operator? = some (op, precedence) ↔
      p.current = .char op ∧ p.operators.precedence? op = some precedence := by
  cases here : p.current with
  | char c =>
      simp only [operator?, here, Option.map_eq_some_iff, Prod.mk.injEq, Token.char.injEq]
      constructor
      · rintro ⟨_, known, rfl, rfl⟩
        exact ⟨rfl, known⟩
      · rintro ⟨rfl, known⟩
        exact ⟨_, known, rfl, rfl⟩
  | _ => simp only [operator?, here, reduceCtorEq, false_and]

/-- The two tables show the same operator, or none that the parser goes on with. -/
theorem operator?_under_cases (same : table.SameOrder other) {admits admits' : Int32 → Bool}
    (bound : SameBound table other admits admits') {p : Parser} (isTable : p.operators = table) :
    ((∀ op a, p.operator? = some (op, a) → admits a = false) ∧
      ∀ op b, (p.under other).operator? = some (op, b) → admits' b = false) ∨
    ∃ op a b, p.operator? = some (op, a) ∧ (p.under other).operator? = some (op, b) ∧
      table.Ranks op a ∧ other.Ranks op b ∧ admits a = true ∧ admits' b = true := by
  subst isTable
  rcases operator?_cases p admits with none | ⟨op, a, seen, admitted⟩
  · refine .inl ⟨none, fun op b seen' => Bool.eq_false_iff.mpr fun admitted' => ?_⟩
    obtain ⟨here, known'⟩ := operator?_eq_some_iff.mp seen'
    have ranked' := ranks_of_admits bound.positive' known' admitted'
    obtain ⟨a, ranked⟩ := (same.operators op).mpr ⟨b, ranked'⟩
    have loose := none op a (operator?_eq_some_iff.mpr ⟨here, ranked.1⟩)
    rw [bound.admits_eq ranked ranked', admitted'] at loose
    contradiction
  · obtain ⟨here, known⟩ := operator?_eq_some_iff.mp seen
    have ranked := ranks_of_admits bound.positive known admitted
    obtain ⟨b, ranked'⟩ := (same.operators op).mp ⟨a, ranked⟩
    refine .inr ⟨op, a, b, seen, operator?_eq_some_iff.mpr ⟨here, ranked'.1⟩, ranked, ranked',
      admitted, ?_⟩
    rw [← bound.admits_eq ranked ranked', admitted]

/-- Two runs from one parser, one under each table. -/
def mirroring (same : table.SameOrder other) : Judgement where
  Place := Parser
  token := current
  ahead p := p.feed.events.length
  Reads p q := advance p = .ok () q
  MayRead _ := True
  loops := {
    Sees := fun p op a b => p.current = .char op ∧ table.Ranks op a ∧ other.Ranks op b
    Admits := SameBound table other
    token_of_sees := fun sees => sees.1
    admits_all := sameBound_zero
    admits_above := fun sees => same.above sees.2.1 sees.2.2 }
  Holds p x y ok := p.operators = table → Ensures x p
    (fun a q => (q.operators = table ∧ y (p.under other) = .ok a (q.under other)) ∧ ok a q)
    fun e q => y (p.under other) = .error e (q.under other)
  ahead_of_reads := left_of_advance
  mayRead_of_isInner _ := trivial
  pure holds isTable := ⟨⟨isTable, rfl⟩, holds⟩
  fail _ _ := rfl
  bind {_ _ p x _ _ _ _ _} first rest isTable := by
    have here := first isTable
    cases run : x p with
    | ok a q =>
        obtain ⟨⟨stillTable, run'⟩, holds⟩ := here.of_ok run
        simpa only [Ensures, bind_of_ok run, bind_of_ok run'] using rest a q holds stillTable
    | error e q =>
        have run' := here.of_error run
        simpa only [Ensures, bind_of_error run] using bind_of_error run'
  peek _ h := h
  atOperator {_ p _ _ _ _ _ _ _} bound quiet goesOn isTable := by
    rcases operator?_under_cases same bound isTable with ⟨none, none'⟩ |
      ⟨op, a, b, seen, seen', ranked, ranked', admitted, admitted'⟩
    · simpa only [Ensures, atOperator_of_not none, atOperator_of_not none'] using quiet isTable
    · have taken := goesOn op a b ⟨current_of_operator? seen, ranked, ranked'⟩ admitted admitted'
      simpa only [Ensures, atOperator_of_operator seen admitted,
        atOperator_of_operator seen' admitted'] using taken isTable
  advance {p} _ isTable := by
    obtain ⟨current, ⟨_ | ⟨token | text, events⟩, ending⟩, _⟩ := p
    · cases ending with
      | finished => exact ⟨⟨isTable, rfl⟩, rfl⟩
      | failed reason => rfl
    · exact ⟨⟨isTable, rfl⟩, rfl⟩
    · rfl

theorem mirrors_of_mirroring {same : table.SameOrder other} {x y : Parse α}
    {ok : Parser → α → Parser → Prop} (h : ∀ p, (mirroring same).Holds p x y (ok p)) :
    Mirrors table other x y := fun p isTable =>
  (h p isTable).mono (fun _ _ holds => holds.1) fun _ _ bad => bad

/-- Whatever is parsed under the one table, it is parsed alike under the other. -/
structure ParsesAlike (table other : Operators) : Prop where
  expression : Mirrors table other expression expression
  prototype : Mirrors table other prototype prototype
  declaration : Mirrors table other declaration declaration
  definition : Mirrors table other definition definition
  bareExpression : Mirrors table other bareExpression bareExpression
  form : Mirrors table other form form

theorem parsesAlike (same : table.SameOrder other) : ParsesAlike table other := by
  have whole := (mirroring same).whole
  exact {
    expression := mirrors_of_mirroring fun p => (whole _).expression p (Nat.le_refl _)
    prototype := mirrors_of_mirroring fun p => (whole _).prototype p (Nat.le_refl _)
    declaration := mirrors_of_mirroring fun p => (whole _).declaration p (Nat.le_refl _) trivial
    definition := mirrors_of_mirroring fun p => (whole _).definition p (Nat.le_refl _) trivial
    bareExpression := mirrors_of_mirroring fun p => (whole _).bareExpression p (Nat.le_refl _)
    form := mirrors_of_mirroring fun p => (whole _).form p (Nat.le_refl _) trivial }

section Above

variable (above : Int32 → Parse Int32)

mutual

/-- An expression, where another step gives the bound above a precedence. -/
def expressionAbove : Nat → Parse Expr
  | 0 => fail .unknownToken
  | depth + 1 => do
    let left ← operandAbove depth
    climbAbove depth 0 left

def operandAbove : Nat → Parse Expr
  | 0 => fail .unknownToken
  | depth + 1 => do
    match ← peek with
    | .number value =>
      advance
      pure (.number value)
    | .ident name =>
      advance
      if (← peek) = .char '(' then
        advance
        let args ← if (← peek) = .char ')' then pure [] else argumentsAbove depth
        advance
        pure (.call name args)
      else pure (.var name)
    | .char '(' =>
      advance
      let inner ← expressionAbove depth
      expect ')' fun _ => .expectedCloseParen
      pure inner
    | _ => fail .unknownToken

def argumentsAbove : Nat → Parse (List Expr)
  | 0 => fail .unknownToken
  | depth + 1 => do
    let arg ← expressionAbove depth
    match ← peek with
    | .char ')' => pure [arg]
    | .char ',' =>
      advance
      let args ← argumentsAbove depth
      pure (arg :: args)
    | _ => fail .expectedArgumentDelimiter

def climbAbove : Nat → Int32 → Expr → Parse Expr
  | 0, _, _ => fail .unknownToken
  | depth + 1, least, left => do
    match ← peekOperator? with
    | none => pure left
    | some (op, precedence) =>
      if precedence < least then pure left
      else
        advance
        let operand ← operandAbove depth
        let right ←
          match ← peekOperator? with
          | none => pure operand
          | some (_, next) =>
            if precedence < next then
              let bound ← above precedence
              climbAbove depth bound operand
            else pure operand
        climbAbove depth least (.binary op left right)

end

/-- Calls of so little depth do the same where another step gives the bounds. -/
structure SameAbove (depth : Nat) : Prop where
  expression : expressionAbove above depth = expressionWithin depth
  operand : operandAbove above depth = operandWithin depth
  arguments : argumentsAbove above depth = argumentsWithin depth
  climb : climbAbove above depth = climb depth

/-- The step gives the next number wherever there is one; what it does elsewhere is not said. -/
def GivesNext : Prop :=
  ∀ precedence bound : Int32, bound.toInt = precedence.toInt + 1 → above precedence = pure bound

variable {above}

theorem toInt_add_one {precedence next : Int32} (below : precedence < next) :
    (precedence + 1).toInt = precedence.toInt + 1 := by
  have top := Int32.toInt_lt next
  have bottom := Int32.le_toInt precedence
  have one : Int32.toInt 1 = 1 := rfl
  rw [Int32.lt_iff_toInt_lt] at below
  rw [Int32.toInt_add, one, Int.bmod_eq_of_le] <;> omega

/-- The bound is asked for only where an operator with a greater precedence is at hand. -/
theorem sameAbove (next : GivesNext above) (depth : Nat) : SameAbove above depth := by
  induction depth with
  | zero =>
      refine ⟨?_, ?_, ?_, ?_⟩
      · rw [expressionAbove, expressionWithin]
      · rw [operandAbove, operandWithin]
      · rw [argumentsAbove, argumentsWithin]
      · funext least left
        rw [climbAbove, climb]
  | succ depth ih =>
      refine ⟨?_, ?_, ?_, ?_⟩
      · rw [expressionAbove, expressionWithin, ih.operand, ih.climb]
      · rw [operandAbove, ih.expression, ih.arguments]
        rfl
      · rw [argumentsAbove, ih.expression, ih.arguments]
        rfl
      · funext least left
        rw [climbAbove, climb, ih.operand, ih.climb]
        refine bind_congr fun operator => ?_
        cases operator with
        | none => rfl
        | some found =>
            dsimp only
            split
            · rfl
            · refine bind_congr fun _ => bind_congr fun operand => bind_congr fun after => ?_
              cases after with
              | none => rfl
              | some later =>
                  dsimp only
                  split
                  · next tighter => rw [next _ _ (toInt_add_one tighter), pure_bind]
                  · rfl

end Above

/-- Tables that order the same operators alike parse everything alike; a negative precedence is as
    good as none; and the number above a precedence is never asked for where there is none. -/
theorem precedences_matter_by_order :
    (∀ table other : Operators, table.SameOrder other → ParsesAlike table other) ∧
    (∀ (table : Operators) op precedence, table.precedence? op = some precedence →
      precedence < 0 → ParsesAlike table (table.erase op)) ∧
    ∀ above, GivesNext above → ∀ p : Parser, expressionAbove above p.depth p = expression p := by
  refine ⟨fun _ _ => parsesAlike, fun table op precedence known negative => ?_, ?_⟩
  · refine parsesAlike (sameOrder_erase fun found again => ?_)
    obtain rfl := Option.some.inj (known.symm.trans again)
    exact negative
  · intro above next p
    rw [(sameAbove next p.depth).expression]
    rfl

/-- Comparisons may have precedence zero, sums one and products the greatest precedence there is,
    and `;` a negative one; then nothing lies above a product, and nothing is asked for there. -/
theorem precedences_matter_by_order_greatest :
    ∃ table : Operators, table =
        [('*', 2147483647), ('+', 1), ('-', 1), ('/', 2147483647), ('<', 0), ('>', 0)] ∧
      Operators.standard.SameOrder table ∧
      expression (onTokens table [.ident "x", .char '<', .ident "x", .char '*', .ident "y",
          .char '*', .ident "z", .char ';']) =
        .ok (.binary '<' (.var "x") (.binary '*' (.binary '*' (.var "x") (.var "y")) (.var "z")))
          (onTokens table [.char ';']) ∧
      ParsesAlike ((';', -1) :: table) table ∧
      ∃ above, above 2147483647 = fail .unknownToken ∧
        ∀ p : Parser, expressionAbove above p.depth p = expression p := by
  have same : Operators.standard.SameOrder (Operators.standard.renumber fun precedence =>
      if precedence = 10 then 0 else if precedence = 20 then 1 else 2147483647) :=
    sameOrder_renumber (by decide) (by decide)
  refine ⟨_, rfl, same, ?_, ?_, fun precedence =>
    if precedence = 2147483647 then fail .unknownToken else pure (precedence + 1), rfl, ?_⟩
  · have alike := (precedences_matter_by_order.1 _ _ same).expression (onTokens .standard
      [.ident "x", .char '<', .ident "x", .char '*', .ident "y", .char '*', .ident "z",
        .char ';']) rfl
    exact (alike.of_ok rfl).2
  · exact precedences_matter_by_order.2.1 ((';', -1) :: _) ';' (-1) rfl (by decide)
  · refine precedences_matter_by_order.2.2 _ fun precedence bound isNext => ?_
    have small := Int32.toInt_lt bound
    have below : precedence < bound := by
      rw [Int32.lt_iff_toInt_lt]
      omega
    have isBound : bound = precedence + 1 :=
      Int32.toInt.inj (isNext.trans (toInt_add_one below).symm)
    have notGreatest : precedence ≠ 2147483647 := by
      rintro rfl
      have greatest : Int32.toInt 2147483647 = 2147483647 := rfl
      omega
    rw [if_neg notGreatest, isBound]

end Parser

end Reckon
