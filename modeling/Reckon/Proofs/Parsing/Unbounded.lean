import Reckon.Proofs.Parsing.Depth

/-! # The parser without its bounds

The functions of the parser count down a depth, and the names of a prototype a count, so that they
are plain recursions. Here they start from bounds that are enough and call each other without one:
these are the equations of a recursive descent, and proofs that follow a tree and not the recursion
go by them.
-/

namespace Reckon.Parser

/-- An operand and the operators after it that bind tighter than the one before it. -/
def rightOperand (precedence : Int32) : Parse Expr := do
  let operand ← operand
  match ← peekOperator? with
  | none => pure operand
  | some (_, next) =>
    if precedence < next then operatorsFrom (precedence + 1) operand else pure operand

variable {p : Parser}

theorem expression_left (p : Parser) :
    Ensures expression p (fun _ q => q.left < p.left) fun _ _ => True :=
  ((settling.whole _).expression p (Nat.le_refl _)).2.mono
    (fun _ _ ended => ended.behind.left_lt) fun _ _ _ => trivial

theorem operand_left (p : Parser) :
    Ensures operand p (fun _ q => q.left < p.left) fun _ _ => True :=
  ((settling.whole _).operand p (Nat.le_refl _)).2.mono
    (fun _ _ ended => ended.behind.left_lt) fun _ _ _ => trivial

theorem prototype_left (p : Parser) :
    Ensures prototype p (fun _ q => q.left < p.left) fun _ _ => True :=
  ((settling.whole _).prototype p (Nat.le_refl _)).2.mono
    (fun _ _ ended => ended.behind.left_lt) fun _ _ _ => trivial

theorem form_left (p : Parser) :
    Ensures form p (fun _ q => q.left < p.left) fun _ _ => True :=
  ((settling.whole _).form p (Nat.le_refl _) trivial).2.mono
    (fun _ _ ended => ended.behind.left_lt) fun _ _ _ => trivial

theorem expect_of_current {c : Char} {error : Token → ParseError} {q : Parser}
    (here : p.current = .char c) (moved : advance p = .ok () q) : expect c error p = .ok () q := by
  rw [expect, peek_bind here, if_pos rfl, moved]

theorem expression_eq (p : Parser) :
    expression p = (do let left ← operand; operatorsFrom 0 left) p :=
  congrFun (congrArg Calls.expression Calls.unfold_whole.symm) p

theorem operand_eq (p : Parser) : operand p = Calls.whole.unfold.operand p :=
  congrFun (congrArg Calls.operand Calls.unfold_whole.symm) p

theorem operand_number {value : Double} (here : p.current = .number value) :
    operand p = (do advance; pure (.number value) : Parse Expr) p := by
  rw [operand_eq]
  exact peek_bind here

theorem operand_ident {name : String} (here : p.current = .ident name) :
    operand p = (do
      advance
      if (← peek) = .char '(' then
        advance
        let args ← if (← peek) = .char ')' then pure [] else arguments
        advance
        pure (.call name args)
      else pure (.var name) : Parse Expr) p := by
  rw [operand_eq]
  exact peek_bind here

theorem operand_paren (here : p.current = .char '(') :
    operand p = (do
      advance
      let inner ← expression
      expect ')' fun _ => .expectedCloseParen
      pure inner : Parse Expr) p := by
  rw [operand_eq]
  exact peek_bind here

theorem operand_other (noNumber : ∀ value, p.current ≠ .number value)
    (noName : ∀ name, p.current ≠ .ident name) (noBracket : p.current ≠ .char '(') :
    operand p = .error (.unknownToken p.current) p := by
  rw [operand_eq]
  apply peek_congr (g := fun token => fail fun _ => .unknownToken token)
  split
  · next value here => exact absurd here (noNumber value)
  · next name here => exact absurd here (noName name)
  · next here => exact absurd here noBracket
  · rfl

theorem arguments_eq (p : Parser) :
    arguments p = (do
      let arg ← expression
      let token ← peek
      if token = .char ')' then pure [arg]
      else if token = .char ',' then do
        advance
        let args ← arguments
        pure (arg :: args)
      else fail .expectedArgumentDelimiter : Parse (List Expr)) p := by
  have unfolded : arguments p = Calls.whole.unfold.arguments p :=
    congrFun (congrArg Calls.arguments Calls.unfold_whole.symm) p
  rw [unfolded]
  apply Ensures.bind_congr rfl Ensures.trivial
  intro arg q _
  apply peek_congr
  split
  · next closes => rw [if_pos closes]
  · next separates => rw [if_neg (separates ▸ by decide), if_pos separates]; rfl
  · next noBracket noComma => rw [if_neg noBracket, if_neg noComma]

theorem arguments_last {arg : Expr} {q : Parser} (read : expression p = .ok arg q)
    (closes : q.current = .char ')') : arguments p = .ok [arg] q := by
  rw [arguments_eq, bind_of_ok read, peek_bind closes, if_pos rfl]
  rfl

theorem arguments_next {arg : Expr} {q : Parser} (read : expression p = .ok arg q)
    (separates : q.current = .char ',') :
    arguments p = (do advance; let args ← arguments; pure (arg :: args) : Parse (List Expr)) q := by
  rw [arguments_eq, bind_of_ok read, peek_bind separates, if_neg (by decide), if_pos rfl]

/-- The operator at hand binds looser than this, if there is one. -/
def Stops (p : Parser) (least : Int32) : Prop :=
  ∀ op precedence, p.operator? = some (op, precedence) → precedence < least

theorem operatorsFrom_eq (least : Int32) (left : Expr) (p : Parser) :
    operatorsFrom least left p = Calls.whole.unfold.climb least left p :=
  congrFun (congrFun (congrFun (congrArg Calls.climb Calls.unfold_whole.symm) least) left) p

theorem operatorsFrom_of_stops {least : Int32} (stops : p.Stops least) (left : Expr) :
    operatorsFrom least left p = .ok left p := by
  rw [operatorsFrom_eq]
  cases operator : p.operator? with
  | none => exact peekOperator?_bind operator
  | some found =>
      refine (peekOperator?_bind operator).trans ?_
      simp only [if_pos (stops found.1 found.2 operator)]
      rfl

theorem operatorsFrom_of_operator {least precedence : Int32} {op : Char}
    (operator : p.operator? = some (op, precedence)) (tight : least ≤ precedence) (left : Expr) :
    operatorsFrom least left p = (do
      advance
      let right ← rightOperand precedence
      operatorsFrom least (.binary op left right) : Parse Expr) p := by
  rw [operatorsFrom_eq]
  refine (peekOperator?_bind operator).trans ?_
  simp only [if_neg (Int32.not_lt.mpr tight), rightOperand, bind_assoc]
  refine congrFun (bind_congr fun _ => bind_congr fun operand => bind_congr fun after => ?_) p
  cases after with
  | none => rfl
  | some next =>
      by_cases tighter : precedence < next.2
      · simp only [if_pos tighter]
        rfl
      · simp only [if_neg tighter]
        rfl

theorem nameList_eq (p : Parser) : nameList p = Calls.whole.unfold.names p :=
  congrFun (congrArg Calls.names Calls.unfold_whole.symm) p

theorem nameList_of_ident {name : String} {q : Parser} (moved : advance p = .ok () q)
    (here : q.current = .ident name) :
    nameList p = (do let rest ← nameList; pure (name :: rest) : Parse (List String)) q := by
  rw [nameList_eq]
  exact (bind_of_ok moved).trans (peek_bind here)

theorem nameList_of_other {q : Parser} (moved : advance p = .ok () q)
    (here : ∀ name, q.current ≠ .ident name) : nameList p = .ok [] q := by
  rw [nameList_eq]
  refine (bind_of_ok moved).trans ?_
  cases token : q.current with
  | ident name => exact absurd token (here name)
  | _ => exact peek_bind token

end Reckon.Parser
