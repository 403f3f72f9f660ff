import Mathlib.Logic.Function.Iterate
import Reckon.Parser
import Reckon.Proofs.Steps

/-! # The calls of the parser

The functions of the parser that call each other and themselves, taken together, are one solution
of a recursion: `Calls.unfold` says what each of them does when the calls that it makes are
answered by something else. The functions that only call those are given over any answers as well.
So what the parser does is written down once for all that is proved about it.
-/

namespace Reckon.Parser

section Steps

variable {α β : Type} {ok : β → Parser → Prop} {err : ParseError → Parser → Prop} {p : Parser}

theorem ensures_peek {rest : Token → Parse β} (h : Ensures (rest p.current) p ok err) :
    Ensures (peek >>= rest) p ok err := h

theorem ensures_fail {error : Token → ParseError} {ok : α → Parser → Prop} :
    Ensures (fail error) p ok fun _ _ => True := trivial

theorem peek_congr {f g : Token → Parse β}
    (same : (f p.current).run p = (g p.current).run p) : (peek >>= f) p = (peek >>= g) p := same

theorem peek_bind {token : Token} {f : Token → Parse α} (here : p.current = token) :
    (peek >>= f) p = f token p := here ▸ rfl

theorem peekOperator?_bind {operator : Option (Char × Int32)}
    {f : Option (Char × Int32) → Parse α} (here : p.operator? = operator) :
    (peekOperator? >>= f) p = f operator p := here ▸ rfl

theorem current_of_operator? {op : Char} {precedence : Int32}
    (found : p.operator? = some (op, precedence)) : p.current = .char op := by
  unfold operator? at found
  split at found
  · next here =>
    obtain ⟨_, -, same⟩ := Option.map_eq_some_iff.mp found
    cases same
    exact here
  · contradiction

end Steps

/-- Adding one to a precedence below another one does not wrap around. -/
theorem lt_add_one_iff {precedence next other : Int32} (below : precedence < next) :
    other < precedence + 1 ↔ other ≤ precedence := by
  have top := Int32.toInt_lt next
  have bottom := Int32.le_toInt precedence
  have one : Int32.toInt 1 = 1 := rfl
  rw [Int32.lt_iff_toInt_lt] at below
  rw [Int32.lt_iff_toInt_lt, Int32.le_iff_toInt_le, Int32.toInt_add, one,
    Int.bmod_eq_of_le] <;> omega

theorem add_one_le_iff {precedence next : Int32} (below : precedence < next) (other : Int32) :
    precedence + 1 ≤ other ↔ precedence < other := by
  rw [← Int32.not_lt, lt_add_one_iff below, Int32.not_le]

/-- Goes on with the operator at hand if its precedence is admitted. -/
def atOperator (admits : Int32 → Bool) (otherwise : Parse α) (goesOn : Char → Int32 → Parse α) :
    Parse α := do
  match ← peekOperator? with
  | none => otherwise
  | some (op, precedence) => if admits precedence then goesOn op precedence else otherwise

section AtOperator

variable {p : Parser} {admits : Int32 → Bool} {x : Parse α} {f : Char → Int32 → Parse α}

theorem atOperator_of_operator {op : Char} {precedence : Int32}
    (seen : p.operator? = some (op, precedence)) (admitted : admits precedence = true) :
    atOperator admits x f p = f op precedence p := by
  refine (peekOperator?_bind seen).trans ?_
  simp only [admitted, if_true]

theorem atOperator_of_not
    (none : ∀ op precedence, p.operator? = some (op, precedence) → admits precedence = false) :
    atOperator admits x f p = x p := by
  cases seen : p.operator? with
  | none => exact peekOperator?_bind seen
  | some found =>
      refine (peekOperator?_bind seen).trans ?_
      simp only [none found.1 found.2 seen, Bool.false_eq_true, if_false]

theorem operator?_cases (p : Parser) (admits : Int32 → Bool) :
    (∀ op precedence, p.operator? = some (op, precedence) → admits precedence = false) ∨
      ∃ op precedence, p.operator? = some (op, precedence) ∧ admits precedence = true := by
  by_cases found : ∃ op precedence, p.operator? = some (op, precedence) ∧ admits precedence = true
  · exact .inr found
  · refine .inl fun op precedence seen => Bool.eq_false_iff.mpr fun admitted => ?_
    exact found ⟨op, precedence, seen, admitted⟩

theorem ensures_atOperator {ok : α → Parser → Prop} {err : ParseError → Parser → Prop}
    (quiet : (∀ op precedence, p.operator? = some (op, precedence) → admits precedence = false) →
      Ensures x p ok err)
    (goesOn : ∀ op precedence, p.operator? = some (op, precedence) → admits precedence = true →
      Ensures (f op precedence) p ok err) : Ensures (atOperator admits x f) p ok err := by
  rcases operator?_cases p admits with none | ⟨op, precedence, seen, admitted⟩
  · simpa only [Ensures, atOperator_of_not none] using quiet none
  · have taken := goesOn op precedence seen admitted
    simpa only [Ensures, atOperator_of_operator seen admitted] using taken

end AtOperator

/-- The functions of the parser that call themselves or each other. -/
@[ext]
structure Calls where
  expression : Parse Expr
  operand : Parse Expr
  arguments : Parse (List Expr)
  climb : Int32 → Expr → Parse Expr
  names : Parse (List String)

namespace Calls

/-- What each of them does, when these answer its calls. -/
def unfold (c : Calls) : Calls where
  expression := do
    let left ← c.operand
    c.climb 0 left
  operand := do
    match ← peek with
    | .number value =>
      advance
      pure (.number value)
    | .ident name =>
      advance
      if (← peek) = .char '(' then
        advance
        let args ← if (← peek) = .char ')' then pure [] else c.arguments
        advance
        pure (.call name args)
      else pure (.var name)
    | .char '(' =>
      advance
      let inner ← c.expression
      expect ')' fun _ => .expectedCloseParen
      pure inner
    | _ => fail .unknownToken
  arguments := do
    let arg ← c.expression
    match ← peek with
    | .char ')' => pure [arg]
    | .char ',' =>
      advance
      let args ← c.arguments
      pure (arg :: args)
    | _ => fail .expectedArgumentDelimiter
  climb least left := do
    match ← peekOperator? with
    | none => pure left
    | some (op, precedence) =>
      if precedence < least then pure left
      else
        advance
        let operand ← c.operand
        let right ←
          match ← peekOperator? with
          | none => pure operand
          | some (_, next) =>
            if precedence < next then c.climb (precedence + 1) operand else pure operand
        c.climb least (.binary op left right)
  names := do
    advance
    match ← peek with
    | .ident name =>
      let rest ← c.names
      pure (name :: rest)
    | _ => pure []

/-- The calls of so little depth. -/
def within (depth : Nat) : Calls :=
  ⟨expressionWithin depth, operandWithin depth, argumentsWithin depth, Parser.climb depth,
    Parser.names depth⟩

theorem within_succ (depth : Nat) : within (depth + 1) = (within depth).unfold := rfl

theorem iterate_within (depth more : Nat) :
    unfold^[depth] (within more) = within (more + depth) := by
  induction depth with
  | zero => rfl
  | succ depth ih => rw [Function.iterate_succ_apply', ih, Nat.add_succ, within_succ]

theorem unfold_climb (c : Calls) (least : Int32) (left : Expr) :
    c.unfold.climb least left =
      atOperator (least ≤ ·) (pure left) (fun op precedence => do
        advance
        let operand ← c.operand
        let right ← atOperator (precedence < ·) (pure operand) fun _ _ =>
          c.climb (precedence + 1) operand
        c.climb least (.binary op left right)) := by
  refine bind_congr fun operator => ?_
  cases operator with
  | none => rfl
  | some found =>
      obtain ⟨op, precedence⟩ := found
      by_cases loose : precedence < least
      · simp only [if_pos loose, decide_eq_true_eq, if_neg (Int32.not_le.mpr loose)]
      · simp only [if_neg loose, decide_eq_true_eq, if_pos (Int32.not_lt.mp loose), atOperator,
          bind_assoc]
        refine bind_congr fun _ => bind_congr fun operand => bind_congr fun after => ?_
        cases after with
        | none => rfl
        | some later => by_cases tighter : precedence < later.2 <;> simp [tighter]

def prototype (c : Calls) : Parse Prototype := do
  match ← peek with
  | .ident name =>
    advance
    if (← peek) = .char '(' then
      let params ← c.names
      expect ')' .expectedPrototypeClose
      pure ⟨name, params⟩
    else fail .expectedPrototypeOpen
  | _ => fail .expectedFunctionName

def declaration (c : Calls) : Parse Prototype := do
  advance
  c.prototype

def definition (c : Calls) : Parse Definition := do
  advance
  let prototype ← c.prototype
  let body ← c.expression
  pure ⟨prototype, body⟩

/-- A prototype and its body. -/
def signed (c : Calls) : Parse Definition := do
  let prototype ← c.prototype
  let body ← c.expression
  pure ⟨prototype, body⟩

def bareExpression (c : Calls) : Parse Definition := do
  let body ← c.expression
  pure ⟨.anonymous, body⟩

def form (c : Calls) : Parse Form := do
  match ← peek with
  | .define => .definition <$> c.definition
  | .declare => .declaration <$> c.declaration
  | _ => .definition <$> do
    let body ← c.expression
    pure ⟨.anonymous, body⟩

end Calls

end Reckon.Parser
