import Reckon.Proofs.Parsing.Climbing
import Reckon.Proofs.Parsing.Unbounded

/-! # Where forms can be cut apart

At a `;` that is no operator, at `def` and at `extern` a form in progress stops just as it does at
the end of input: with the same result or with an error, and at that token. So whatever stands
before such a token is read alike, whether the input goes on there or not. The parser is followed
in two runs, one on the tokens before the boundary and one on all of them.
-/

namespace Reckon.Parser

/-- No form goes on over this token. -/
inductive Boundary (table : Operators) : Token → Prop where
  | define : Boundary table .define
  | declare : Boundary table .declare
  | separator : (∀ precedence, table.precedence? ';' = some precedence → precedence < 0) →
    Boundary table (.char ';')

theorem Boundary.stops {table : Operators} {token : Token} (h : Boundary table token)
    (more : List Token) : (onTokens table (token :: more)).Stops 0 := by
  intro op precedence operator
  cases h with
  | define => contradiction
  | declare => contradiction
  | separator loose =>
      simp only [operator?, onTokens, List.headD_cons, Option.map_eq_some_iff] at operator
      obtain ⟨_, known, same⟩ := operator
      cases same
      exact loose _ known

theorem Boundary.eq_of_blind {table : Operators} {token : Token} {f : Token → Parse α}
    (h : Boundary table token) (blind : Blind f) : f token = f .eof := by
  cases h with
  | define => exact blind.define
  | declare => exact blind.declare
  | separator _ => exact blind.separator

/-- The first step does on these tokens alone what the second does on them before others: they end
    alike, at the same place. -/
inductive Agrees (table : Operators) (behind : List Token) (x y : Parse α) (tokens : List Token)
    (ok : α → List Token → Prop) : Prop where
  | ok (a : α) (rest : List Token) :
    x (onTokens table tokens) = .ok a (onTokens table rest) →
    y (onTokens table (tokens ++ behind)) = .ok a (onTokens table (rest ++ behind)) →
    rest <:+ tokens → ok a rest → Agrees table behind x y tokens ok
  | error (e e' : ParseError) (rest : List Token) :
    x (onTokens table tokens) = .error e (onTokens table rest) →
    y (onTokens table (tokens ++ behind)) = .error e' (onTokens table (rest ++ behind)) →
    rest <:+ tokens → Agrees table behind x y tokens ok

namespace Agrees

variable {table : Operators} {behind tokens : List Token} {x x' y y' : Parse α}
  {ok : α → List Token → Prop}

theorem bind {f g : α → Parse β} {good : β → List Token → Prop}
    (first : Agrees table behind x y tokens ok)
    (rest : ∀ a rest, ok a rest → Agrees table behind (f a) (g a) rest good) :
    Agrees table behind (x >>= f) (y >>= g) tokens good := by
  cases first with
  | ok a middle run run' suffix holds =>
      cases rest a middle holds with
      | ok b last more more' further holds =>
          exact .ok b last ((bind_of_ok run).trans more) ((bind_of_ok run').trans more')
            (further.trans suffix) holds
      | error e e' last more more' further =>
          exact .error e e' last ((bind_of_ok run).trans more) ((bind_of_ok run').trans more')
            (further.trans suffix)
  | error e e' middle run run' suffix =>
      exact .error e e' middle (bind_of_error run) (bind_of_error run') suffix

theorem congr (h : Agrees table behind x y tokens ok)
    (alone : x' (onTokens table tokens) = x (onTokens table tokens))
    (all : y' (onTokens table (tokens ++ behind)) = y (onTokens table (tokens ++ behind))) :
    Agrees table behind x' y' tokens ok := by
  cases h with
  | ok a rest run run' suffix holds =>
      exact .ok a rest (alone.trans run) (all.trans run') suffix holds
  | error e e' rest run run' suffix =>
      exact .error e e' rest (alone.trans run) (all.trans run') suffix

theorem mono {good : α → List Token → Prop} (h : Agrees table behind x y tokens ok)
    (weaker : ∀ a rest, ok a rest → good a rest) : Agrees table behind x y tokens good := by
  cases h with
  | ok a rest run run' suffix holds => exact .ok a rest run run' suffix (weaker a rest holds)
  | error e e' rest run run' suffix => exact .error e e' rest run run' suffix

end Agrees

section Boundary

variable {table : Operators} {token : Token} {more tokens : List Token}

/-- Both runs look at the same token, or one at the boundary and the other at the end of input. -/
theorem Agrees.peek (boundary : Boundary table token) {f g : Token → Parse β}
    {ok : β → List Token → Prop} (tells : tokens ≠ [] ∨ Blind f ∧ Blind g)
    (h : Agrees table (token :: more) (f (tokens.headD .eof)) (g (tokens.headD .eof)) tokens ok) :
    Agrees table (token :: more) (Parser.peek >>= f) (Parser.peek >>= g) tokens ok := by
  cases tokens with
  | nil =>
      have blind := tells.resolve_left fun some => some rfl
      exact h.congr rfl (congrFun (boundary.eq_of_blind blind.2) _)
  | cons first tokens => exact h.congr rfl rfl

/-- The boundary is no operator that the parser goes on with. -/
theorem Agrees.atOperator (boundary : Boundary table token) {admits : Int32 → Bool}
    (positive : ∀ a < 0, admits a = false) {x y : Parse β} {f g : Char → Int32 → Parse β}
    {ok : β → List Token → Prop} (quiet : Agrees table (token :: more) x y tokens ok)
    (goesOn : ∀ op a, (onTokens table tokens).operator? = some (op, a) → admits a = true →
      Agrees table (token :: more) (f op a) (g op a) tokens ok) :
    Agrees table (token :: more) (Parser.atOperator admits x f) (Parser.atOperator admits y g)
      tokens ok := by
  cases tokens with
  | nil =>
      refine quiet.congr (atOperator_of_not nofun) (atOperator_of_not fun op a seen => ?_)
      exact positive a (boundary.stops more op a seen)
  | cons first tokens =>
      have same : (onTokens table (first :: tokens ++ token :: more)).operator? =
          (onTokens table (first :: tokens)).operator? := rfl
      rcases operator?_cases (onTokens table (first :: tokens)) admits with
        none | ⟨op, a, seen, admitted⟩
      · exact quiet.congr (atOperator_of_not none) (atOperator_of_not (same ▸ none))
      · exact (goesOn op a seen admitted).congr (atOperator_of_operator seen admitted)
          (atOperator_of_operator (same.trans seen) admitted)

/-- Two runs, one on the tokens before the boundary and one on all of them. -/
def agreeing (boundary : Boundary table token) (more : List Token) : Judgement where
  Place := List Token
  token tokens := tokens.headD .eof
  ahead tokens := tokens.tail.length
  Reads tokens rest := ∃ t, tokens = t :: rest
  MayRead tokens := tokens ≠ []
  loops := {
    Sees := fun tokens op a b =>
      (onTokens table tokens).operator? = some (op, a) ∧ a = b ∧ 0 ≤ a
    Admits := fun admits admits' => admits = admits' ∧ ∀ a < 0, admits a = false
    token_of_sees := fun sees => current_of_operator? sees.1
    admits_all := ⟨rfl, fun a negative => decide_eq_false (Int32.not_le.mpr negative)⟩
    admits_above := by
      rintro _ _ a _ ⟨-, rfl, positive⟩
      refine ⟨rfl, fun b negative => decide_eq_false (Int32.not_lt.mpr ?_)⟩
      exact Int32.le_trans (Int32.le_of_lt negative) positive }
  Holds tokens x y ok := Agrees table (token :: more) x y tokens ok
  ahead_of_reads {_ rest} reads := by
    obtain ⟨t, rfl⟩ := reads
    cases rest with
    | nil => exact Nat.le_refl _
    | cons first rest => exact Nat.add_le_add_left (by split <;> omega) _
  mayRead_of_isInner {tokens} inner none := by
    subst none
    contradiction
  pure {_ tokens a _} holds := .ok a tokens rfl rfl (List.suffix_refl _) holds
  fail _ := .error _ _ _ rfl rfl (List.suffix_refl _)
  bind := Agrees.bind
  peek := Agrees.peek boundary
  atOperator {_ _ admits _ _ _ _ _ _} same quiet goesOn := by
    obtain ⟨rfl, positive⟩ := same
    refine .atOperator boundary positive quiet fun op a seen admitted => ?_
    have notNegative : 0 ≤ a := Int32.not_lt.mp fun negative => by
      rw [positive a negative] at admitted
      contradiction
    exact goesOn op a a ⟨seen, rfl, notNegative⟩ admitted admitted
  advance {tokens} mayRead := by
    cases tokens with
    | nil => exact absurd rfl mayRead
    | cons first rest =>
        exact .ok () rest (advance_onTokens table _) (advance_onTokens table _)
          (List.suffix_cons _ _) ⟨first, rfl⟩

/-- A form is read alike whether the input ends behind these tokens or goes on with the
    boundary. -/
theorem form_agrees (boundary : Boundary table token) (more : List Token)
    (isToken : (onTokens table tokens).current ≠ .eof) :
    Agrees table (token :: more) form form tokens fun _ _ => True := by
  have some : tokens ≠ [] := by
    rintro rfl
    contradiction
  exact (((agreeing boundary more).whole _).form tokens (Nat.le_refl _) some).mono
    fun _ _ _ => trivial

end Boundary

end Reckon.Parser
