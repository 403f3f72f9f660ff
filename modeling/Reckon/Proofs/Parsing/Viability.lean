import Reckon.Proofs.Parsing.Completeness

/-! # Errors at the first possible token

A form that cannot be parsed fails at the first token that no form goes on with: what was consumed
before it can be completed to a form, and with that token behind it nothing can. So the parser
never reads on past a mistake, and what is dropped after an error starts with the mistake.

The parser is followed through all streams that begin with the consumed tokens. Each function of it
looks at one token more than it consumes, so behind its tokens another stream does as well that
starts with the same token, and also one that starts as its callers go on with. Where it fails it
has tokens at hand that complete it, and a caller puts its own completion behind them.
-/

namespace Reckon

/-- The error is about this token: where it names one, it is this. An error of the input is about
    none. -/
def ParseError.Blames : ParseError → Token → Prop
  | expectedCloseParen, _ => True
  | unknownToken named, token => named = token
  | expectedArgumentDelimiter named, token => named = token
  | expectedFunctionName named, token => named = token
  | expectedPrototypeOpen named, token => named = token
  | expectedPrototypeClose named, token => named = token
  | read _, _ => False

namespace Parser

/-- The stream starts like the tokens, or as it is allowed to. -/
def StartsLike (allowed : List Token → Prop) (tokens stream : List Token) : Prop :=
  stream.headD .eof = tokens.headD .eof ∨ allowed stream

def NoOther (_ : List Token) : Prop := False

def AnyStart (_ : List Token) : Prop := True

/-- An operand could start here: the completions all use this one. -/
def Opens (stream : List Token) : Prop := stream.head? = some (.ident "x")

/-- A bracket closes here, or the input ends. -/
def Closes (stream : List Token) : Prop :=
  stream.head? = none ∨ stream.head? = some (.char ')')

def ClosesBracket (stream : List Token) : Prop := stream.head? = some (.char ')')

/-- On these tokens the step ends well or fails, and so it does with any stream behind the tokens
    that it consumes which starts like the rest. If it ends well, the stream may also start as
    `follow` says. If it fails, the error is about the next token, and the consumed tokens have a
    completion with such a stream behind it. Either way the streams start like the tokens or as
    `enter` says, so that they can stand behind what was consumed before. -/
inductive Completes (table : Operators) (enter follow : List Token → Prop) (x : Parse α)
    (tokens : List Token) : Prop where
  | ok (a : α) (consumed rest : List Token) : tokens = consumed ++ rest →
    (∀ others, StartsLike follow rest others → StartsLike enter tokens (consumed ++ others) ∧
      x (onTokens table (consumed ++ others)) = .ok a (onTokens table others)) →
    Completes table enter follow x tokens
  | error (e : ParseError) (consumed rest more : List Token) : tokens = consumed ++ rest →
    e.Blames (onTokens table rest).current → .eof ∉ more →
    (∀ others, others.headD .eof = rest.headD .eof →
      x (onTokens table (consumed ++ others)) = .error e (onTokens table others)) →
    (∀ others, follow others → StartsLike enter tokens (consumed ++ (more ++ others)) ∧
      ∃ a, x (onTokens table (consumed ++ (more ++ others))) = .ok a (onTokens table others)) →
    Completes table enter follow x tokens

/-- Tokens that bring the step to an end, whatever result it goes on with. -/
def Finishes (table : Operators) (enter follow : List Token → Prop) (f : α → Parse β) : Prop :=
  ∃ more, .eof ∉ more ∧ ∀ others, follow others → enter (more ++ others) ∧
    ∀ a, ∃ b, f a (onTokens table (more ++ others)) = .ok b (onTokens table others)

theorem Finishes.here {table : Operators} {follow : List Token → Prop} {f : α → Parse β}
    (ends : ∀ a others, follow others →
      ∃ b, f a (onTokens table others) = .ok b (onTokens table others)) :
    Finishes table follow follow f :=
  ⟨[], List.not_mem_nil, fun others behind => ⟨behind, fun a => ends a others behind⟩⟩

section Streams

variable {table : Operators} {tokens stream : List Token} {allowed : List Token → Prop}

theorem StartsLike.mono {allowed' : List Token → Prop} (h : StartsLike allowed tokens stream)
    (more : ∀ stream, allowed stream → allowed' stream) : StartsLike allowed' tokens stream :=
  h.imp_right (more stream)

theorem current_of_head? {token : Token} (first : stream.head? = some token) :
    (onTokens table stream).current = token := by
  cases stream with
  | nil => contradiction
  | cons head tail => exact Option.some.inj first

theorem current_congr (same : stream.headD .eof = tokens.headD .eof) :
    (onTokens table stream).current = (onTokens table tokens).current := same

theorem operator?_congr (same : stream.headD .eof = tokens.headD .eof) :
    (onTokens table stream).operator? = (onTokens table tokens).operator? := by
  have here : (onTokens table stream).current = (onTokens table tokens).current := same
  have sameTable : (onTokens table stream).operators = (onTokens table tokens).operators := rfl
  simp only [operator?, here, sameTable]

theorem StartsLike.current (like : StartsLike NoOther tokens stream) :
    (onTokens table stream).current = (onTokens table tokens).current :=
  current_congr (like.resolve_right id)

theorem ClosesBracket.current (h : ClosesBracket stream) :
    (onTokens table stream).current = .char ')' := current_of_head? h

theorem closesBracket_of_current (here : (onTokens table stream).current = .char ')') :
    ClosesBracket stream := by
  obtain ⟨rest, rfl⟩ := cons_of_current here Token.noConfusion
  rfl

theorem ClosesBracket.closes (h : ClosesBracket stream) : Closes stream := .inr h

theorem Closes.current_ne (h : Closes stream) {token : Token} (isToken : token ≠ .eof)
    (other : token ≠ .char ')') : (onTokens table stream).current ≠ token := by
  rcases h with none | closes
  · rw [List.head?_eq_none_iff.mp none]
    exact isToken.symm
  · rw [current_of_head? closes]
    exact other.symm

theorem Opens.current (h : Opens stream) : (onTokens table stream).current = .ident "x" :=
  current_of_head? h

/-- The closing bracket is no operator. -/
def KeepsClosing (table : Operators) : Prop :=
  ∀ precedence, table.precedence? ')' = some precedence → precedence < 0

theorem Closes.stops (bracket : KeepsClosing table) (h : Closes stream) {least : Int32}
    (positive : 0 ≤ least) : (onTokens table stream).Stops least := by
  intro op precedence seen
  obtain ⟨rest, rfl, known⟩ := operator?_onTokens seen
  rcases h with none | closes
  · contradiction
  · cases closes
    exact Int32.lt_of_lt_of_le (bracket precedence known) positive

end Streams

namespace Completes

variable {table : Operators} {enter follow mid : List Token → Prop} {x y : Parse α}
  {tokens : List Token}

theorem congr (h : Completes table enter follow y tokens)
    (same : ∀ stream, StartsLike enter tokens stream →
      x (onTokens table stream) = y (onTokens table stream)) :
    Completes table enter follow x tokens := by
  cases h with
  | ok a consumed rest split run =>
      refine .ok a consumed rest split fun others like => ?_
      obtain ⟨entered, ends⟩ := run others like
      exact ⟨entered, (same _ entered).trans ends⟩
  | error e consumed rest more split blamed noEof stuck completed =>
      refine .error e consumed rest more split blamed noEof (fun others like => ?_) ?_
      · refine (same _ ?_).trans (stuck others like)
        cases consumed with
        | nil => exact .inl (split ▸ like)
        | cons first consumed => exact .inl (by rw [split]; rfl)
      · intro others behind
        obtain ⟨entered, a, ends⟩ := completed others behind
        exact ⟨entered, a, (same _ entered).trans ends⟩

theorem mono {enter' : List Token → Prop} (h : Completes table enter follow x tokens)
    (more : ∀ stream, enter stream → enter' stream) : Completes table enter' follow x tokens := by
  cases h with
  | ok a consumed rest split run =>
      exact .ok a consumed rest split fun others like =>
        ⟨(run others like).1.mono more, (run others like).2⟩
  | error e consumed rest added split blamed noEof stuck completed =>
      exact .error e consumed rest added split blamed noEof stuck fun others behind =>
        ⟨(completed others behind).1.mono more, (completed others behind).2⟩

theorem narrow {follow' : List Token → Prop} (h : Completes table enter follow x tokens)
    (fewer : ∀ stream, follow' stream → follow stream) :
    Completes table enter follow' x tokens := by
  cases h with
  | ok a consumed rest split run =>
      exact .ok a consumed rest split fun others like => run others (like.mono fewer)
  | error e consumed rest added split blamed noEof stuck completed =>
      exact .error e consumed rest added split blamed noEof stuck fun others behind =>
        completed others (fewer others behind)

theorem of_same_start (h : Completes table NoOther follow x tokens) :
    Completes table enter follow x tokens := h.mono fun _ => False.elim

theorem stays (a : α) (run : ∀ stream, StartsLike enter tokens stream →
      x (onTokens table stream) = .ok a (onTokens table stream)) :
    Completes table enter enter x tokens :=
  .ok a [] tokens rfl fun others like => ⟨like, run others like⟩

theorem pure (a : α) : Completes table enter enter (Pure.pure a) tokens := stays a fun _ _ => rfl

/-- The step fails at the first token; some tokens in its place do. -/
theorem fails (e : ParseError) (blamed : e.Blames (onTokens table tokens).current)
    (stuck : ∀ stream, stream.headD .eof = tokens.headD .eof →
      x (onTokens table stream) = .error e (onTokens table stream))
    (more : List Token) (noEof : .eof ∉ more)
    (completed : ∀ others, follow others → enter (more ++ others) ∧
      ∃ a, x (onTokens table (more ++ others)) = .ok a (onTokens table others)) :
    Completes table enter follow x tokens :=
  .error e [] tokens more rfl blamed noEof stuck fun others behind =>
    ⟨.inr (completed others behind).1, (completed others behind).2⟩

/-- A token is consumed, and so every stream starts with it. -/
theorem advance_bind {before : List Token → Prop} {token : Token}
    (rest : Completes table before follow x tokens) :
    Completes table enter follow (do Parser.advance; x) (token :: tokens) := by
  have moved : ∀ stream, (do Parser.advance; x : Parse α) (onTokens table (token :: stream)) =
      x (onTokens table stream) :=
    fun stream => bind_of_ok (advance_onTokens table (token :: stream))
  cases rest with
  | ok a consumed rest split run =>
      refine .ok a (token :: consumed) rest (by rw [split, List.cons_append]) fun others like => ?_
      exact ⟨.inl rfl, (moved _).trans (run others like).2⟩
  | error e consumed rest more split blamed noEof stuck completed =>
      refine .error e (token :: consumed) rest more (by rw [split, List.cons_append]) blamed noEof
        (fun others like => (moved _).trans (stuck others like)) fun others behind => ?_
      obtain ⟨-, a, ends⟩ := completed others behind
      exact ⟨.inl rfl, a, (moved _).trans ends⟩

theorem bind {f : α → Parse β} (first : Completes table enter mid x tokens)
    (finish : Finishes table mid follow f)
    (rest : ∀ a rest, rest.length ≤ tokens.length →
      x (onTokens table tokens) = .ok a (onTokens table rest) →
      Completes table mid follow (f a) rest) :
    Completes table enter follow (x >>= f) tokens := by
  cases first with
  | ok a consumed middle split run =>
      have here := (run middle (.inl rfl)).2
      rw [← split] at here
      have fewer : middle.length ≤ tokens.length := by
        rw [split, List.length_append]
        exact Nat.le_add_left _ _
      cases rest a middle fewer here with
      | ok b further last split' run' =>
          refine .ok b (consumed ++ further) last ?_ fun others like => ?_
          · rw [split, split', List.append_assoc]
          · obtain ⟨entered, ends⟩ := run' others like
            obtain ⟨enteredFirst, endsFirst⟩ := run _ entered
            rw [List.append_assoc]
            exact ⟨enteredFirst, (bind_of_ok endsFirst).trans ends⟩
      | error e further last more split' blamed noEof stuck completed =>
          refine .error e (consumed ++ further) last more ?_ blamed noEof (fun others like => ?_)
            fun others behind => ?_
          · rw [split, split', List.append_assoc]
          · have sameStart : (further ++ others).headD .eof = middle.headD .eof := by
              rw [split']
              cases further with
              | nil => exact like
              | cons first further => rfl
            rw [List.append_assoc]
            exact (bind_of_ok (run _ (.inl sameStart)).2).trans (stuck others like)
          · obtain ⟨entered, b, ends⟩ := completed others behind
            obtain ⟨enteredFirst, endsFirst⟩ := run _ entered
            rw [List.append_assoc]
            exact ⟨enteredFirst, b, (bind_of_ok endsFirst).trans ends⟩
  | error e consumed middle more split blamed noEof stuck completed =>
      obtain ⟨last, noEofToo, finishes⟩ := finish
      refine .error e consumed middle (more ++ last) split blamed ?_ (fun others like => ?_)
        fun others behind => ?_
      · exact fun mem => (List.mem_append.mp mem).elim noEof noEofToo
      · exact bind_of_error (stuck others like)
      · obtain ⟨between, ends⟩ := finishes others behind
        obtain ⟨entered, a, endsFirst⟩ := completed _ between
        obtain ⟨b, endsAll⟩ := ends a
        rw [List.append_assoc]
        exact ⟨entered, b, (bind_of_ok endsFirst).trans endsAll⟩

/-- A closing bracket is all that is missing where there is none. -/
theorem expect (error : Token → ParseError) (blames : ∀ token, (error token).Blames token)
    (a : α) : Completes table ClosesBracket AnyStart (do Parser.expect ')' error; Pure.pure a)
      tokens := by
  by_cases closes : ClosesBracket tokens
  · obtain ⟨rest, rfl⟩ := List.head?_eq_some_iff.mp closes
    have taken : Completes table NoOther AnyStart (do Parser.advance; Pure.pure a)
        (.char ')' :: rest) := (Completes.pure a).advance_bind
    refine .of_same_start (taken.congr fun stream same => ?_)
    exact bind_of_eq ((peek_bind same.current).trans (congrFun (if_pos rfl) _))
  · refine .fails _ (blames _) (fun stream same => ?_) [.char ')'] (by decide) fun others _ => ?_
    · have here : (onTokens table stream).current ≠ .char ')' :=
        current_congr same ▸ mt closesBracket_of_current closes
      rw [← current_congr same]
      exact bind_of_error ((peek_bind rfl).trans (congrFun (if_neg here) _))
    · exact ⟨rfl, a, bind_of_ok (expect_of_current rfl (advance_onTokens table _))⟩

theorem map (f : α → β) (h : Completes table enter follow x tokens) :
    Completes table enter follow (f <$> x) tokens := by
  cases h with
  | ok a consumed rest split run =>
      exact .ok (f a) consumed rest split fun others like =>
        ⟨(run others like).1, map_of_ok (run others like).2⟩
  | error e consumed rest more split blamed noEof stuck completed =>
      refine .error e consumed rest more split blamed noEof
        (fun others like => map_of_error (stuck others like)) fun others behind => ?_
      obtain ⟨entered, a, ends⟩ := completed others behind
      exact ⟨entered, f a, map_of_ok ends⟩

end Completes

section Expressions

variable {table : Operators} {enter : List Token → Prop} {tokens others : List Token} {n : Nat}

theorem operand_x (behind : Closes others) :
    operand (onTokens table (.ident "x" :: others)) = .ok (.var "x") (onTokens table others) := by
  have noCall : (onTokens table others).current ≠ .char '(' := behind.current_ne nofun (by decide)
  have moved : advance (onTokens table (.ident "x" :: others)) = .ok () (onTokens table others) :=
    advance_onTokens table _
  rw [operand_ident rfl, bind_of_ok moved, peek_bind rfl, if_neg noCall]
  rfl

theorem expression_x (bracket : KeepsClosing table) (behind : Closes others) :
    expression (onTokens table (.ident "x" :: others)) =
      .ok (.var "x") (onTokens table others) := by
  rw [expression_eq, bind_of_ok (operand_x behind)]
  exact operatorsFrom_of_stops (behind.stops bracket (Int32.le_refl 0)) _

/-- With no precedence above it, an operator takes one operand. -/
theorem rightOperand_of_greatest {precedence : Int32} (greatest : ∀ inner, ¬precedence < inner)
    {p : Parser} : rightOperand precedence p = operand p := by
  rw [rightOperand]
  cases run : operand p with
  | error e q => exact bind_of_error run
  | ok operand q =>
      rw [bind_of_ok run]
      cases seen : q.operator? with
      | none =>
          rw [peekOperator?_bind seen]
          rfl
      | some next =>
          rw [peekOperator?_bind seen]
          simp only [if_neg (greatest next.2)]
          rfl

/-- Streams of fewer tokens are completed. -/
structure CompletesBelow (table : Operators) (n : Nat) : Prop where
  operand : ∀ tokens, tokens.length < n → Completes table Opens Closes operand tokens
  operators : ∀ least left tokens, 0 ≤ least → tokens.length < n →
    Completes table Closes Closes (operatorsFrom least left) tokens
  right : ∀ precedence tokens, 0 ≤ precedence → tokens.length < n →
    Completes table Opens Closes (rightOperand precedence) tokens
  expression : ∀ tokens, tokens.length < n → Completes table Opens Closes expression tokens
  arguments : ∀ tokens, tokens.length < n →
    Completes table Opens ClosesBracket arguments tokens

namespace CompletesBelow

/-- Where no operand starts, one could. -/
theorem operand_fails (noNumber : ∀ value, (onTokens table tokens).current ≠ .number value)
    (noName : ∀ name, (onTokens table tokens).current ≠ .ident name)
    (noBracket : (onTokens table tokens).current ≠ .char '(') :
    Completes table Opens Closes Parser.operand tokens := by
  refine .fails (.unknownToken (onTokens table tokens).current) rfl (fun stream same => ?_)
    [.ident "x"] (by decide) fun others behind => ⟨rfl, _, operand_x behind⟩
  rw [← current_congr same] at noNumber noName noBracket ⊢
  exact operand_other noNumber noName noBracket

theorem closing_completes (args : List Expr) (name : String) (closes : ClosesBracket tokens) :
    Completes table enter Closes (do advance; Pure.pure (Expr.call name args)) tokens := by
  obtain ⟨rest, rfl⟩ := List.head?_eq_some_iff.mp closes
  exact (Completes.pure _).advance_bind

theorem call_completes (h : CompletesBelow table n) (name : String) (short : tokens.length < n) :
    Completes table Opens Closes (do
      let args ← if (← peek) = .char ')' then Pure.pure [] else Parser.arguments
      advance
      Pure.pure (Expr.call name args)) tokens := by
  by_cases closes : ClosesBracket tokens
  · refine .of_same_start ((closing_completes [] name closes).congr fun stream same => ?_)
    rw [peek_bind (same.current.trans closes.current), if_pos rfl]
    rfl
  · have inside : Completes table Opens Closes (do
        let args ← Parser.arguments
        advance
        Pure.pure (Expr.call name args)) tokens := by
      refine (h.arguments tokens short).bind ⟨[.char ')'], by decide, fun others _ => ?_⟩ ?_
      · exact ⟨rfl, fun args => ⟨_, bind_of_ok (advance_onTokens table _)⟩⟩
      · intro args rest _ run
        obtain ⟨-, after, -, there, -⟩ := ((sound_whole table).arguments tokens).of_ok run
        exact closing_completes args name
          (closesBracket_of_current (there ▸ rfl : (onTokens table rest).current = .char ')'))
    refine inside.congr fun stream like => ?_
    have here : (onTokens table stream).current ≠ .char ')' := by
      rcases like with same | opens
      · exact current_congr same ▸ mt closesBracket_of_current closes
      · exact opens.current ▸ Token.noConfusion
    rw [peek_bind rfl, if_neg here]

theorem operand_ident_completes (h : CompletesBelow table n) (name : String)
    (short : tokens.length ≤ n) :
    Completes table Opens Closes Parser.operand (.ident name :: tokens) := by
  have afterName : Completes table Closes Closes (do
      if (← peek) = .char '(' then
        advance
        let args ← if (← peek) = .char ')' then Pure.pure [] else Parser.arguments
        advance
        Pure.pure (.call name args)
      else Pure.pure (.var name) : Parse Expr) tokens := by
    by_cases opens : (onTokens table tokens).current = .char '('
    · obtain ⟨inside, rfl⟩ := cons_of_current opens Token.noConfusion
      have call := h.call_completes name (Nat.lt_of_succ_le short)
      refine .of_same_start (call.advance_bind.congr fun stream same => ?_)
      rw [peek_bind (same.current.trans opens), if_pos rfl]
    · refine .stays (.var name) fun stream like => ?_
      have here : (onTokens table stream).current ≠ .char '(' := by
        rcases like with same | closes
        · exact current_congr same ▸ opens
        · exact closes.current_ne nofun (by decide)
      rw [peek_bind rfl, if_neg here]
      rfl
  refine .of_same_start (afterName.advance_bind.congr fun stream same => ?_)
  exact operand_ident same.current

theorem operand_paren_completes (h : CompletesBelow table n) (short : tokens.length < n) :
    Completes table Opens Closes Parser.operand (.char '(' :: tokens) := by
  have inside : Completes table Opens Closes (do
      let inner ← Parser.expression
      expect ')' fun _ => .expectedCloseParen
      Pure.pure inner) tokens := by
    refine (h.expression tokens short).bind ⟨[.char ')'], by decide, fun others _ => ?_⟩
      fun inner rest _ _ => ?_
    · refine ⟨.inr rfl, fun inner => ⟨inner, ?_⟩⟩
      exact bind_of_ok (expect_of_current rfl (advance_onTokens table _))
    · have closing : Completes table ClosesBracket AnyStart
          (do expect ')' fun _ => .expectedCloseParen; Pure.pure inner) rest :=
        .expect (fun _ => .expectedCloseParen) (fun _ => trivial) inner
      exact (closing.mono fun _ => ClosesBracket.closes).narrow fun _ _ => trivial
  refine .of_same_start (inside.advance_bind.congr fun stream same => ?_)
  exact operand_paren same.current

theorem operand_succ (h : CompletesBelow table n) (tokens : List Token)
    (short : tokens.length < n + 1) : Completes table Opens Closes Parser.operand tokens := by
  cases tokens with
  | nil => exact operand_fails nofun nofun nofun
  | cons token tokens =>
      have shorter : tokens.length < n := Nat.lt_of_succ_lt_succ short
      cases token with
      | number value =>
          have taken : Completes table NoOther Closes (do advance; Pure.pure (Expr.number value))
              (.number value :: tokens) := (Completes.pure _).advance_bind
          exact .of_same_start (taken.congr fun stream same => operand_number same.current)
      | ident name => exact h.operand_ident_completes name (Nat.le_of_lt shorter)
      | char c =>
          by_cases opens : c = '('
          · exact opens ▸ h.operand_paren_completes shorter
          · exact operand_fails nofun nofun fun here => opens (Token.char.inj here)
      | eof | define | declare => exact operand_fails nofun nofun nofun

/-- Operators after an operand: one that is read asks for another operand and goes on behind it. -/
theorem operators_succ (h : CompletesBelow table n) (bracket : KeepsClosing table)
    (least : Int32) (left : Expr) (tokens : List Token) (positive : 0 ≤ least)
    (short : tokens.length < n + 1) :
    Completes table Closes Closes (operatorsFrom least left) tokens := by
  by_cases stops : (onTokens table tokens).Stops least
  · refine .stays left fun stream like => operatorsFrom_of_stops ?_ left
    rcases like with same | closes
    · intro op precedence seen
      exact stops op precedence (operator?_congr same ▸ seen)
    · exact closes.stops bracket positive
  · obtain ⟨op, precedence, seen, tight⟩ : ∃ op precedence,
        (onTokens table tokens).operator? = some (op, precedence) ∧ least ≤ precedence := by
      simpa only [Stops, Classical.not_forall, Int32.not_lt, exists_prop] using stops
    obtain ⟨rest, rfl, -⟩ := operator?_onTokens seen
    have shorter : rest.length < n := Nat.lt_of_succ_lt_succ short
    have behind : Completes table Opens Closes (do
        let right ← rightOperand precedence
        operatorsFrom least (.binary op left right)) rest := by
      refine (h.right precedence rest (Int32.le_trans positive tight) shorter).bind ?_ ?_
      · exact .here fun right others closes =>
          ⟨_, operatorsFrom_of_stops (closes.stops bracket positive) _⟩
      · intro right after fewer _
        exact h.operators least _ after positive (Nat.lt_of_le_of_lt fewer shorter)
    refine .of_same_start (behind.advance_bind.congr fun stream same => ?_)
    have seenToo : (onTokens table stream).operator? = some (op, precedence) :=
      (operator?_congr (same.resolve_right id)).trans seen
    exact operatorsFrom_of_operator seenToo tight left

theorem climbing_succ (h : CompletesBelow table n) (bracket : KeepsClosing table) {least : Int32}
    (positive : 0 ≤ least) (short : tokens.length < n + 1) :
    Completes table Opens Closes (do let left ← Parser.operand; operatorsFrom least left)
      tokens := by
  refine (h.operand_succ tokens short).bind (.here fun left others closes => ⟨left, ?_⟩) ?_
  · exact operatorsFrom_of_stops (closes.stops bracket positive) _
  · intro left rest fewer _
    exact h.operators_succ bracket least left rest positive (Nat.lt_of_le_of_lt fewer short)

theorem right_succ (h : CompletesBelow table n) (bracket : KeepsClosing table)
    (precedence : Int32) (tokens : List Token) (positive : 0 ≤ precedence)
    (short : tokens.length < n + 1) :
    Completes table Opens Closes (rightOperand precedence) tokens := by
  by_cases greatest : ∀ inner, ¬precedence < inner
  · exact (h.operand_succ tokens short).congr fun stream _ => rightOperand_of_greatest greatest
  · obtain ⟨inner, below⟩ := Classical.not_forall_not.mp greatest
    have positiveAbove : 0 ≤ precedence + 1 := Int32.le_trans positive
      (Int32.le_of_lt ((lt_add_one_iff below).mpr (Int32.le_refl _)))
    exact (h.climbing_succ bracket positiveAbove short).congr fun stream _ =>
      Tree.rightOperand_eq below _

theorem expression_succ (h : CompletesBelow table n) (bracket : KeepsClosing table)
    (tokens : List Token) (short : tokens.length < n + 1) :
    Completes table Opens Closes Parser.expression tokens :=
  (h.climbing_succ bracket (Int32.le_refl 0) short).congr fun _ _ => expression_eq _

theorem arguments_succ (h : CompletesBelow table n) (bracket : KeepsClosing table)
    (tokens : List Token) (short : tokens.length < n + 1) :
    Completes table Opens ClosesBracket Parser.arguments tokens := by
  refine Completes.congr ?_ fun stream _ => arguments_eq _
  have first := (h.expression_succ bracket tokens short).narrow fun _ => ClosesBracket.closes
  have last : ∀ {arg stream}, (onTokens table stream).current = .char ')' → (do
      let token ← peek
      if token = .char ')' then Pure.pure [arg]
      else if token = .char ',' then do
        advance
        let args ← Parser.arguments
        Pure.pure (arg :: args)
      else fail .expectedArgumentDelimiter : Parse (List Expr)) (onTokens table stream) =
        .ok [arg] (onTokens table stream) := by
    intro arg stream here
    rw [peek_bind here, if_pos rfl]
    rfl
  refine first.bind (.here fun arg others closes => ⟨_, last closes.current⟩)
    fun arg rest fewer _ => ?_
  by_cases closes : (onTokens table rest).current = .char ')'
  · refine .stays [arg] fun stream like => last ?_
    rcases like with same | closesToo
    · exact (current_congr same).trans closes
    · exact closesToo.current
  · by_cases separates : (onTokens table rest).current = .char ','
    · obtain ⟨inside, rfl⟩ := cons_of_current separates Token.noConfusion
      have shorter : inside.length < n :=
        Nat.lt_of_succ_lt_succ (Nat.lt_of_le_of_lt fewer short)
      have more : Completes table Opens ClosesBracket
          (do let args ← Parser.arguments; Pure.pure (arg :: args)) inside :=
        (h.arguments inside shorter).bind (.here fun args others _ => ⟨_, rfl⟩)
          fun args _ _ _ => .pure _
      refine .of_same_start (more.advance_bind.congr fun stream same => ?_)
      rw [peek_bind (same.current.trans separates), if_neg (by decide), if_pos rfl]
    · refine .fails (.expectedArgumentDelimiter (onTokens table rest).current) rfl
        (fun stream same => ?_) [] List.not_mem_nil fun others behind =>
          ⟨behind, _, last behind.current⟩
      rw [← current_congr same] at closes separates ⊢
      rw [peek_bind rfl, if_neg closes, if_neg separates]
      rfl

end CompletesBelow

theorem completesBelow (bracket : KeepsClosing table) (n : Nat) : CompletesBelow table n := by
  induction n with
  | zero =>
      exact ⟨nofun, nofun, nofun, nofun, nofun⟩
  | succ n ih =>
      exact ⟨ih.operand_succ, ih.operators_succ bracket, ih.right_succ bracket,
        ih.expression_succ bracket, ih.arguments_succ bracket⟩

theorem expression_completes (bracket : KeepsClosing table) (tokens : List Token) :
    Completes table Opens Closes expression tokens :=
  (completesBelow bracket _).expression tokens (Nat.lt_succ_self _)

end Expressions

section Forms

variable {table : Operators} {enter : List Token → Prop}

theorem nameList_completes (token : Token) (tokens : List Token) :
    Completes table enter ClosesBracket nameList (token :: tokens) := by
  obtain ⟨names, rest, rfl, other⟩ : ∃ (names : List String) (rest : List Token),
      tokens = names.map .ident ++ rest ∧ ∀ name, rest.headD .eof ≠ .ident name := by
    induction tokens with
    | nil => exact ⟨[], [], rfl, nofun⟩
    | cons next tokens ih =>
        by_cases isName : ∃ name, next = .ident name
        · obtain ⟨name, rfl⟩ := isName
          obtain ⟨names, rest, rfl, other⟩ := ih
          exact ⟨name :: names, rest, rfl, other⟩
        · exact ⟨[], next :: tokens, rfl, fun name same => isName ⟨name, same⟩⟩
  refine .ok names (token :: names.map .ident) rest rfl fun others like => ⟨.inl rfl, ?_⟩
  refine nameList_reads (advance_onTokens table _) (ahead_onTokens table _ others) fun name => ?_
  rcases like with same | closes
  · exact current_congr same ▸ other name
  · exact closes.current ▸ Token.noConfusion

theorem prototype_ident {p : Parser} {name : String} (here : p.current = .ident name) :
    prototype p = (do
      advance
      if (← peek) = .char '(' then
        let params ← nameList
        expect ')' .expectedPrototypeClose
        Pure.pure ⟨name, params⟩
      else fail .expectedPrototypeOpen : Parse Prototype) p := by
  rw [prototype, peek_bind here]
  rfl

theorem prototype_other {p : Parser} (noName : ∀ name, p.current ≠ .ident name) :
    prototype p = .error (.expectedFunctionName p.current) p := by
  apply peek_congr (g := fun token => fail fun _ => .expectedFunctionName token)
  split
  · next name here => exact absurd here (noName name)
  · rfl

theorem prototype_completes (tokens : List Token) :
    Completes table Opens AnyStart prototype tokens := by
  have reads : ∀ name others, prototype (onTokens table
      (.ident name :: .char '(' :: .char ')' :: others)) = .ok ⟨name, []⟩ (onTokens table others) :=
    fun name others => prototype_reads (ahead_onTokens table (Prototype.tokens ⟨name, []⟩) others)
  by_cases isName : ∃ name, (onTokens table tokens).current = .ident name
  · obtain ⟨name, here⟩ := isName
    obtain ⟨rest, rfl⟩ := cons_of_current here Token.noConfusion
    have behind : Completes table AnyStart AnyStart (do
        if (← peek) = .char '(' then
          let params ← nameList
          expect ')' .expectedPrototypeClose
          Pure.pure ⟨name, params⟩
        else fail .expectedPrototypeOpen : Parse Prototype) rest := by
      by_cases opens : (onTokens table rest).current = .char '('
      · obtain ⟨inside, rfl⟩ := cons_of_current opens Token.noConfusion
        have params : Completes table NoOther AnyStart (do
            let params ← nameList
            expect ')' .expectedPrototypeClose
            Pure.pure ⟨name, params⟩ : Parse Prototype) (.char '(' :: inside) := by
          refine (nameList_completes _ inside).bind ⟨[.char ')'], by decide, fun others _ => ?_⟩
            fun params after _ _ => .expect .expectedPrototypeClose (fun _ => rfl) _
          exact ⟨rfl, fun params =>
            ⟨_, bind_of_ok (expect_of_current rfl (advance_onTokens table _))⟩⟩
        refine .of_same_start (params.congr fun stream same => ?_)
        rw [peek_bind (same.current.trans opens), if_pos rfl]
      · refine .fails (.expectedPrototypeOpen (onTokens table rest).current) rfl
          (fun stream same => ?_) [.char '(', .char ')'] (by decide)
          fun others _ => ⟨trivial, ⟨name, []⟩, ?_⟩
        · rw [← current_congr same] at opens ⊢
          rw [peek_bind rfl, if_neg opens]
          rfl
        · have run := reads name others
          rw [prototype_ident rfl, bind_of_ok (advance_onTokens table _)] at run
          exact run
    refine .of_same_start (behind.advance_bind.congr fun stream same => ?_)
    exact prototype_ident same.current
  · refine .fails (.expectedFunctionName (onTokens table tokens).current) rfl
      (fun stream same => ?_) [.ident "x", .char '(', .char ')'] (by decide)
      fun others _ => ⟨rfl, _, reads "x" others⟩
    rw [← current_congr same] at isName ⊢
    exact prototype_other fun name here => isName ⟨name, here⟩

theorem definition_completes (bracket : KeepsClosing table) (token : Token) (tokens : List Token) :
    Completes table NoOther Closes definition (token :: tokens) := by
  have behind : Completes table Opens Closes (do
      let prototype ← prototype
      let body ← expression
      Pure.pure ⟨prototype, body⟩ : Parse Definition) tokens := by
    have first : Completes table Opens Opens prototype tokens :=
      (prototype_completes tokens).narrow fun _ _ => trivial
    refine first.bind ⟨[.ident "x"], by decide, fun others closes => ?_⟩
      fun prototype rest _ _ => ?_
    · exact ⟨rfl, fun prototype => ⟨_, bind_of_ok (expression_x bracket closes)⟩⟩
    · exact (expression_completes bracket rest).bind (.here fun body _ _ => ⟨_, rfl⟩)
        fun body _ _ _ => .pure _
  exact behind.advance_bind

theorem form_completes (bracket : KeepsClosing table) (tokens : List Token) :
    Completes table Opens Closes form tokens := by
  by_cases defines : (onTokens table tokens).current = .define
  · obtain ⟨rest, rfl⟩ := cons_of_current defines Token.noConfusion
    have taken := definition_completes bracket .define rest
    refine .of_same_start ((taken.map .definition).congr fun stream same => ?_)
    rw [form, peek_bind (same.current.trans defines)]
  · by_cases declares : (onTokens table tokens).current = .declare
    · obtain ⟨rest, rfl⟩ := cons_of_current declares Token.noConfusion
      have behind : Completes table NoOther Closes declaration (.declare :: rest) :=
        ((prototype_completes rest).narrow fun _ _ => trivial).advance_bind
      refine .of_same_start ((behind.map .declaration).congr fun stream same => ?_)
      rw [form, peek_bind (same.current.trans declares)]
    · have bare : Completes table Opens Closes bareExpression tokens :=
        (expression_completes bracket tokens).bind (.here fun body _ _ => ⟨_, rfl⟩)
          fun body _ _ _ => .pure _
      refine (bare.map .definition).congr fun stream like => ?_
      rcases like with same | opens
      · exact form_of_other (current_congr same ▸ defines) (current_congr same ▸ declares)
      · exact form_of_other (opens.current ▸ Token.noConfusion) (opens.current ▸ Token.noConfusion)

/-- A form that cannot be parsed fails at its first offending token, and the error is about that
    one: what is consumed before it can be completed to a form, and with that token behind it, it
    cannot, whatever comes then. -/
theorem form_fails_at_first_offender {table : Operators}
    (bracket : ∀ precedence, table.precedence? ')' = some precedence → precedence < 0)
    {tokens : List Token} {e : ParseError} {p : Parser}
    (failed : form (onTokens table tokens) = .error e p) :
    ∃ consumed rest, tokens = consumed ++ rest ∧ p = onTokens table rest ∧ e.Blames p.current ∧
      (∃ more f, .eof ∉ more ∧
        form (onTokens table (consumed ++ more)) = .ok f (onTokens table [])) ∧
      ∀ others, (onTokens table others).current = p.current →
        form (onTokens table (consumed ++ others)) = .error e (onTokens table others) := by
  cases form_completes bracket tokens with
  | ok f consumed rest split run =>
      have read := (run rest (.inl rfl)).2
      rw [← split, failed] at read
      contradiction
  | error e' consumed rest more split blamed noEof stuck completed =>
      have here := stuck rest rfl
      rw [← split, failed] at here
      obtain ⟨rfl, rfl⟩ := EStateM.Result.error.inj here
      obtain ⟨-, f, ends⟩ := completed [] (.inl rfl)
      rw [List.append_nil] at ends
      exact ⟨consumed, rest, split, rfl, blamed, ⟨more, f, noEof, ends⟩, stuck⟩

/-- In `def f(x) g(x, y def z` the second `def` is where an operator, a comma or the closing bracket
    could stand. -/
theorem form_fails_at_first_offender_keyword :
    ∃ e p, form (onTokens .standard [.define, .ident "f", .char '(', .ident "x", .char ')',
        .ident "g", .char '(', .ident "x", .char ',', .ident "y", .define, .ident "z"]) =
          .error e p ∧
      e = .expectedArgumentDelimiter .define ∧ p = onTokens .standard [.define, .ident "z"] ∧
      ∃ consumed rest, [.define, .ident "f", .char '(', .ident "x", .char ')', .ident "g",
          .char '(', .ident "x", .char ',', .ident "y", .define, .ident "z"] = consumed ++ rest ∧
        p = onTokens .standard rest ∧ e.Blames p.current ∧
        (∃ more f, .eof ∉ more ∧ form (onTokens .standard (consumed ++ more)) =
          .ok f (onTokens .standard [])) ∧
        ∀ others, (onTokens .standard others).current = p.current →
          form (onTokens .standard (consumed ++ others)) = .error e (onTokens .standard others) :=
  ⟨_, _, rfl, rfl, rfl, form_fails_at_first_offender
    (Operators.standard_keepsBrackets ')' (by decide)) rfl⟩

end Forms

end Parser

end Reckon
