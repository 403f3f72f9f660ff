import Mathlib.Logic.Relation
import Reckon.Proofs.Parsing.Calls
import Reckon.Proofs.Spelling

/-! # Judgements on the parser

What is proved of the parser is mostly of one kind: a claim on steps that is kept by whatever a
function of the parser is put together from. A `Judgement` is such a claim with one rule for each
of these ways. It compares two steps, since some claims are about two runs, and it speaks of places
instead of parsers, since the two runs need not be on the same parser. `Judgement.Within` applies
the rules to every function once; what is left to do for a claim is to give its rules.

A place may have tokens from which a form in progress must not read on, as `def` is. So the rules
allow a look at the current token only where it may be read, or if the look cannot tell the tokens
apart that end a form.
-/

namespace Reckon

namespace Token

/-- The token announces a form: `def` or `extern`. -/
def isKeyword : Token → Bool
  | define | declare => true
  | _ => false

/-- The token can be the last one of a form. -/
def closes : Token → Bool
  | number _ | ident _ | char ')' => true
  | _ => false

/-- The token can stand inside a form. -/
def isInner : Token → Bool
  | number _ | ident _ | char _ => true
  | _ => false

theorem isInner_of_closes {t : Token} (closes : t.closes = true) : t.isInner = true := by
  cases t with
  | number _ | ident _ | char _ => rfl
  | _ => contradiction

theorem ne_eof_of_isInner {t : Token} (inner : t.isInner = true) : t ≠ eof := by
  rintro rfl
  contradiction

end Token

namespace Parser

/-- The step is the same at every token that ends a form. -/
structure Blind (f : Token → Parse α) : Prop where
  define : f .define = f .eof
  declare : f .declare = f .eof
  separator : f (.char ';') = f .eof

/-- What two steps see of operators, and how the loops over operators may differ. -/
structure Loops {Place : Type} (token : Place → Token) where
  /-- The token is an operator, with these precedences for the two steps. -/
  Sees : Place → Char → Int32 → Int32 → Prop
  /-- The two steps go on with the same operators. -/
  Admits : (Int32 → Bool) → (Int32 → Bool) → Prop
  token_of_sees {c : Place} {op : Char} {a b : Int32} : Sees c op a b → token c = .char op
  admits_all : Admits (0 ≤ ·) (0 ≤ ·)
  admits_above {c : Place} {op : Char} {a b : Int32} : Sees c op a b → Admits (a < ·) (b < ·)

/-- Both steps see the operator of one parser. -/
def Loops.same {Place : Type} (parser : Place → Parser) : Loops fun c => (parser c).current where
  Sees c op a b := (parser c).operator? = some (op, a) ∧ a = b
  Admits := Eq
  token_of_sees sees := current_of_operator? sees.1
  admits_all := rfl
  admits_above sees := by rw [sees.2]

/-- A claim on two steps that start from one place and end at another. -/
structure Judgement where
  Place : Type
  /-- The token to parse next. -/
  token : Place → Token
  /-- The number of events that come after it. -/
  ahead : Place → Nat
  /-- A read leads from the one place to the other. -/
  Reads : Place → Place → Prop
  /-- The steps may read on from there. -/
  MayRead : Place → Prop
  loops : Loops token
  /-- The claim holds of the steps from there on, and where they end with a result, so does what is
      said of the result and of the place where they end. -/
  Holds : {α : Type} → Place → Parse α → Parse α → (α → Place → Prop) → Prop
  ahead_of_reads {c d : Place} : Reads c d → ahead d + (if token d = .eof then 0 else 1) ≤ ahead c
  mayRead_of_isInner {c : Place} : (token c).isInner = true → MayRead c
  pure {α : Type} {c : Place} {a : α} {ok : α → Place → Prop} :
    ok a c → Holds c (pure a) (pure a) ok
  fail {α : Type} {c : Place} {error : Token → ParseError} {ok : α → Place → Prop} :
    (∀ t e, error t ≠ .read e) → Holds c (fail error) (fail error) ok
  bind {α β : Type} {c : Place} {x y : Parse α} {f g : α → Parse β} {mid : α → Place → Prop}
    {ok : β → Place → Prop} : Holds c x y mid → (∀ a d, mid a d → Holds d (f a) (g a) ok) →
    Holds c (x >>= f) (y >>= g) ok
  peek {β : Type} {c : Place} {f g : Token → Parse β} {ok : β → Place → Prop} :
    MayRead c ∨ Blind f ∧ Blind g → Holds c (f (token c)) (g (token c)) ok →
    Holds c (peek >>= f) (peek >>= g) ok
  atOperator {β : Type} {c : Place} {admits admits' : Int32 → Bool} {x y : Parse β}
    {f g : Char → Int32 → Parse β} {ok : β → Place → Prop} :
    loops.Admits admits admits' → Holds c x y ok →
    (∀ op a b, loops.Sees c op a b → admits a = true → admits' b = true →
      Holds c (f op a) (g op b) ok) →
    Holds c (atOperator admits x f) (atOperator admits' y g) ok
  advance {c : Place} : MayRead c → Holds c advance advance fun _ => Reads c

namespace Judgement

variable {J : Judgement} {b c d : J.Place} {α β : Type} {name : String}

/-- The events from there on, the current token among them. -/
def left (c : J.Place) : Nat := J.ahead c + if J.token c = .eof then 0 else 1

/-- Reads lead from the one place to the other. -/
def Onto : J.Place → J.Place → Prop := Relation.ReflTransGen J.Reads

/-- Reads lead to the place, and the last of them is from a token that can end a form. -/
def Behind (c d : J.Place) : Prop := ∃ b, Onto c b ∧ (J.token b).closes = true ∧ J.Reads b d

/-- Reads lead to the name. -/
def Named (c : J.Place) (name : String) : Prop := ∃ d, Onto c d ∧ J.token d = .ident name

/-- Reads lead to these names, and then behind a token that can end a form. -/
structure Ends (c : J.Place) (names : List String) (d : J.Place) : Prop where
  behind : Behind c d
  named : ∀ name ∈ names, Named c name

theorem left_le_of_reads (reads : J.Reads c d) : left d ≤ left c := by
  have := J.ahead_of_reads reads
  unfold left
  omega

theorem left_lt_of_reads (reads : J.Reads c d) (isToken : J.token c ≠ .eof) : left d < left c := by
  have := J.ahead_of_reads reads
  rw [left, left, if_neg isToken]
  omega

theorem Onto.left_le (h : Onto c d) : left d ≤ left c := by
  induction h with
  | refl => exact Nat.le_refl _
  | tail _ reads le => exact Nat.le_trans (left_le_of_reads reads) le

theorem Behind.left_lt (h : Behind c d) : left d < left c := by
  obtain ⟨b, onto, closes, reads⟩ := h
  have isToken := Token.ne_eof_of_isInner (Token.isInner_of_closes closes)
  exact Nat.lt_of_lt_of_le (left_lt_of_reads reads isToken) onto.left_le

theorem Behind.onto (h : Behind c d) : Onto c d := by
  obtain ⟨b, onto, -, reads⟩ := h
  exact onto.tail reads

theorem Behind.after (h : Behind b d) (onto : Onto c b) : Behind c d := by
  obtain ⟨last, more, closes, reads⟩ := h
  exact ⟨last, onto.trans more, closes, reads⟩

theorem Behind.onward (h : Behind c b) (further : d = b ∨ Behind b d) : Behind c d := by
  rcases further with rfl | more
  · exact h
  · exact more.after h.onto

theorem Named.after (h : Named b name) (onto : Onto c b) : Named c name := by
  obtain ⟨d, more, here⟩ := h
  exact ⟨d, onto.trans more, here⟩

theorem Ends.after {names : List String} (h : Ends b names d) (onto : Onto c b) :
    Ends c names d := ⟨h.behind.after onto, fun name mem => (h.named name mem).after onto⟩

theorem mono {x y : Parse α} {ok good : α → J.Place → Prop} (h : J.Holds c x y ok)
    (weaker : ∀ a d, ok a d → good a d) : J.Holds c x y good := by
  rw [← bind_pure x, ← bind_pure y]
  exact J.bind h fun a d holds => J.pure (weaker a d holds)

theorem map {x y : Parse α} {f : α → β} {ok : β → J.Place → Prop}
    (h : J.Holds c x y fun a => ok (f a)) : J.Holds c (f <$> x) (f <$> y) ok := by
  rw [map_eq_pure_bind, map_eq_pure_bind]
  exact J.bind h fun _ _ holds => J.pure holds

theorem advance_bind {f g : Unit → Parse β} {ok : β → J.Place → Prop}
    (inner : (J.token c).isInner = true) (rest : ∀ d, J.Reads c d → J.Holds d (f ()) (g ()) ok) :
    J.Holds c (Parser.advance >>= f) (Parser.advance >>= g) ok :=
  J.bind (J.advance (J.mayRead_of_isInner inner)) fun _ d reads => rest d reads

/-- A look at the token that only tells apart tokens which do not end a form. -/
theorem look {f g : Token → Parse β} {ok : β → J.Place → Prop} (blind : Blind f) (blind' : Blind g)
    (h : J.Holds c (f (J.token c)) (g (J.token c)) ok) :
    J.Holds c (Parser.peek >>= f) (Parser.peek >>= g) ok := J.peek (.inr ⟨blind, blind'⟩) h

theorem expect {error : Token → ParseError} (notRead : ∀ t e, error t ≠ .read e) :
    J.Holds c (Parser.expect ')' error) (Parser.expect ')' error) fun _ => Behind c := by
  refine look ⟨rfl, rfl, rfl⟩ ⟨rfl, rfl, rfl⟩ ?_
  split
  · next closing =>
    have closes : (J.token c).closes = true := by rw [closing]; rfl
    refine mono (J.advance (J.mayRead_of_isInner (Token.isInner_of_closes closes))) ?_
    exact fun _ d reads => ⟨c, .refl, closes, reads⟩
  · exact J.fail notRead

/-- The claim holds of the answers to two times the same calls, wherever the events left cannot use
    up this depth. -/
structure Within (J : Judgement) (depth : Nat) (x y : Calls) : Prop where
  expression (c : J.Place) : 2 * left c + 2 ≤ depth →
    J.Holds c x.expression y.expression fun e => Ends c e.names
  operand (c : J.Place) : 2 * left c + 1 ≤ depth →
    J.Holds c x.operand y.operand fun e => Ends c e.names
  arguments (c : J.Place) : 2 * left c + 3 ≤ depth → J.Holds c x.arguments y.arguments
    fun args d => (Onto c d ∧ J.token d = .char ')') ∧ ∀ name ∈ argNames args, Named c name
  climb (c : J.Place) {least least' : Int32} (left : Expr) : 2 * Judgement.left c + 1 ≤ depth →
    J.loops.Admits (least ≤ ·) (least' ≤ ·) → J.Holds c (x.climb least left) (y.climb least' left)
      fun e d => (d = c ∨ Behind c d) ∧ ∀ name ∈ e.names, name ∈ left.names ∨ Named c name
  names (c : J.Place) : J.ahead c < depth → J.MayRead c → J.Holds c x.names y.names
    fun names d => Onto c d ∧ ∀ name ∈ names, Named c name

namespace Within

variable {depth : Nat} {x y : Calls}

theorem expression_succ (h : J.Within depth x y) (c : J.Place)
    (enough : 2 * left c + 2 ≤ depth + 1) :
    J.Holds c x.unfold.expression y.unfold.expression fun e => Ends c e.names := by
  refine J.bind (h.operand c (by omega)) fun left b ⟨behind, named⟩ => ?_
  have less := behind.left_lt
  refine mono (h.climb b left (by omega) J.loops.admits_all) fun e d ⟨further, names⟩ => ?_
  refine ⟨behind.onward further, fun name mem => (names name mem).elim (named name) ?_⟩
  exact fun later => later.after behind.onto

theorem operand_succ (h : J.Within depth x y) (c : J.Place)
    (enough : 2 * left c + 1 ≤ depth + 1) :
    J.Holds c x.unfold.operand y.unfold.operand fun e => Ends c e.names := by
  refine look ⟨rfl, rfl, rfl⟩ ⟨rfl, rfl, rfl⟩ ?_
  split
  · next value here =>
    have closes : (J.token c).closes = true := by rw [here]; rfl
    refine advance_bind (Token.isInner_of_closes closes) fun d reads => J.pure ⟨?_, nofun⟩
    exact ⟨c, .refl, closes, reads⟩
  · next name here =>
    have closes : (J.token c).closes = true := by rw [here]; rfl
    have first : Named c name := ⟨c, .refl, here⟩
    refine advance_bind (Token.isInner_of_closes closes) fun b reads => ?_
    have less := left_lt_of_reads reads (by simp [here])
    refine look ⟨rfl, rfl, rfl⟩ ⟨rfl, rfl, rfl⟩ ?_
    split
    · next opens =>
      refine advance_bind (by rw [opens]; rfl) fun d more => look ⟨rfl, rfl, rfl⟩ ⟨rfl, rfl, rfl⟩ ?_
      have lessToo := left_lt_of_reads more (by simp [opens])
      have onto : Onto c d := .tail (.single reads) more
      -- With arguments and without, the call is closed by the same read.
      have closing : ∀ args last, (Onto d last ∧ J.token last = .char ')') ∧
          (∀ name ∈ argNames args, Named d name) →
          J.Holds last (do Parser.advance; Pure.pure (Expr.call name args))
            (do Parser.advance; Pure.pure (Expr.call name args)) fun e => Ends c e.names := by
        rintro args last ⟨⟨further, closing⟩, named⟩
        have closes : (J.token last).closes = true := by rw [closing]; rfl
        refine advance_bind (Token.isInner_of_closes closes) fun d' reads => J.pure ⟨?_, ?_⟩
        · exact ⟨last, onto.trans further, closes, reads⟩
        · exact List.forall_mem_cons.mpr ⟨first, fun name mem => (named name mem).after onto⟩
      split
      · next closes => exact closing [] d ⟨⟨.refl, closes⟩, nofun⟩
      · exact J.bind (h.arguments d (by omega)) closing
    · exact J.pure ⟨⟨c, .refl, closes, reads⟩, List.forall_mem_singleton.mpr first⟩
  · next here =>
    refine advance_bind (by rw [here]; rfl) fun b reads => ?_
    have less := left_lt_of_reads reads (by simp [here])
    refine J.bind (h.expression b (by omega)) fun inner d ended => ?_
    refine J.bind (expect (by simp)) fun _ d' closed => J.pure ⟨?_, ?_⟩
    · exact closed.after (.head reads ended.behind.onto)
    · exact (ended.after (.single reads)).named
  · exact J.fail (by simp)

theorem arguments_succ (h : J.Within depth x y) (c : J.Place)
    (enough : 2 * left c + 3 ≤ depth + 1) : J.Holds c x.unfold.arguments y.unfold.arguments
      fun args d => (Onto c d ∧ J.token d = .char ')') ∧
        ∀ name ∈ argNames args, Named c name := by
  refine J.bind (h.expression c (by omega)) fun arg b ⟨behind, named⟩ => ?_
  refine look ⟨rfl, rfl, rfl⟩ ⟨rfl, rfl, rfl⟩ ?_
  split
  · next closes =>
    refine J.pure ⟨⟨behind.onto, closes⟩, fun name mem => named name ?_⟩
    rwa [argNames, argNames, List.append_nil] at mem
  · next separates =>
    refine advance_bind (by rw [separates]; rfl) fun d reads => ?_
    have less := behind.left_lt
    have le := left_le_of_reads reads
    refine J.bind (h.arguments d (by omega)) fun args last ⟨⟨further, closes⟩, more⟩ => J.pure ?_
    have onto : Onto c d := behind.onto.tail reads
    refine ⟨⟨onto.trans further, closes⟩, List.forall_mem_append.mpr ⟨named, ?_⟩⟩
    exact fun name mem => (more name mem).after onto
  · exact J.fail (by simp)

theorem climb_succ (h : J.Within depth x y) (c : J.Place) {least least' : Int32} (left : Expr)
    (enough : 2 * Judgement.left c + 1 ≤ depth + 1)
    (same : J.loops.Admits (least ≤ ·) (least' ≤ ·)) :
    J.Holds c (x.unfold.climb least left) (y.unfold.climb least' left)
      fun e d => (d = c ∨ Behind c d) ∧ ∀ name ∈ e.names, name ∈ left.names ∨ Named c name := by
  rw [Calls.unfold_climb, Calls.unfold_climb]
  refine J.atOperator same (J.pure ⟨.inl rfl, fun _ => .inl⟩) fun op a b sees _ _ => ?_
  have isOperator := J.loops.token_of_sees sees
  refine advance_bind (by rw [isOperator]; rfl) fun p₁ reads => ?_
  have less := left_lt_of_reads reads (by simp [isOperator])
  refine J.bind (h.operand p₁ (by omega)) fun operand p₂ ⟨behind, named⟩ => ?_
  have lessToo := behind.left_lt
  have operandBehind : Behind c p₂ := behind.after (.single reads)
  have right : J.Holds p₂
      (Parser.atOperator (a < ·) (Pure.pure operand) fun _ _ => x.climb (a + 1) operand)
      (Parser.atOperator (b < ·) (Pure.pure operand) fun _ _ => y.climb (b + 1) operand)
      fun e d => (d = p₂ ∨ Behind p₂ d) ∧
        ∀ name ∈ e.names, name ∈ operand.names ∨ Named p₂ name := by
    refine J.atOperator (J.loops.admits_above sees) (J.pure ⟨.inl rfl, fun _ => .inl⟩) ?_
    intro _ next next' _ tighter tighter'
    refine h.climb p₂ operand (by omega) ?_
    -- One more than a precedence is only asked for where a tighter one follows, so it is in range.
    simp only [add_one_le_iff (of_decide_eq_true tighter),
      add_one_le_iff (of_decide_eq_true tighter')]
    exact J.loops.admits_above sees
  refine J.bind right fun right p₃ ⟨further, rightNamed⟩ => ?_
  have rightBehind := operandBehind.onward further
  have lessStill := rightBehind.left_lt
  refine mono (h.climb p₃ _ (by omega) same) fun e d ⟨more, names⟩ => ?_
  refine ⟨.inr (rightBehind.onward more), fun name mem => ?_⟩
  rcases names name mem with inside | later
  · rcases List.mem_append.mp inside with inLeft | inRight
    · exact .inl inLeft
    · refine .inr ((rightNamed name inRight).elim ?_ fun later => later.after operandBehind.onto)
      exact fun inOperand => (named name inOperand).after (.single reads)
  · exact .inr (later.after rightBehind.onto)

theorem names_succ (h : J.Within depth x y) (c : J.Place) (enough : J.ahead c < depth + 1)
    (mayRead : J.MayRead c) : J.Holds c x.unfold.names y.unfold.names
      fun names d => Onto c d ∧ ∀ name ∈ names, Named c name := by
  -- The token to start from is never looked at and may be the end of input, so only the events
  -- behind it bound the depth.
  refine J.bind (J.advance mayRead) fun _ b reads => look ⟨rfl, rfl, rfl⟩ ⟨rfl, rfl, rfl⟩ ?_
  split
  · next name here =>
    have less := J.ahead_of_reads reads
    rw [if_neg (by simp [here])] at less
    refine J.bind (h.names b (by omega) (J.mayRead_of_isInner (by rw [here]; rfl))) ?_
    rintro rest d ⟨onto, named⟩
    refine J.pure ⟨.head reads onto, List.forall_mem_cons.mpr ⟨⟨b, .single reads, here⟩, ?_⟩⟩
    exact fun name mem => (named name mem).after (.single reads)
  · exact J.pure ⟨.single reads, nofun⟩

theorem unfold (h : J.Within depth x y) : J.Within (depth + 1) x.unfold y.unfold :=
  ⟨h.expression_succ, h.operand_succ, h.arguments_succ, h.climb_succ, h.names_succ⟩

theorem prototype (h : J.Within depth x y) (c : J.Place) (enough : left c ≤ depth) :
    J.Holds c x.prototype y.prototype fun p => Ends c p.names := by
  refine look ⟨rfl, rfl, rfl⟩ ⟨rfl, rfl, rfl⟩ ?_
  split
  · next name here =>
    refine advance_bind (by rw [here]; rfl) fun b reads => look ⟨rfl, rfl, rfl⟩ ⟨rfl, rfl, rfl⟩ ?_
    have less := left_lt_of_reads reads (by simp [here])
    split
    · next opens =>
      have mayRead := J.mayRead_of_isInner (c := b) (by rw [opens]; rfl)
      have few : J.ahead b ≤ left b := Nat.le_add_right _ _
      refine J.bind (h.names b (by omega) mayRead) fun params d ⟨onto, named⟩ => ?_
      refine J.bind (expect (by simp)) fun _ last closed => J.pure ⟨?_, ?_⟩
      · exact closed.after (.head reads onto)
      · refine List.forall_mem_cons.mpr ⟨⟨c, .refl, here⟩, fun name mem => ?_⟩
        exact (named name mem).after (.single reads)
    · exact J.fail (by simp)
  · exact J.fail (by simp)

theorem declaration (h : J.Within depth x y) (c : J.Place) (enough : left c ≤ depth)
    (mayRead : J.MayRead c) :
    J.Holds c x.declaration y.declaration fun p => Ends c p.names := by
  refine J.bind (J.advance mayRead) fun _ b reads => ?_
  have le := left_le_of_reads reads
  exact mono (h.prototype b (by omega)) fun p d ended => ended.after (.single reads)

theorem signed (h : J.Within depth x y) (c : J.Place) (enough : 2 * left c + 2 ≤ depth) :
    J.Holds c x.signed y.signed fun f => Ends c (f.prototype.names ++ f.body.names) := by
  refine J.bind (h.prototype c (by omega)) fun p b ⟨behind, named⟩ => ?_
  have less := behind.left_lt
  refine J.bind (h.expression b (by omega)) fun body d ended => J.pure ?_
  have further := ended.after behind.onto
  exact ⟨further.behind, List.forall_mem_append.mpr ⟨named, further.named⟩⟩

theorem definition (h : J.Within depth x y) (c : J.Place) (enough : 2 * left c + 2 ≤ depth)
    (mayRead : J.MayRead c) : J.Holds c x.definition y.definition
      fun f => Ends c (f.prototype.names ++ f.body.names) := by
  refine J.bind (J.advance mayRead) fun _ b reads => ?_
  have le := left_le_of_reads reads
  exact mono (h.signed b (by omega)) fun f d ended => ended.after (.single reads)

theorem bareExpression (h : J.Within depth x y) (c : J.Place)
    (enough : 2 * left c + 2 ≤ depth) : J.Holds c x.bareExpression y.bareExpression
      fun f => Ends c (Form.definition f).words :=
  J.bind (h.expression c enough) fun _ _ ⟨behind, named⟩ => J.pure ⟨behind, named⟩

theorem form (h : J.Within depth x y) (c : J.Place) (enough : 2 * left c + 2 ≤ depth)
    (mayRead : J.MayRead c) : J.Holds c x.form y.form fun f => Ends c f.words := by
  refine J.peek (.inl mayRead) ?_
  split
  · refine map (mono (h.definition c enough mayRead) fun f d ⟨behind, named⟩ => ⟨behind, ?_⟩)
    obtain ⟨prototype, body⟩ := List.forall_mem_append.mp named
    refine List.forall_mem_append.mpr ⟨fun name mem => ?_, body⟩
    split at mem
    · contradiction
    · exact prototype name mem
  · exact map (h.declaration c (by omega) mayRead)
  · exact map (h.bareExpression c enough)

end Within

theorem within_iterate (depth : Nat) (x y : Calls) :
    J.Within depth (Calls.unfold^[depth] x) (Calls.unfold^[depth] y) := by
  induction depth with
  | zero => exact ⟨by omega, by omega, by omega, by omega, by omega⟩
  | succ depth ih =>
      rw [Function.iterate_succ_apply', Function.iterate_succ_apply']
      exact ih.unfold

end Judgement

end Parser

end Reckon
