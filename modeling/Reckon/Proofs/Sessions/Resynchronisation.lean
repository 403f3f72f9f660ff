import Reckon.Proofs.Parsing.Boundaries
import Reckon.Proofs.Sessions.Rounds

/-! # Resynchronisation

Whatever stands before a `;` that is no operator, or before `def` or `extern`, it does not change
what is read behind it: recovery never skips past such a token. So the forms of a source are those
of its parts, and its module is what the second part makes of the module of the first.
-/

namespace Reckon

namespace Parser

variable {table : Operators} {token : Token} {more tokens : List Token}

/-- The turn goes on at `last`, and in the run on all tokens at the same place or behind the
    separator. -/
structure TurnsTo (table : Operators) (token : Token) (more tokens last : List Token) : Prop where
  suffix : last <:+ tokens
  alone : turn (onTokens table tokens) = .ok true (onTokens table last)
  all : turn (onTokens table (tokens ++ token :: more)) =
      .ok true (onTokens table (last ++ token :: more)) ∨
    last = [] ∧ token = .char ';' ∧
      turn (onTokens table (tokens ++ token :: more)) = .ok true (onTokens table more)
  form : (onTokens table (tokens ++ token :: more)).form? = (onTokens table tokens).form?

theorem current_onTokens_append (isToken : (onTokens table tokens).current ≠ .eof)
    (behind : List Token) :
    (onTokens table (tokens ++ behind)).current = (onTokens table tokens).current := by
  cases tokens with
  | nil => contradiction
  | cons first tokens => rfl

theorem notFailed_of_onTokens {e : ParseError} {q : Parser}
    (bad : Parser.form (onTokens table tokens) = .error e q) (reason : String) :
    e ≠ .read (.failed reason) := by
  rintro rfl
  have ending := ((form_forward _).of_error bad).ending_eq
  contradiction

/-- Recovery goes on alike in both runs, or skips a separator behind the tokens. -/
theorem resume_append (boundary : Boundary table token) (more : List Token) {e e' : ParseError}
    (notFailed : ∀ reason, e ≠ .read (.failed reason))
    (notFailed' : ∀ reason, e' ≠ .read (.failed reason)) (rest : List Token) :
    (∃ last, last <:+ rest ∧ resume e (onTokens table rest) = .ok () (onTokens table last) ∧
      resume e' (onTokens table (rest ++ token :: more)) =
        .ok () (onTokens table (last ++ token :: more))) ∨
    resume e (onTokens table rest) = .ok () (onTokens table []) ∧ token = .char ';' ∧
      resume e' (onTokens table (rest ++ token :: more)) = .ok () (onTokens table more) := by
  cases rest with
  | nil =>
      have alone := resume_of_start notFailed (p := onTokens table []) (.inl rfl)
      cases boundary with
      | define =>
          exact .inl ⟨[], List.suffix_refl _, alone, resume_of_start notFailed' (.inr (.inl rfl))⟩
      | declare =>
          exact .inl ⟨[], List.suffix_refl _, alone, resume_of_start notFailed' (.inr (.inr rfl))⟩
      | separator =>
          have other : ¬(onTokens table (.char ';' :: more)).AtStart := by
            rintro (here | here | here) <;> contradiction
          exact .inr ⟨alone, rfl, (resume_of_other notFailed' other).trans (advance_onTokens _ _)⟩
  | cons first rest =>
      by_cases atStart : (onTokens table (first :: rest)).AtStart
      · exact .inl ⟨_, List.suffix_refl _, resume_of_start notFailed atStart,
          resume_of_start notFailed' atStart⟩
      · have atStartToo : ¬(onTokens table (first :: rest ++ token :: more)).AtStart := atStart
        exact .inl ⟨rest, List.suffix_cons _ _,
          (resume_of_other notFailed atStart).trans (advance_onTokens _ _),
          (resume_of_other notFailed' atStartToo).trans (advance_onTokens _ _)⟩

theorem turn_append (boundary : Boundary table token) (more : List Token)
    (isToken : (onTokens table tokens).current ≠ .eof) :
    ∃ last, TurnsTo table token more tokens last := by
  have same := current_onTokens_append isToken (token :: more)
  rcases (onTokens table tokens).turn_cases with here | here | atForm
  · contradiction
  · have all := same.trans here
    refine ⟨tokens.tail, List.tail_suffix _, ?_, .inl ?_, ?_⟩
    · rw [turn_of_separator here, bind_of_ok (advance_onTokens table tokens)]
      rfl
    · rw [turn_of_separator all, bind_of_ok (advance_onTokens table _), List.tail_append_of_ne_nil]
      · rfl
      · rintro rfl
        contradiction
    · rw [form?_of_separator here, form?_of_separator all]
  · have atFormToo : (onTokens table (tokens ++ token :: more)).AtForm :=
      ⟨same ▸ atForm.isToken, same ▸ atForm.noSeparator⟩
    cases form_agrees boundary more isToken with
    | ok f rest read readToo suffix _ =>
        refine ⟨rest, suffix, atForm.turn_of_ok read, .inl (atFormToo.turn_of_ok readToo), ?_⟩
        rw [atForm.form?_of_ok read, atFormToo.form?_of_ok readToo]
    | error e e' rest bad badToo suffix =>
        have formless : (onTokens table (tokens ++ token :: more)).form? =
            (onTokens table tokens).form? := by
          rw [atForm.form?_of_error bad, atFormToo.form?_of_error badToo]
        rcases resume_append boundary more (notFailed_of_onTokens bad)
          (notFailed_of_onTokens badToo) rest with ⟨last, suffixToo, resumed, resumedToo⟩ |
          ⟨resumed, rfl, resumedToo⟩
        · refine ⟨last, suffixToo.trans suffix, ?_, .inl ?_, formless⟩
          · exact (atForm.turn_of_error bad).trans (bind_of_ok resumed)
          · exact (atFormToo.turn_of_error badToo).trans (bind_of_ok resumedToo)
        · refine ⟨[], List.nil_suffix, ?_, .inr ⟨rfl, rfl, ?_⟩, formless⟩
          · exact (atForm.turn_of_error bad).trans (bind_of_ok resumed)
          · exact (atFormToo.turn_of_error badToo).trans (bind_of_ok resumedToo)

theorem formsFrom_separator (table : Operators) (tokens : List Token) :
    formsFrom (onTokens table (.char ';' :: tokens)) = formsFrom (onTokens table tokens) := by
  have turned : turn (onTokens table (.char ';' :: tokens)) = .ok true (onTokens table tokens) :=
    (turn_of_separator rfl).trans (bind_of_ok (advance_onTokens table _))
  rw [formsFrom_of_ok turned, form?_of_separator rfl]
  rfl

/-- What is read behind a boundary does not depend on what stands before it. -/
theorem formsFrom_append (boundary : Boundary table token) (more : List Token)
    (noEof : .eof ∉ tokens) : formsFrom (onTokens table (tokens ++ token :: more)) =
      formsFrom (onTokens table tokens) ++ formsFrom (onTokens table (token :: more)) := by
  induction length : tokens.length using Nat.strongRecOn generalizing tokens with
  | _ length ih =>
      subst length
      by_cases atEnd : (onTokens table tokens).current = .eof
      · obtain rfl : tokens = [] := by
          cases tokens with
          | nil => rfl
          | cons first tokens => exact absurd (atEnd ▸ List.mem_cons_self) noEof
        rw [formsFrom_of_eof atEnd]
        rfl
      · obtain ⟨last, suffix, alone, all, form⟩ := turn_append boundary more atEnd
        have shorter : last.length < tokens.length := by
          refine Nat.lt_of_le_of_ne suffix.length_le fun sameLength => ?_
          obtain rfl := suffix.eq_of_length sameLength
          exact Nat.lt_irrefl _ (turn_takes alone).2
        -- The longer run goes on at the same place, or has taken the separator along; then the
        -- shorter one is at its end.
        rcases all with all | ⟨rfl, rfl, all⟩
        · have noEofLater : .eof ∉ last := fun mem => noEof (suffix.subset mem)
          rw [formsFrom_of_ok alone, formsFrom_of_ok all, form, List.append_assoc,
            ih last.length shorter noEofLater rfl]
        · have none : formsFrom (onTokens table []) = [] := formsFrom_of_eof rfl
          rw [formsFrom_of_ok alone, formsFrom_of_ok all, form, none, List.append_nil,
            formsFrom_separator]

theorem turn_onTokens (table : Operators) (tokens : List Token) :
    ∀ p ∈ turnsFrom (onTokens table tokens), ∀ e r, p.turn ≠ .error e r := by
  intro p mem e r failed
  have moves := moves_of_mem_turnsFrom mem
  obtain ⟨q, text, fetched, -, meets⟩ := (turn_of_finished moves.ending_eq).of_error failed
  have suffix := (moves.trans (moves_of_fetch? fetched)).events_suffix
  have isEvent := suffix.subset (List.mem_of_head? meets)
  simp only [onTokens, Feed.ofTokens, List.mem_map] at isEvent
  obtain ⟨_, -, other⟩ := isEvent
  contradiction

end Parser

namespace Session

theorem advance_reading (s : Session) (table : Operators) (tokens : List Token) :
    (s.reading table (.ofTokens tokens)).parser.advance = .ok () (.onTokens table tokens) := by
  cases tokens <;> rfl

theorem forms_reading {s : Session} (works : s.sink.failure = none) (table : Operators)
    (tokens : List Token) :
    (s.reading table (.ofTokens tokens)).forms = (Parser.onTokens table tokens).formsFrom :=
  forms_eq (s := s.reading table (.ofTokens tokens)) works (s.advance_reading table tokens)

theorem run_reading {s : Session} (works : s.sink.failure = none) (table : Operators)
    (tokens : List Token) :
    ∃ t, run (s.reading table (.ofTokens tokens)) = .ok () t ∧ t.sink.failure = none ∧
      t.backend = s.backend.takeAll (s.reading table (.ofTokens tokens)).forms := by
  have outcome := run_ensures (s := s.reading table (.ofTokens tokens)) works
    (s.advance_reading table tokens)
  cases ran : run (s.reading table (.ofTokens tokens)) with
  | ok _ t =>
      obtain ⟨u, rfl, -, follows, -⟩ := outcome.of_ok ran
      refine ⟨_, rfl, follows.works, ?_⟩
      rw [forms_reading works]
      exact follows.backend
  | error e t =>
      obtain ⟨p, mem, e', r, failed, -⟩ := outcome.of_error ran
      exact absurd failed (Parser.turn_onTokens table tokens p mem e' r)

/-- These tokens cut off whatever stands before them, and `second` is what they have to read: they
    start with a `;` that is no operator, or with a word that announces a form. -/
inductive CutsOff (table : Operators) : List Token → List Token → Prop where
  | separator (second : List Token) :
    (∀ precedence, table.precedence? ';' = some precedence → precedence < 0) →
    CutsOff table (.char ';' :: second) second
  | define (more : List Token) : CutsOff table (.define :: more) (.define :: more)
  | declare (more : List Token) : CutsOff table (.declare :: more) (.declare :: more)

/-- What a session reads from two parts is what it reads from each, and its module is what the
    forms of the second part make of the module that the first one leaves. The end of input is no
    token of the first part. -/
theorem forms_reading_append {s : Session} (works : s.sink.failure = none) {table : Operators}
    {first second rest : List Token} (noEof : .eof ∉ first) (cuts : CutsOff table rest second) :
    (s.reading table (.ofTokens (first ++ rest))).forms =
        (s.reading table (.ofTokens first)).forms ++ (s.reading table (.ofTokens second)).forms ∧
      ∃ t u v, run (s.reading table (.ofTokens first)) = .ok () t ∧
        run (t.reading table (.ofTokens second)) = .ok () u ∧
        run (s.reading table (.ofTokens (first ++ rest))) = .ok () v ∧ v.backend = u.backend ∧
        v.backend = t.backend.takeAll (s.reading table (.ofTokens second)).forms := by
  have split : (s.reading table (.ofTokens (first ++ rest))).forms =
      (s.reading table (.ofTokens first)).forms ++ (s.reading table (.ofTokens second)).forms := by
    simp only [forms_reading works]
    cases cuts with
    | separator _ loose =>
        rw [Parser.formsFrom_append (.separator loose) _ noEof, Parser.formsFrom_separator]
    | define more => exact Parser.formsFrom_append .define more noEof
    | declare more => exact Parser.formsFrom_append .declare more noEof
  obtain ⟨t, ranFirst, worksOn, left⟩ := run_reading works table first
  obtain ⟨u, ranSecond, -, made⟩ := run_reading worksOn table second
  obtain ⟨v, ranAll, -, whole⟩ := run_reading works table (first ++ rest)
  have sameForms : (t.reading table (.ofTokens second)).forms =
      (s.reading table (.ofTokens second)).forms := by
    rw [forms_reading works, forms_reading worksOn]
  have final : v.backend = t.backend.takeAll (s.reading table (.ofTokens second)).forms := by
    rw [whole, split, left, Backend.takeAll, Backend.takeAll, Backend.takeAll, List.foldl_append]
  refine ⟨split, t, u, v, ranFirst, ranSecond, ranAll, ?_, final⟩
  rw [final, made, sameForms]

/-- The session stops in the middle of `def f(x` and goes on behind the `;`. -/
theorem forms_reading_append_interrupted :
    ∃ (s : Session) (first second : List Token),
      first = [.char ')', .number .one, .define, .ident "f", .char '(', .ident "x"] ∧
      second = [.declare, .ident "sin", .char '(', .ident "x", .char ')'] ∧
      (s.reading .standard (.ofTokens (first ++ .char ';' :: second))).forms =
        [(Expr.number .one).toForm, .declaration ⟨"sin", ["x"]⟩] ∧
      (s.reading .standard (.ofTokens (first ++ .char ';' :: second))).forms =
        (s.reading .standard (.ofTokens first)).forms ++
          (s.reading .standard (.ofTokens second)).forms := by
  refine ⟨⟨.ofFeed (.ofTokens []), .empty "m", {}, {}⟩, _, _, rfl, rfl, ?_, ?_⟩
  · rw [forms_reading rfl]
    rfl
  · have noOperator : Operators.standard.precedence? ';' = none := by decide
    exact (forms_reading_append rfl (by decide) (.separator _ (by simp [noOperator]))).1

end Session

end Reckon
