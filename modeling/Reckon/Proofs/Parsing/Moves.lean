import Reckon.Proofs.Parsing.Unbounded

/-! # The parser only moves forward

Whatever a function of the parser does, it does by reading: it leaves a parser that reads alone can
lead to. So the events ahead only lose their first ones, the table of operators stays, and a form
that was entered at a token takes one, or stops right there.
-/

namespace Reckon.Parser

/-- Reads lead from one parser to the other. -/
inductive Moves : Parser → Parser → Prop where
  | refl (p : Parser) : Moves p p
  | read {p p' : Parser} : Moves (leaves advance p) p' → Moves p p'

theorem Moves.of_advance {p q : Parser} (run : advance p = .ok () q) : Moves p q :=
  .read (leaves_of_ok run ▸ .refl q)

/-- A parser that has read a token, if there was one, and is fed by a lexer. -/
structure Started (p : Parser) : Prop where
  /-- The end of input is no event. -/
  noEof : .token .eof ∉ p.feed.events
  atEof : p.current = .eof → p.feed.events = []

namespace Moves

variable {p q r : Parser}

theorem trans (first : Moves p q) (second : Moves q r) : Moves p r := by
  induction first with
  | refl => exact second
  | read _ ih => exact .read (ih second)

/-- What a read keeps, reads keep. -/
theorem keeps {P : Parser → Prop} (kept : ∀ p, P p → P (leaves advance p)) (h : Moves p q)
    (start : P p) : P q := by
  induction h with
  | refl => exact start
  | read _ ih => exact ih (kept _ start)

theorem operators_eq (h : Moves p q) : q.operators = p.operators := by
  refine h.keeps (P := fun q => q.operators = p.operators) ?_ rfl
  intro q same
  rcases q.advance_cases with ⟨t, events, -, run⟩ | ⟨text, events, -, run⟩ | ⟨-, -, run⟩ |
    ⟨reason, -, -, run⟩ <;> simpa only [leaves, run] using same

theorem ending_eq (h : Moves p q) : q.feed.ending = p.feed.ending := by
  refine h.keeps (P := fun q => q.feed.ending = p.feed.ending) ?_ rfl
  intro q same
  rcases q.advance_cases with ⟨t, events, -, run⟩ | ⟨text, events, -, run⟩ | ⟨-, -, run⟩ |
    ⟨reason, -, -, run⟩ <;> simpa only [leaves, run] using same

theorem events_suffix (h : Moves p q) : q.feed.events <:+ p.feed.events := by
  refine h.keeps (P := fun q => q.feed.events <:+ p.feed.events) ?_ (List.suffix_refl _)
  intro q suffix
  rcases q.advance_cases with ⟨t, events, here, run⟩ | ⟨text, events, here, run⟩ |
    ⟨-, -, run⟩ | ⟨reason, -, -, run⟩
  · simp only [leaves, run]
    exact (List.suffix_cons _ events).trans (here ▸ suffix)
  · simp only [leaves, run]
    exact (List.suffix_cons _ events).trans (here ▸ suffix)
  · simpa only [leaves, run] using suffix
  · simpa only [leaves, run] using suffix

theorem started (h : Moves p q) (start : p.Started) : q.Started := by
  refine h.keeps ?_ start
  intro q start
  rcases q.advance_cases with ⟨t, events, here, run⟩ | ⟨text, events, here, run⟩ |
    ⟨none, -, run⟩ | ⟨reason, -, -, run⟩
  · have noEof := here ▸ start.noEof
    simp only [leaves, run]
    refine ⟨fun later => noEof (List.mem_cons_of_mem _ later), fun isEof => absurd ?_ noEof⟩
    simp only at isEof
    rw [isEof]
    exact List.mem_cons_self
  · have noEof := here ▸ start.noEof
    simp only [leaves, run]
    refine ⟨fun later => noEof (List.mem_cons_of_mem _ later), fun isEof => ?_⟩
    rw [start.atEof isEof] at here
    contradiction
  · simp only [leaves, run]
    exact ⟨start.noEof, fun _ => none⟩
  · simpa only [leaves, run] using start

theorem left_le (h : Moves p q) : q.left ≤ p.left := by
  refine h.keeps (P := fun q => q.left ≤ p.left) ?_ (Nat.le_refl _)
  intro q le
  refine Nat.le_trans ?_ le
  rcases q.advance_cases with ⟨t, events, here, run⟩ | ⟨text, events, here, run⟩ |
    ⟨here, -, run⟩ | ⟨reason, -, -, run⟩
  · simp only [leaves, run, left, here, List.length_cons]
    have : (if t = .eof then 0 else 1) ≤ 1 := by split <;> omega
    omega
  · simp only [leaves, run, left, here, List.length_cons]
    omega
  · simp [leaves, run, left, here]
  · exact Nat.le_of_eq (congrArg left (leaves_of_error run))

end Moves

theorem started_of_advance {p q : Parser} (noEof : .token .eof ∉ p.feed.events)
    (run : advance p = .ok () q) : q.Started := by
  rcases p.advance_cases with ⟨t, events, here, run'⟩ | ⟨text, events, -, run'⟩ |
    ⟨none, -, run'⟩ | ⟨reason, -, -, run'⟩
  · cases run.symm.trans run'
    rw [here] at noEof
    refine ⟨fun later => noEof (List.mem_cons_of_mem _ later), ?_⟩
    rintro rfl
    exact absurd List.mem_cons_self noEof
  · cases run.symm.trans run'
  · cases run.symm.trans run'
    exact ⟨noEof, fun _ => none⟩
  · cases run.symm.trans run'

/-- A read from a token leaves less, but for one that fails. -/
theorem advance_left {p : Parser} (isToken : p.current ≠ .eof) :
    Ensures advance p (fun _ q => q.left < p.left)
      fun e q => q.left < p.left ∨ q = p ∧ ∃ reason, e = .read (.failed reason) := by
  rcases p.advance_cases with ⟨t, events, here, run⟩ | ⟨text, events, here, run⟩ |
    ⟨here, -, run⟩ | ⟨reason, -, -, run⟩
  · simp only [Ensures, run, left, here, List.length_cons, if_neg isToken]
    split <;> omega
  · simp only [Ensures, run, left, here, List.length_cons, if_neg isToken]
    omega
  · simp only [Ensures, run, left, here, if_neg isToken]
    simp
  · simp only [Ensures, run]
    exact .inr ⟨trivial, reason, rfl⟩

theorem Moves.eq_or_left_lt {p q : Parser} (h : Moves p q) (isToken : p.current ≠ .eof) :
    q = p ∨ q.left < p.left := by
  cases h with
  | refl => exact .inl rfl
  | read rest =>
      cases run : advance p with
      | ok _ p' =>
          rw [leaves_of_ok run] at rest
          exact .inr (Nat.lt_of_le_of_lt rest.left_le ((advance_left isToken).of_ok run))
      | error e p' =>
          rw [leaves_of_error run] at rest
          rcases (advance_left isToken).of_error run with less | ⟨rfl, reason, rfl⟩
          · exact .inr (Nat.lt_of_le_of_lt rest.left_le less)
          · -- A failed read changes nothing, so every read after it fails as well.
            have stuck : ∀ q, Moves p' q → q = p' := by
              intro q moves
              refine moves.keeps (P := fun q => q = p') ?_ rfl
              rintro q rfl
              exact leaves_of_error run
            exact .inl (stuck q rest)

/-- Reads that find a token, or the end of input, lead from one parser to the other. -/
inductive Reads : Parser → Parser → Prop where
  | refl (p : Parser) : Reads p p
  | read {p q r : Parser} : advance p = .ok () q → Reads q r → Reads p r

/-- The error is that of a read which failed, or says that the token at hand is none to go on
    with. -/
def Stopped (p : Parser) (e : ParseError) (q : Parser) : Prop :=
  ∃ r, Reads p r ∧ (advance r = .error e q ∨ r = q ∧ ∀ reason, e ≠ .read reason)

section Reads

variable {p q r : Parser} {e : ParseError}

theorem Reads.trans (first : Reads p q) (second : Reads q r) : Reads p r := by
  induction first with
  | refl => exact second
  | read run _ ih => exact .read run (ih second)

theorem Reads.moves (h : Reads p q) : Moves p q := by
  induction h with
  | refl => exact .refl _
  | read run _ ih => exact .read (leaves_of_ok run ▸ ih)

theorem Stopped.moves (h : Stopped p e q) : Moves p q := by
  obtain ⟨r, reads, run | ⟨rfl, -⟩⟩ := h
  · exact reads.moves.trans (.read (leaves_of_error run ▸ .refl q))
  · exact reads.moves

/-- The source is blamed only if it fails. -/
theorem Stopped.ending_eq {reason : String} (h : Stopped p (.read (.failed reason)) q) :
    p.feed.ending = .failed reason := by
  obtain ⟨r, reads, run | ⟨-, notRead⟩⟩ := h
  · rcases r.advance_cases with ⟨t, events, -, run'⟩ | ⟨text, events, -, run'⟩ | ⟨-, -, run'⟩ |
      ⟨reason', -, ending, run'⟩
    all_goals cases run.symm.trans run'
    exact reads.moves.ending_eq.symm.trans ending
  · exact absurd rfl (notRead _)

/-- A number without a value stays ahead of reads that find a token. -/
theorem Reads.invalid_mem (h : Reads p q) {text : String}
    (mem : .invalidNumber text ∈ p.feed.events) : .invalidNumber text ∈ q.feed.events := by
  induction h with
  | refl => exact mem
  | @read p q _ run _ ih =>
      apply ih
      rcases p.advance_cases with ⟨t, events, here, run'⟩ | ⟨text', events, -, run'⟩ |
        ⟨here, -, run'⟩ | ⟨reason, -, -, run'⟩
      · cases run.symm.trans run'
        simpa [here] using mem
      · cases run.symm.trans run'
      · cases run.symm.trans run'
        exact mem
      · cases run.symm.trans run'

/-- A number without a value stays ahead of an error, or is the error. -/
theorem Stopped.invalid_mem (h : Stopped p e q) {text : String}
    (mem : .invalidNumber text ∈ p.feed.events) :
    .invalidNumber text ∈ q.feed.events ∨ e = .read (.invalidNumber text) := by
  obtain ⟨r, reads, run | ⟨rfl, -⟩⟩ := h
  · have ahead := reads.invalid_mem mem
    rcases r.advance_cases with ⟨t, events, -, run'⟩ | ⟨text', events, here, run'⟩ |
      ⟨-, -, run'⟩ | ⟨reason, -, -, run'⟩
    · cases run.symm.trans run'
    · cases run.symm.trans run'
      rw [here] at ahead
      rcases List.mem_cons.mp ahead with same | later
      · cases same
        exact .inr rfl
      · exact .inl later
    · cases run.symm.trans run'
    · cases run.symm.trans run'
      exact .inl ahead
  · exact .inl (reads.invalid_mem mem)

end Reads

/-- Reads from such tokens lead from one parser to the other. -/
def ReadsFrom (may : Token → Prop) : Parser → Parser → Prop :=
  Relation.ReflTransGen fun p q => may p.current ∧ advance p = .ok () q

/-- The error is that of a read from such a token which failed, or says that the token at hand is
    none to go on with. -/
def StoppedFrom (may : Token → Prop) (p : Parser) (e : ParseError) (q : Parser) : Prop :=
  ∃ r, ReadsFrom may p r ∧
    (may r.current ∧ advance r = .error e q ∨ r = q ∧ ∀ reason, e ≠ .read reason)

/-- The step reads from such tokens only, and changes nothing else. -/
def reading (may : Token → Prop) (inner : ∀ t, t.isInner = true → may t) : Judgement where
  Place := Parser
  token := current
  ahead p := p.feed.events.length
  Reads p q := may p.current ∧ advance p = .ok () q
  MayRead p := may p.current
  loops := .same fun p => p
  Holds p x _ ok := Ensures x p (fun a q => ReadsFrom may p q ∧ ok a q) (StoppedFrom may p)
  ahead_of_reads reads := left_of_advance reads.2
  mayRead_of_isInner := inner _
  pure holds := ⟨.refl, holds⟩
  fail notRead := ⟨_, .refl, .inr ⟨rfl, notRead _⟩⟩
  bind first rest := by
    refine Ensures.bind first fun a q ⟨onto, holds⟩ => (rest a q holds).mono ?_ ?_
    · exact fun _ _ ⟨more, good⟩ => ⟨onto.trans more, good⟩
    · exact fun _ _ ⟨last, more, stopped⟩ => ⟨last, onto.trans more, stopped⟩
  peek _ h := h
  atOperator same quiet goesOn := by
    subst same
    refine ensures_atOperator (fun _ => quiet) fun op _ seen admitted => ?_
    exact goesOn op _ _ ⟨seen, rfl⟩ admitted admitted
  advance mayRead := .intro (fun _ _ run => ⟨.single ⟨mayRead, run⟩, mayRead, run⟩)
    fun _ _ run => ⟨_, .refl, .inl ⟨mayRead, run⟩⟩

/-- The step reads, and changes nothing else. -/
def Forward (x : Parse α) : Prop := ∀ p, Ensures x p (fun _ => Reads p) (Stopped p)

theorem ReadsFrom.reads {may : Token → Prop} {p q : Parser} (h : ReadsFrom may p q) :
    Reads p q := by
  induction h using Relation.ReflTransGen.head_induction_on with
  | refl => exact .refl q
  | head first _ ih => exact .read first.2 ih

theorem forward_of_reading {may : Token → Prop} {inner : ∀ t, t.isInner = true → may t}
    {x y : Parse α} {p : Parser} {ok : α → Parser → Prop}
    (h : (reading may inner).Holds p x y ok) : Ensures x p (fun _ => Reads p) (Stopped p) :=
  h.mono (fun _ _ read => read.1.reads) fun _ _ ⟨r, onto, stopped⟩ =>
    ⟨r, onto.reads, stopped.imp_left And.right⟩

/-- Reading from any token. -/
abbrev readingOn : Judgement := reading (fun _ => True) fun _ _ => trivial

theorem expression_forward : Forward expression := fun p =>
  forward_of_reading ((readingOn.whole _).expression p (Nat.le_refl _))

theorem prototype_forward : Forward prototype := fun p =>
  forward_of_reading ((readingOn.whole _).prototype p (Nat.le_refl _))

theorem declaration_forward : Forward declaration := fun p =>
  forward_of_reading ((readingOn.whole _).declaration p (Nat.le_refl _) trivial)

theorem signed_forward : Forward Calls.whole.signed := fun p =>
  forward_of_reading ((readingOn.whole _).signed p (Nat.le_refl _))

theorem definition_forward : Forward definition := fun p =>
  forward_of_reading ((readingOn.whole _).definition p (Nat.le_refl _) trivial)

theorem form_forward : Forward form := fun p =>
  forward_of_reading ((readingOn.whole _).form p (Nat.le_refl _) trivial)

/-- Where the step stands still, it failed: at a read, if it reads before anything else. -/
def Takes (readsFirst : Prop) (x : Parse α) (p : Parser) : Prop :=
  Ensures x p (fun _ q => q.left < p.left)
    fun e q => q.left < p.left ∨ q = p ∧ (readsFirst → ∃ reason, e = .read (.failed reason))

theorem takes_advance_bind {p : Parser} {readsFirst : Prop} {f : Unit → Parse α}
    (isToken : p.current ≠ .eof) (rest : Forward (f ())) :
    Takes readsFirst (advance >>= f) p := by
  have first : Takes readsFirst advance p := (advance_left isToken).mono (fun _ _ less => less)
    fun _ _ bad => bad.imp_right fun ⟨same, failed⟩ => ⟨same, fun _ => failed⟩
  refine first.bind fun _ q less => (rest q).mono ?_ ?_
  · exact fun _ r reads => Nat.lt_of_le_of_lt reads.moves.left_le less
  · exact fun _ r stopped => .inl (Nat.lt_of_le_of_lt stopped.moves.left_le less)

/-- A form takes a token, or fails at its first one. At a word that announces a form, only a read
    can fail so. -/
theorem form_takes {p : Parser} (isToken : p.current ≠ .eof) :
    Takes (p.current = .define ∨ p.current = .declare) form p := by
  by_cases announced : p.current = .define ∨ p.current = .declare
  · apply ensures_peek
    split
    · exact .map (takes_advance_bind isToken signed_forward)
    · exact .map (takes_advance_bind isToken prototype_forward)
    · next noDef noExtern => exact (announced.elim noDef noExtern).elim
  · refine .intro (fun _ _ read => (form_left p).of_ok read) fun e q bad => ?_
    rcases ((form_forward p).of_error bad).moves.eq_or_left_lt isToken with same | less
    · exact .inr ⟨same, fun isAnnounced => absurd isAnnounced announced⟩
    · exact .inl less

end Reckon.Parser
