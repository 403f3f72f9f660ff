import Reckon.Proofs.Parsing.Moves

/-! # The parser's part in a session

A session asks its parser for a form and, if there is none, for the place to go on from. Which forms
are read and where depends on nothing else that the session owns, so the rounds of a session are
first followed on the parser alone. A round takes something off what is left, or ends the session.
-/

namespace Reckon

theorem ParseError.failed_or (e : ParseError) :
    (∃ reason, e = .read (.failed reason)) ∨ ∀ reason, e ≠ .read (.failed reason) := by
  by_cases failed : ∃ reason, e = .read (.failed reason)
  · exact .inl failed
  · exact .inr fun reason same => failed ⟨reason, same⟩

namespace Parser

/-- What recovering from an error does to the parser. -/
def resume (error : ParseError) : Parse Unit := fun p =>
  match error with
  | .read (.failed _) => .error error p
  | _ =>
    match p.current with
    | .eof | .define | .declare => .ok () p
    | _ => advance p

/-- What a round finds: nothing more, a `;`, a form, or an error in place of one. -/
inductive Finding where
  | nothing
  | separator
  | form (form : Form) (next : Parser)
  | mistake (error : ParseError) (next : Parser)

/-- What a round from here finds. -/
def finding (p : Parser) : Finding :=
  match p.current with
  | .eof => .nothing
  | .char ';' => .separator
  | _ =>
    match form p with
    | .ok f q => .form f q
    | .error e q => .mistake e q

/-- What a round does to the parser; tells whether there was a token. -/
def turn : Parse Bool := fun p =>
  match p.finding with
  | .nothing => .ok false p
  | .separator => (do advance; pure true : Parse Bool) p
  | .form _ q => .ok true q
  | .mistake e q => (do resume e; pure true : Parse Bool) q

/-- The form that a round reads. -/
def form? (p : Parser) : Option Form :=
  match p.finding with
  | .form f _ => some f
  | _ => none

/-- Recovery skips no token here: a form can start, or none is left. -/
def AtStart (p : Parser) : Prop :=
  p.current = .eof ∨ p.current = .define ∨ p.current = .declare

instance (p : Parser) : Decidable p.AtStart := inferInstanceAs (Decidable (_ ∨ _ ∨ _))

/-- Where a round reads a token that is part of no form: behind a `;`, or to skip one. -/
def fetch? (p : Parser) : Option Parser :=
  match p.finding with
  | .separator => some p
  | .mistake _ q => if q.AtStart then none else some q
  | _ => none

def turnsWithin : Nat → Parser → List Parser
  | 0, _ => []
  | count + 1, p => p :: match turn p with
    | .ok true q => turnsWithin count q
    | _ => []

/-- Where all rounds from here on start. -/
def turnsFrom (p : Parser) : List Parser := turnsWithin (p.left + 1) p

/-- The forms that all rounds from here on read. -/
def formsFrom (p : Parser) : List Form := p.turnsFrom.filterMap form?

/-- A form is asked for here: at any token but a `;`. -/
structure AtForm (p : Parser) : Prop where
  isToken : p.current ≠ .eof
  noSeparator : p.current ≠ .char ';'

variable {p q : Parser}

theorem turn_cases (p : Parser) : p.current = .eof ∨ p.current = .char ';' ∨ p.AtForm := by
  by_cases atEnd : p.current = .eof
  · exact .inl atEnd
  · by_cases separator : p.current = .char ';'
    · exact .inr (.inl separator)
    · exact .inr (.inr ⟨atEnd, separator⟩)

theorem finding_of_eof (here : p.current = .eof) : p.finding = .nothing := by
  rw [finding, here]

theorem finding_of_separator (here : p.current = .char ';') : p.finding = .separator := by
  rw [finding, here]
  rfl

theorem AtForm.finding_eq (h : p.AtForm) : p.finding =
    match form p with
    | .ok f q => .form f q
    | .error e q => .mistake e q := by
  unfold finding
  generalize form p = outcome
  split
  · next here => exact absurd here h.isToken
  · next here => exact absurd here h.noSeparator
  · rfl

theorem turn_of_eof (here : p.current = .eof) : turn p = .ok false p := by
  simp only [turn, finding_of_eof here]

theorem turn_of_separator (here : p.current = .char ';') :
    turn p = (do advance; pure true : Parse Bool) p := by
  simp only [turn, finding_of_separator here]

theorem form?_of_eof (here : p.current = .eof) : p.form? = none := by
  simp only [form?, finding_of_eof here]

theorem form?_of_separator (here : p.current = .char ';') : p.form? = none := by
  simp only [form?, finding_of_separator here]

theorem fetch?_of_eof (here : p.current = .eof) : p.fetch? = none := by
  simp only [fetch?, finding_of_eof here]

theorem fetch?_of_separator (here : p.current = .char ';') : p.fetch? = some p := by
  simp only [fetch?, finding_of_separator here]

namespace AtForm

theorem turn_of_ok {f : Form} (h : p.AtForm) (read : form p = .ok f q) : turn p = .ok true q := by
  simp only [turn, h.finding_eq, read]

theorem turn_of_error {e : ParseError} (h : p.AtForm) (bad : form p = .error e q) :
    turn p = (do resume e; pure true : Parse Bool) q := by
  simp only [turn, h.finding_eq, bad]

theorem form?_of_ok {f : Form} (h : p.AtForm) (read : form p = .ok f q) : p.form? = some f := by
  simp only [form?, h.finding_eq, read]

theorem form?_of_error {e : ParseError} (h : p.AtForm) (bad : form p = .error e q) :
    p.form? = none := by
  simp only [form?, h.finding_eq, bad]

theorem fetch?_of_ok {f : Form} (h : p.AtForm) (read : form p = .ok f q) : p.fetch? = none := by
  simp only [fetch?, h.finding_eq, read]

theorem fetch?_of_error {e : ParseError} (h : p.AtForm) (bad : form p = .error e q) :
    p.fetch? = if q.AtStart then none else some q := by
  simp only [fetch?, h.finding_eq, bad]

end AtForm

theorem form?_eq_some {f : Form} (found : p.form? = some f) : p.AtForm ∧ ∃ q, form p = .ok f q := by
  rcases turn_cases p with here | here | atForm
  · cases (form?_of_eof here).symm.trans found
  · cases (form?_of_separator here).symm.trans found
  · cases read : form p with
    | error e q => cases (atForm.form?_of_error read).symm.trans found
    | ok f' q =>
        cases (atForm.form?_of_ok read).symm.trans found
        exact ⟨atForm, q, rfl⟩

section Resume

variable {e : ParseError} (notFailed : ∀ reason, e ≠ .read (.failed reason))
include notFailed

theorem resume_of_start (here : p.AtStart) : resume e p = .ok () p := by
  unfold resume
  split
  · next reason => exact absurd rfl (notFailed reason)
  · rcases here with here | here | here <;> rw [here]

theorem resume_of_other (other : ¬p.AtStart) : resume e p = advance p := by
  unfold resume
  split
  · next reason => exact absurd rfl (notFailed reason)
  · split
    · next here => exact absurd (.inl here) other
    · next here => exact absurd (.inr (.inl here)) other
    · next here => exact absurd (.inr (.inr here)) other
    · rfl

end Resume

/-- What a round comes to for the parser: it is at the end of input, goes on with less ahead of it,
    fails to read a token that is part of no form, or meets the failure of the source in a form. -/
inductive Turn (p : Parser) : Prop where
  | ends : p.current = .eof → turn p = .ok false p → Turn p
  | goesOn (q : Parser) : Moves p q → q.left < p.left →
    (∀ r, p.fetch? = some r → advance r = .ok () q) → turn p = .ok true q → Turn p
  | stuck (e : ParseError) (q r : Parser) : p.fetch? = some r →
    advance r = .error e q → turn p = .error e q → Turn p
  | fails (reason : String) (q : Parser) : p.feed.ending = .failed reason → Moves p q →
    turn p = .error (.read (.failed reason)) q → Turn p

theorem moves_of_fetch? (fetched : p.fetch? = some q) : Moves p q := by
  rcases turn_cases p with here | here | atForm
  · cases (fetch?_of_eof here).symm.trans fetched
  · cases (fetch?_of_separator here).symm.trans fetched
    exact .refl p
  · cases read : form p with
    | ok f r => cases (atForm.fetch?_of_ok read).symm.trans fetched
    | error e r =>
        rw [atForm.fetch?_of_error read] at fetched
        split at fetched
        · contradiction
        · cases fetched
          exact ((form_forward p).of_error read).moves

theorem Turn.of_fetch {r q : Parser} {x : Parse Unit} (isToken : r.current ≠ .eof)
    (fetched : p.fetch? = some r)
    (turned : turn p = (do x; pure true : Parse Bool) q) (reads : x q = advance r) : Turn p := by
  have moves := moves_of_fetch? fetched
  cases run : advance r with
  | ok _ q =>
      have onward : Moves r q := .of_advance run
      refine .goesOn q (moves.trans onward) ?_ ?_ (turned.trans (bind_of_ok (reads.trans run)))
      · exact Nat.lt_of_lt_of_le ((advance_left isToken).of_ok run) moves.left_le
      · intro r' fetched'
        cases fetched.symm.trans fetched'
        exact run
  | error e q =>
      exact .stuck e q r fetched run (turned.trans (bind_of_error (reads.trans run)))

theorem turn_spec (p : Parser) : Turn p := by
  rcases turn_cases p with here | here | atForm
  · exact .ends here (turn_of_eof here)
  · exact .of_fetch (by simp [here]) (fetch?_of_separator here) (turn_of_separator here)
      rfl
  · have isToken := atForm.isToken
    have noFetch : ∀ q, p.fetch? = none → ∀ r, p.fetch? = some r → advance r = .ok () q := by
      intro q none r some
      cases none.symm.trans some
    cases read : form p with
    | ok f q =>
        exact .goesOn q ((form_forward p).of_ok read).moves ((form_takes isToken).of_ok read)
          (noFetch q (atForm.fetch?_of_ok read)) (atForm.turn_of_ok read)
    | error e q =>
        have turned := atForm.turn_of_error read
        have fetched := atForm.fetch?_of_error read
        have stopped := (form_forward p).of_error read
        rcases e.failed_or with ⟨reason, rfl⟩ | notFailed
        · exact .fails reason q stopped.ending_eq stopped.moves turned
        · by_cases atStart : q.AtStart
          · rw [if_pos atStart] at fetched
            rw [bind_of_ok (resume_of_start notFailed atStart)] at turned
            -- Nothing is skipped, so the form itself has to take something. Where it stood still,
            -- it stood at `def` or `extern` and could not read the next token.
            refine .goesOn q stopped.moves ?_ (noFetch q fetched) turned
            rcases (form_takes isToken).of_error read with less | ⟨rfl, announced⟩
            · exact less
            · obtain ⟨reason, failed⟩ := announced (atStart.resolve_left isToken)
              exact absurd failed (notFailed reason)
          · rw [if_neg atStart] at fetched
            exact .of_fetch (fun atEnd => atStart (.inl atEnd)) fetched turned
              (resume_of_other notFailed atStart)

/-- Only the end of input ends the rounds. -/
theorem current_of_turn (run : turn p = .ok false q) : p.current = .eof := by
  cases turn_spec p with
  | ends here => exact here
  | goesOn r _ _ _ turned => cases run.symm.trans turned
  | stuck e r _ _ _ turned => cases run.symm.trans turned
  | fails reason r _ _ turned => cases run.symm.trans turned

theorem turn_takes (run : turn p = .ok true q) : Moves p q ∧ q.left < p.left := by
  cases turn_spec p with
  | ends _ turned => cases run.symm.trans turned
  | goesOn r moves less _ turned =>
      cases run.symm.trans turned
      exact ⟨moves, less⟩
  | stuck e r _ _ _ turned => cases run.symm.trans turned
  | fails reason r _ _ turned => cases run.symm.trans turned

theorem moves_of_turn_error {e : ParseError} (run : turn p = .error e q) : Moves p q := by
  cases turn_spec p with
  | ends _ turned => cases run.symm.trans turned
  | goesOn r _ _ _ turned => cases run.symm.trans turned
  | stuck e' q' r fetched failed turned =>
      cases run.symm.trans turned
      exact (moves_of_fetch? fetched).trans (.read (leaves_of_error failed ▸ .refl q))
  | fails reason q' _ moves turned =>
      cases run.symm.trans turned
      exact moves

theorem turnsWithin_eq {count : Nat} (enough : p.left < count) :
    turnsWithin count p = turnsFrom p := by
  have settled : ∀ first second p, p.left < first → p.left < second →
      turnsWithin first p = turnsWithin second p := by
    intro first
    induction first with
    | zero => exact fun _ _ less => absurd less (Nat.not_lt_zero _)
    | succ first ih =>
        intro second p less less'
        cases second with
        | zero => exact absurd less' (Nat.not_lt_zero _)
        | succ second =>
            simp only [turnsWithin]
            cases run : turn p with
            | error e q => rfl
            | ok more q =>
                cases more with
                | false => rfl
                | true =>
                    have taken := (turn_takes run).2
                    exact congrArg (p :: ·) (ih second q (by omega) (by omega))
  exact settled count (p.left + 1) p enough (Nat.lt_succ_self _)

theorem turnsFrom_of_ok (run : turn p = .ok true q) : turnsFrom p = p :: turnsFrom q := by
  simp only [turnsFrom, turnsWithin, run]
  exact congrArg (p :: ·) (turnsWithin_eq (turn_takes run).2)

theorem turnsFrom_of_error {e : ParseError} (run : turn p = .error e q) : turnsFrom p = [p] := by
  simp only [turnsFrom, turnsWithin, run]

theorem turnsFrom_of_eof (here : p.current = .eof) : turnsFrom p = [p] := by
  rw [turnsFrom, turnsWithin, turn_of_eof here]

theorem formsFrom_of_ok (run : turn p = .ok true q) :
    formsFrom p = p.form?.toList ++ formsFrom q := by
  rw [formsFrom, turnsFrom_of_ok run, List.filterMap_cons]
  cases p.form? <;> rfl

theorem formsFrom_of_eof (here : p.current = .eof) : formsFrom p = [] := by
  simp only [formsFrom, turnsFrom_of_eof here, List.filterMap_cons, form?_of_eof here,
    List.filterMap_nil]

/-- Induction over rounds, from the last one back. -/
theorem turns_induction {motive : Parser → Prop}
    (last : ∀ p, turnsFrom p = [p] → (∀ q, turn p ≠ .ok true q) → motive p)
    (next : ∀ p q, turnsFrom p = p :: turnsFrom q → turn p = .ok true q → motive q → motive p)
    (p : Parser) : motive p := by
  induction left : p.left using Nat.strongRecOn generalizing p with
  | _ left ih =>
      subst left
      by_cases goesOn : ∃ q, turn p = .ok true q
      · obtain ⟨q, run⟩ := goesOn
        exact next p q (turnsFrom_of_ok run) run (ih q.left (turn_takes run).2 q rfl)
      · have ends : ∀ q, turn p ≠ .ok true q := fun q run => goesOn ⟨q, run⟩
        refine last p ?_ ends
        rw [turnsFrom, turnsWithin]
        split
        · next q run => exact absurd run (ends q)
        · rfl

theorem moves_of_mem_turnsFrom {q : Parser} (mem : q ∈ turnsFrom p) : Moves p q := by
  induction p using turns_induction with
  | last p only _ =>
      rw [only, List.mem_singleton] at mem
      exact mem ▸ .refl q
  | next p p' first run ih =>
      rcases List.mem_cons.mp (first ▸ mem) with rfl | later
      · exact .refl q
      · exact (turn_takes run).1.trans (ih later)

theorem eq_of_turn_error {q r q' r' : Parser} {e e' : ParseError} (mem : q ∈ turnsFrom p)
    (mem' : r ∈ turnsFrom p) (failed : turn q = .error e q') (failed' : turn r = .error e' r') :
    q = r := by
  induction p using turns_induction with
  | last p only _ =>
      rw [only, List.mem_singleton] at mem mem'
      exact mem.trans mem'.symm
  | next p p' first run ih =>
      rcases List.mem_cons.mp (first ▸ mem) with rfl | later
      · cases run.symm.trans failed
      · rcases List.mem_cons.mp (first ▸ mem') with rfl | later'
        · cases run.symm.trans failed'
        · exact ih later later'

/-- The next event is a number without a value. -/
def MeetsInvalid (p : Parser) (text : String) : Prop :=
  p.feed.events.head? = some (.invalidNumber text)

theorem advance_of_finished (finished : p.feed.ending = .finished) :
    Ensures advance p (fun _ _ => ∀ text, ¬p.MeetsInvalid text)
      fun e _ => ∃ text, e = .read (.invalidNumber text) ∧ p.MeetsInvalid text := by
  rcases p.advance_cases with ⟨t, events, here, run⟩ | ⟨text, events, here, run⟩ |
    ⟨here, -, run⟩ | ⟨reason, -, failed, -⟩
  · simp [Ensures, run, MeetsInvalid, here]
  · simp [Ensures, run, MeetsInvalid, here]
  · simp [Ensures, run, MeetsInvalid, here]
  · cases finished.symm.trans failed

/-- Where the source does not fail, a round fails just if the token that it reads outside of a form
    is a number without a value. -/
theorem turn_of_finished (finished : p.feed.ending = .finished) :
    Ensures turn p (fun _ _ => ∀ r, p.fetch? = some r → ∀ text, ¬r.MeetsInvalid text)
      fun e _ => ∃ r text, p.fetch? = some r ∧ e = .read (.invalidNumber text) ∧
        r.MeetsInvalid text := by
  have honest : ∀ r, p.fetch? = some r → r.feed.ending = .finished :=
    fun r fetched => (moves_of_fetch? fetched).ending_eq.trans finished
  cases turn_spec p with
  | ends here turned =>
      simp [Ensures, turned, fetch?_of_eof here]
  | goesOn q _ _ reads turned =>
      simp only [Ensures, turned]
      exact fun r fetched => (advance_of_finished (honest r fetched)).of_ok (reads r fetched)
  | stuck e q r fetched run turned =>
      simp only [Ensures, turned]
      obtain ⟨text, isRead, meets⟩ := (advance_of_finished (honest r fetched)).of_error run
      exact ⟨r, text, fetched, isRead, meets⟩
  | fails reason q failed _ _ => cases finished.symm.trans failed

/-- A number without a value is met in the form that a round reads. -/
def Misreads (p : Parser) (text : String) : Prop :=
  p.AtForm ∧ ∃ q, form p = .error (.read (.invalidNumber text)) q

theorem resume_reads {e : ParseError} (run : resume e p = .ok () q) : Reads p q := by
  rcases e.failed_or with ⟨reason, rfl⟩ | notFailed
  · cases run
  · by_cases atStart : p.AtStart
    · cases run.symm.trans (resume_of_start notFailed atStart)
      exact .refl p
    · exact .read ((resume_of_other notFailed atStart).symm.trans run) (.refl q)

/-- A round that goes on leaves a number without a value ahead, or met it in its form. -/
theorem turn_invalid_mem (run : turn p = .ok true q) {text : String}
    (mem : .invalidNumber text ∈ p.feed.events) :
    .invalidNumber text ∈ q.feed.events ∨ p.Misreads text := by
  rcases turn_cases p with here | here | atForm
  · cases run.symm.trans (turn_of_eof here)
  · cases moved : advance p with
    | ok _ r =>
        cases run.symm.trans ((turn_of_separator here).trans (bind_of_ok moved))
        exact .inl ((Reads.read moved (.refl q)).invalid_mem mem)
    | error e r => cases run.symm.trans ((turn_of_separator here).trans (bind_of_error moved))
  · cases read : form p with
    | ok f r =>
        cases run.symm.trans (atForm.turn_of_ok read)
        exact .inl (((form_forward p).of_ok read).invalid_mem mem)
    | error e r =>
        rcases ((form_forward p).of_error read).invalid_mem mem with ahead | rfl
        · cases resumed : resume e r with
          | ok _ r' =>
              cases run.symm.trans ((atForm.turn_of_error read).trans (bind_of_ok resumed))
              exact .inl ((resume_reads resumed).invalid_mem ahead)
          | error e' r' =>
              cases run.symm.trans ((atForm.turn_of_error read).trans (bind_of_error resumed))
        · exact .inr ⟨atForm, r, read⟩

theorem turns_invalid_mem {text : String} (mem : .invalidNumber text ∈ p.feed.events)
    (later : q ∈ turnsFrom p) :
    .invalidNumber text ∈ q.feed.events ∨ ∃ r ∈ turnsFrom p, r.Misreads text := by
  induction p using turns_induction with
  | last p only _ =>
      rw [only, List.mem_singleton] at later
      exact .inl (later ▸ mem)
  | next p p' first run ih =>
      rw [first] at later ⊢
      rcases List.mem_cons.mp later with rfl | later
      · exact .inl mem
      · rcases turn_invalid_mem run mem with ahead | misread
        · rcases ih ahead later with ahead | ⟨r, mem', misread⟩
          · exact .inl ahead
          · exact .inr ⟨r, List.mem_cons_of_mem _ mem', misread⟩
        · exact .inr ⟨p, List.mem_cons_self, misread⟩

end Parser

end Reckon
