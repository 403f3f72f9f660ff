import Reckon.Lexer
import Reckon.Proofs.Parsing.Unbounded
import Reckon.Proofs.Sessions.Outputs

/-! # Every session ends

A round after which the session goes on has taken something off what the lexer has still to
deliver. So the bound on the rounds is never what ends them: a session does what its loop does
without one, in at most one round more than the source has events. The bounds inside the parser are
not met either.
-/

namespace Reckon

namespace Parser

end Parser

namespace Session

variable {s t : Session}

theorem left_of_round (run : round s = .ok true t) : t.parser.left < s.parser.left :=
  (Parser.turn_takes (follows_of_round run).1).2

/-- Induction over the rounds of a session, from the last one back. -/
theorem rounds_induction {motive : Session → Prop}
    (last : ∀ s, (∀ t, round s ≠ .ok true t) → motive s)
    (next : ∀ s t, round s = .ok true t → motive t → motive s) (s : Session) : motive s := by
  induction left : s.parser.left using Nat.strongRecOn generalizing s with
  | _ left ih =>
      subst left
      by_cases goesOn : ∃ t, round s = .ok true t
      · obtain ⟨t, run⟩ := goesOn
        exact next s t run (ih t.parser.left (left_of_round run) t rfl)
      · exact last s fun t run => goesOn ⟨t, run⟩

theorem begin_of_prompt (prompted : prompt s = .ok () t) : begin s = advance t :=
  bind_of_ok prompted

/-- The states in which all rounds from here on start. -/
def startsFrom (s : Session) : List Session := startsWithin (s.parser.left + 1) s

theorem starts_of_begin (begun : begin s = .ok () t) : s.starts = t.startsFrom := by
  simp only [starts, begun, startsFrom]

theorem starts_of_begin_error {e : SessionError} (begun : begin s = .error e t) :
    s.starts = [] := by
  simp only [starts, begun]

theorem startsFrom_eq_cons (s : Session) : ∃ later, s.startsFrom = s :: later := by
  rw [startsFrom, startsWithin]
  exact ⟨_, rfl⟩

theorem startsWithin_of_last (ends : ∀ t, round s ≠ .ok true t) (count : Nat) :
    startsWithin (count + 1) s = [s] := by
  rw [startsWithin]
  split
  · next t run => exact absurd run (ends t)
  · rfl

theorem startsWithin_eq {count : Nat} (enough : s.parser.left < count) :
    startsWithin count s = s.startsFrom := by
  have settled : ∀ first second, s.parser.left < first → s.parser.left < second →
      startsWithin first s = startsWithin second s := by
    induction s using rounds_induction with
    | last s ends =>
        rintro (_ | first) (_ | second) less less'
        any_goals omega
        rw [startsWithin_of_last ends, startsWithin_of_last ends]
    | next s t run ih =>
        have taken := left_of_round run
        rintro (_ | first) (_ | second) less less'
        any_goals omega
        simp only [startsWithin, run]
        exact congrArg (s :: ·) (ih (by omega) first second (by omega) (by omega))
  exact settled count _ enough (Nat.lt_succ_self _)

theorem rounds_eq {count : Nat} (enough : s.parser.left < count) :
    rounds count s = allRounds s := by
  have settled : ∀ first second, s.parser.left < first → s.parser.left < second →
      rounds first s = rounds second s := by
    induction s using rounds_induction with
    | last s ends =>
        rintro (_ | first) (_ | second) less less'
        any_goals omega
        simp only [rounds]
        cases run : round s with
        | error e t => rw [bind_of_error run, bind_of_error run]
        | ok more t =>
            cases more with
            | false => rw [bind_of_ok run, bind_of_ok run]; rfl
            | true => exact absurd run (ends t)
    | next s t run ih =>
        have taken := left_of_round run
        rintro (_ | first) (_ | second) less less'
        any_goals omega
        simp only [rounds, bind_of_ok run]
        exact ih (by omega) first second (by omega) (by omega)
  exact settled count _ enough (Nat.lt_succ_self _)

theorem startsFrom_of_ok (run : round s = .ok true t) : s.startsFrom = s :: t.startsFrom := by
  rw [startsFrom, startsWithin, run]
  exact congrArg (s :: ·) (startsWithin_eq (left_of_round run))

theorem startsFrom_of_last (ends : ∀ t, round s ≠ .ok true t) : s.startsFrom = [s] :=
  startsWithin_of_last ends _

theorem allRounds_of_ok (run : round s = .ok true t) : allRounds s = allRounds t := by
  rw [allRounds, rounds, bind_of_ok run]
  exact rounds_eq (left_of_round run)

theorem allRounds_of_end (run : round s = .ok false t) : allRounds s = .ok () t := by
  rw [allRounds, rounds, bind_of_ok run]
  rfl

theorem allRounds_of_error {e : SessionError} (run : round s = .error e t) :
    allRounds s = .error e t := by
  rw [allRounds, rounds, bind_of_error run]

theorem parser_leaves_write (text : String) (s : Session) :
    (leaves (write text) s).parser = s.parser := by
  unfold leaves write
  rcases s.sink.write text with ⟨_ | reason, sink⟩ <;> rfl

theorem parser_leaves_run {t : Session} (begun : begin s = .ok () t) :
    (leaves run s).parser = (leaves allRounds t).parser := by
  have same : run s = (do allRounds; write (← get).backend.target.text : Act Unit) t := by
    rw [run_eq, bind_of_ok begun]
  cases ran : allRounds t with
  | error e u =>
      rw [leaves_of_error (same.trans (bind_of_error ran)), leaves_of_error ran]
  | ok _ u =>
      have dumps : run s = write u.backend.target.text u := same.trans (bind_of_ok ran)
      have left : leaves run s = leaves (write u.backend.target.text) u := by
        simp only [leaves, dumps]
      rw [left, leaves_of_ok ran, parser_leaves_write]

theorem run_of_allRounds (begun : begin s = .ok () t) {w : Session} (works : t.sink.failure = none)
    (ran : allRounds t = .ok () w) : run s = .ok () (w.wrote w.backend.target.text) := by
  obtain ⟨-, follows, -⟩ := (rounds_ensures works (Nat.lt_succ_self _)).of_ok ran
  rw [run_eq, bind_of_ok begun, bind_of_ok ran]
  exact write_eq follows.works _

theorem run_of_allRounds_error (begun : begin s = .ok () t) {w : Session} {e : SessionError}
    (ran : allRounds t = .error e w) : run s = .error e w := by
  rw [run_eq, bind_of_ok begun]
  exact bind_of_error ran

/-- The loop of a session comes to this outcome in so many rounds, and nothing but a round ends
    it. -/
inductive Loops : Nat → Session → EStateM.Result SessionError Session Unit → Prop
  | ends {s t : Session} : round s = .ok false t → Loops 1 s (.ok () t)
  | fails {s t : Session} {e : SessionError} : round s = .error e t → Loops 1 s (.error e t)
  | goesOn {s t : Session} {count : Nat} {outcome : EStateM.Result SessionError Session Unit} :
    round s = .ok true t → Loops count t outcome → Loops (count + 1) s outcome

/-- All rounds are what the loop comes to. -/
theorem loops (s : Session) : ∃ count ≤ s.parser.left + 1, Loops count s (allRounds s) := by
  induction s using rounds_induction with
  | last s ends =>
      refine ⟨1, Nat.le_add_left _ _, ?_⟩
      cases run : round s with
      | error e t =>
          rw [allRounds_of_error run]
          exact .fails run
      | ok more t =>
          cases more with
          | false =>
              rw [allRounds_of_end run]
              exact .ends run
          | true => exact absurd run (ends t)
  | next s t run ih =>
      obtain ⟨count, le, loop⟩ := ih
      rw [allRounds_of_ok run]
      exact ⟨count + 1, Nat.succ_le_succ (Nat.le_trans le (left_of_round run)), .goesOn run loop⟩

end Session

end Reckon
