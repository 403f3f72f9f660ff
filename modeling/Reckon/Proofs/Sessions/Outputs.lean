import Mathlib.Logic.Relation
import Reckon.Proofs.Sessions.Traversal

/-! # Outputs that fail

An output that fails can only end a session early. As long as it has not failed, every step does
what it would do with an output that works; so a round that ends well has taken the form that the
parser's part in it says, whatever the output is, and the same holds from each round to all later
ones of a run.
-/

namespace Reckon.Session

/-- A text that could be written was written whole. -/
theorem eq_wrote_of_write {s t : Session} {text : String} (written : write text s = .ok () t) :
    t = s.wrote text := by
  simp only [write, Sink.write] at written
  cases limit : s.sink.failure with
  | none =>
      simp only [limit] at written
      cases written
      simp [wrote, limit]
  | some cutoff =>
      simp only [limit] at written
      split at written
      · next heq =>
        split at heq
        · cases heq
          cases written
          simp [wrote, limit]
        · cases heq
      · cases written

def unlimited (s : Session) : Session := { s with sink := { s.sink with failure := none } }

/-- Where the step ends well, it does the same with an output that works. -/
def IgnoresLimit (x : Act α) : Prop := ∀ s a t, x s = .ok a t → x s.unlimited = .ok a t.unlimited

namespace IgnoresLimit

theorem pure (a : α) : IgnoresLimit (Pure.pure a) := by
  intro s b t run
  cases run
  rfl

theorem throw (e : SessionError) : IgnoresLimit (throw e : Act α) := by
  intro s a t run
  cases run

theorem bind {x : Act α} {f : α → Act β} (first : IgnoresLimit x)
    (rest : ∀ a, IgnoresLimit (f a)) : IgnoresLimit (x >>= f) := by
  intro s b u run
  cases ran : x s with
  | error e t => cases (bind_of_error ran).symm.trans run
  | ok a t =>
      rw [bind_of_ok (first s a t ran)]
      exact rest a t b u ((bind_of_ok ran).symm.trans run)

theorem get {f : Session → Act β} (blind : ∀ s : Session, f s.unlimited = f s)
    (rest : ∀ s, IgnoresLimit (f s)) : IgnoresLimit (MonadState.get >>= f) := by
  intro s b t run
  have same : (MonadState.get >>= f) s.unlimited = f s s.unlimited :=
    congrFun (blind s) s.unlimited
  exact same.trans (rest s s b t run)

theorem write (text : String) : IgnoresLimit (write text) := by
  intro s a t run
  rw [eq_wrote_of_write run]
  exact write_eq (s := s.unlimited) rfl text

theorem of_sink {x : Act α} (silent : IgnoresSink x) : IgnoresLimit x := by
  intro s a t run
  obtain ⟨same, runToo⟩ := (silent s { s.sink with failure := none }).of_ok run
  rw [unlimited, unlimited, same]
  exact runToo

theorem closed : Closed fun _ => IgnoresLimit where
  pure := pure
  throw := throw
  bind := bind
  look blind := get fun s => blind s s.parser _
  get blind := get fun s => blind s _
  write := write
  advance := of_sink .advance
  parseForm := of_sink .parseForm
  compileForm form := of_sink (.compileForm form)
  evaluateBare id told s a t run := told _ { s with backend := s.backend.remove id } a t run

end IgnoresLimit

/-- A round that ends well does what the parser's part in it says. -/
theorem follows_of_round {s t : Session} {more : Bool} (run : round s = .ok more t) :
    s.parser.turn = .ok more t.parser ∧
      Follows s.unlimited t.unlimited t.parser s.parser.form?.toList := by
  have ran := IgnoresLimit.closed.round s more t run
  have outcome := round_turn (s := s.unlimited) rfl
  cases turned : s.parser.turn with
  | error e q =>
      obtain ⟨u, failed, -⟩ := outcome.of_error turned
      cases ran.symm.trans failed
  | ok more' q =>
      obtain ⟨u, ran', follows⟩ := outcome.of_ok turned
      cases ran.symm.trans ran'
      have same : t.parser = q := follows.parser
      subst same
      exact ⟨rfl, follows⟩

theorem follows_of_begin {s t : Session} (begun : begin s = .ok () t) :
    s.parser.advance = .ok () t.parser ∧ Follows s.unlimited t.unlimited t.parser [] := by
  have ran := IgnoresLimit.closed.begin s () t begun
  have outcome := begin_ensures (s := s.unlimited) rfl
  cases read : s.parser.advance with
  | error e p =>
      obtain ⟨u, failed, -⟩ := outcome.of_error read
      cases ran.symm.trans failed
  | ok _ p =>
      obtain ⟨u, ran', follows⟩ := outcome.of_ok read
      cases ran.symm.trans ran'
      have same : t.parser = p := follows.parser
      subst same
      exact ⟨rfl, follows⟩

/-- A round leads from one session to the other, and there is more to come. -/
def GoesOn (s t : Session) : Prop := round s = .ok true t

/-- Rounds lead from one session to the other. -/
abbrev GoesOnTo : Session → Session → Prop := Relation.ReflTransGen GoesOn

theorem goesOnTo_of_mem_startsWithin {s t : Session} {count : Nat}
    (mem : t ∈ startsWithin count s) : GoesOnTo s t := by
  induction count generalizing s with
  | zero => contradiction
  | succ count ih =>
      simp only [startsWithin, List.mem_cons] at mem
      rcases mem with rfl | later
      · exact .refl
      · split at later
        · next u run => exact .head run (ih later)
        · contradiction

theorem startsWithin_pairwise (count : Nat) (s : Session) :
    (startsWithin count s).Pairwise GoesOnTo := by
  induction count generalizing s with
  | zero => exact .nil
  | succ count ih =>
      simp only [startsWithin]
      split
      · next t run =>
        refine .cons (fun u later => ?_) (ih t)
        exact .head run (goesOnTo_of_mem_startsWithin later)
      · exact List.pairwise_singleton _ _

/-- The rounds of a run come one after the other. -/
theorem starts_pairwise (s : Session) : s.starts.Pairwise GoesOnTo := by
  unfold starts
  split
  · exact startsWithin_pairwise _ _
  · exact .nil

/-- What holds behind the first read, and rounds keep, holds where every round starts. -/
theorem forall_mem_starts {s : Session} {P : Session → Prop}
    (first : ∀ t, begin s = .ok () t → P t) (next : ∀ t u, round t = .ok true u → P t → P u) :
    ∀ t ∈ s.starts, P t := by
  intro t mem
  unfold starts at mem
  split at mem
  · next u begun =>
    have onward := goesOnTo_of_mem_startsWithin mem
    clear mem
    induction onward with
    | refl => exact first u begun
    | tail _ run ih => exact next _ _ run ih
  · contradiction

theorem rounds_last {s t : Session} {count : Nat} (enough : s.parser.left < count)
    (ran : rounds count s = .ok () t) :
    t ∈ startsWithin count s ∧ t.parser.current = .eof ∧
      t.backend = s.backend.takeAll ((startsWithin count s).filterMap (·.parser.form?)) := by
  induction count generalizing s with
  | zero => exact absurd enough (Nat.not_lt_zero _)
  | succ count ih =>
      simp only [rounds] at ran
      cases run : round s with
      | error e u => cases (bind_of_error run).symm.trans ran
      | ok more u =>
          rw [bind_of_ok run] at ran
          obtain ⟨turned, follows⟩ := follows_of_round run
          cases more with
          | false =>
              have atEnd := Parser.current_of_turn turned
              cases run.symm.trans (round_of_eof atEnd)
              cases ran
              refine ⟨List.mem_cons_self, atEnd, ?_⟩
              simp only [startsWithin, run, List.filterMap_cons, Parser.form?_of_eof atEnd,
                List.filterMap_nil]
              rfl
          | true =>
              have taken := (Parser.turn_takes turned).2
              obtain ⟨later, atEnd, made⟩ :=
                ih (Nat.lt_of_lt_of_le taken (Nat.le_of_lt_succ enough)) ran
              have first : u.backend = s.backend.takeAll s.parser.form?.toList := follows.backend
              simp only [startsWithin, run]
              refine ⟨List.mem_cons_of_mem _ later, atEnd, ?_⟩
              rw [made, first, List.filterMap_cons]
              cases s.parser.form? <;> rfl

/-- A run that ends well ends where a round would start, at the end of input with what all forms
    made of the module, and writes the module there. -/
theorem run_last {s t : Session} (ran : run s = .ok () t) :
    ∃ u ∈ s.starts, u.parser.current = .eof ∧ u.backend = s.backend.takeAll s.forms ∧
      t = u.wrote u.backend.target.text := by
  rw [run_eq] at ran
  cases begun : begin s with
  | error e u => cases (bind_of_error begun).symm.trans ran
  | ok _ u =>
      rw [bind_of_ok begun] at ran
      cases all : allRounds u with
      | error e v => cases (bind_of_error all).symm.trans ran
      | ok _ v =>
          rw [bind_of_ok all] at ran
          obtain ⟨mem, atEnd, made⟩ := rounds_last (Nat.lt_succ_self _) all
          have first : u.backend = s.backend := (follows_of_begin begun).2.backend
          refine ⟨v, ?_, atEnd, ?_, eq_wrote_of_write ran⟩
          · simpa only [starts, begun] using mem
          · simpa only [forms, starts, begun, first] using made

end Reckon.Session
