import Reckon.Proofs.Sessions.Outputs

/-! # What a session reports

What a session writes about a form that it reads depends on the backend alone: on what the form
compiles to there, and on whether and how that evaluates. So what a run makes of its forms, one
after the other, can be followed on the backend that takes them.
-/

namespace Reckon

namespace Session

/-- What the session writes about the form that a round reads, on an output of its own. -/
def account (s : Session) : ByteArray := (leaves handleForm { s with sink := {} }).sink.written

theorem account_eq {s : Session} {f : Form} (found : s.parser.form? = some f) :
    s.account = (s.backend.report s.options.evaluate f).toUTF8 := by
  obtain ⟨-, q, read⟩ := Parser.form?_eq_some found
  rw [account, leaves_of_ok (handleForm_eq (s := { s with sink := {} }) rfl read)]
  exact ByteArray.empty_append

theorem written_of_round {s t : Session} {f : Form} {more : Bool}
    (found : s.parser.form? = some f) (run : round s = .ok more t) :
    t.sink.written = s.sink.written ++ s.account ++
      (if s.options.prompt then "ready> " else "").toUTF8 := by
  obtain ⟨atForm, q, read⟩ := Parser.form?_eq_some found
  have handled := handleForm_eq (s := s.unlimited) rfl read
  have ran := round_of_handled (s := s.unlimited) atForm handled rfl
  have ended : t.unlimited = _ :=
    (EStateM.Result.ok.inj ((IgnoresLimit.closed.round s more t run).symm.trans ran)).2
  have written : t.sink.written = t.unlimited.sink.written := rfl
  rw [written, ended, account_eq found]
  rfl

end Session

/-- What a session makes of a form. -/
structure Entry where
  form : Form
  /-- The form compiled. -/
  compiled : Bool
  /-- What was written about it. -/
  account : ByteArray

/-- The form compiles. -/
def Form.compiles (form : Form) (b : Backend) : Bool :=
  match form.compile b with
  | .ok _ _ => true
  | .error _ _ => false

namespace Backend

/-- What a session makes of a form on this backend. -/
def entry (b : Backend) (evaluate : Bool) (form : Form) : Entry :=
  ⟨form, form.compiles b, (b.report evaluate form).toUTF8⟩

/-- What a session makes of forms, one after the other. -/
def transcript (b : Backend) (evaluate : Bool) : List Form → List Entry
  | [] => []
  | form :: forms => b.entry evaluate form :: (b.take form).transcript evaluate forms

end Backend

namespace Session

/-- What the session makes of the form that a round reads. -/
def entryHere? (s : Session) : Option Entry :=
  s.parser.form?.map fun form => ⟨form, form.compiles s.backend, s.account⟩

/-- What a run makes of its forms, in order. -/
def transcript (s : Session) : List Entry := s.starts.filterMap entryHere?

/-- Every round that reads a form adds to the output what its entry has about the form, and the
    prompt behind it. -/
def Accounted (s : Session) : Prop :=
  ∀ t ∈ s.starts, ∀ entry more u, t.entryHere? = some entry → round t = .ok more u →
    u.sink.written = t.sink.written ++ entry.account ++
      (if t.options.prompt then "ready> " else "").toUTF8

theorem accounted (s : Session) : s.Accounted := by
  intro t _ entry more u here ran
  obtain ⟨form, found, rfl⟩ := Option.map_eq_some_iff.mp here
  exact written_of_round found ran

theorem entryHere?_eq (s : Session) :
    s.entryHere? = s.parser.form?.map (s.backend.entry s.options.evaluate) := by
  cases found : s.parser.form? with
  | none => simp only [entryHere?, found, Option.map_none]
  | some f => simp only [entryHere?, found, Option.map_some, Backend.entry, account_eq found]

theorem filterMap_startsWithin (count : Nat) (s : Session) :
    (startsWithin count s).filterMap entryHere? = s.backend.transcript s.options.evaluate
      ((startsWithin count s).filterMap (·.parser.form?)) := by
  induction count generalizing s with
  | zero => rfl
  | succ count ih =>
      -- The tail of the run starts with what the first form leaves of the backend.
      have tail : ∀ rest : List Session, rest.filterMap entryHere? =
          (s.backend.takeAll s.parser.form?.toList).transcript s.options.evaluate
            (rest.filterMap (·.parser.form?)) →
          (s :: rest).filterMap entryHere? = s.backend.transcript s.options.evaluate
            ((s :: rest).filterMap (·.parser.form?)) := by
        intro rest same
        rw [List.filterMap_cons, List.filterMap_cons, entryHere?_eq s, same]
        cases s.parser.form? <;> rfl
      cases run : round s with
      | error e t =>
          simp only [startsWithin, run]
          exact tail [] rfl
      | ok more t =>
          cases more with
          | false =>
              simp only [startsWithin, run]
              exact tail [] rfl
          | true =>
              simp only [startsWithin, run]
              have follows := (follows_of_round run).2
              have backend : t.backend = s.backend.takeAll s.parser.form?.toList :=
                follows.backend
              have options : t.options = s.options := follows.options
              refine tail _ ?_
              rw [ih t, backend, options]

/-- What a run makes of its forms is what its backend does. -/
theorem transcript_eq (s : Session) :
    s.transcript = s.backend.transcript s.options.evaluate s.forms := by
  unfold transcript forms starts
  cases begun : begin s with
  | error e t => rfl
  | ok _ t =>
      have follows := (follows_of_begin begun).2
      have backend : t.backend = s.backend := follows.backend
      have options : t.options = s.options := follows.options
      simp only [filterMap_startsWithin, backend, options]

end Session

end Reckon
