import Reckon.Proofs.Sessions.Continuations
import Reckon.Proofs.Sessions.Progress

/-! # When a session reads

The reads of a run, in order, each with the session as it stood when it asked for the token: what
it had written by then, and how much the lexer had left to deliver. One read is made before all
rounds. Those of a round are the reads of its form, and then perhaps one to skip a token; and none
is left out, since every read starts where the one before it left the parser.
-/

namespace Reckon

namespace Parser

variable {p q r : Parser}

/-- Where this many reads in a row are made, the first of them here. -/
def readingFrom : Nat → Parser → List Parser
  | 0, _ => []
  | count + 1, p => p :: readingFrom count (leaves advance p)

/-- Where the reads are made that lead from one parser to the other. Each of them takes one off
    what is left. -/
def readsTo (p q : Parser) : List Parser := readingFrom (p.left - q.left) p

/-- Reads at these parsers, one behind the other, lead from the first parser to the last. -/
inductive Trail : Parser → List Parser → Parser → Prop where
  | nil (p : Parser) : Trail p [] p
  | cons {p q : Parser} {rest : List Parser} :
    Trail (leaves advance p) rest q → Trail p (p :: rest) q

theorem Trail.append {first second : List Parser} (h : Trail p first q) (more : Trail q second r) :
    Trail p (first ++ second) r := by
  induction h with
  | nil => exact more
  | cons _ ih => exact .cons (ih more)

theorem Trail.moves {reads : List Parser} (h : Trail p reads q) : Moves p q := by
  induction h with
  | nil => exact .refl _
  | cons _ ih => exact .read ih

theorem Trail.single (p : Parser) : Trail p [p] (leaves advance p) := .cons (.nil _)

theorem Started.advance_takes (h : p.Started) :
    leaves advance p = p ∨ p.left = (leaves advance p).left + 1 := by
  rcases p.advance_cases with ⟨t, events, here, run⟩ | ⟨text, events, here, run⟩ |
    ⟨here, -, run⟩ | ⟨reason, -, -, run⟩
  · have noEof := here ▸ h.noEof
    have isToken : t ≠ .eof := by
      rintro rfl
      exact noEof List.mem_cons_self
    have wasToken : p.current ≠ .eof := fun atEnd => by simp [h.atEof atEnd] at here
    simp [leaves, run, left, here, isToken, wasToken]
  · have wasToken : p.current ≠ .eof := fun atEnd => by simp [h.atEof atEnd] at here
    simp [leaves, run, left, here, wasToken]
  · by_cases atEnd : p.current = .eof
    · refine .inl ?_
      rw [leaves_of_ok run, ← atEnd]
    · simp [leaves, run, left, here, atEnd]
  · exact .inl (leaves_of_error run)

/-- Where the source failed, it fails again. -/
theorem Stopped.stuck {e : ParseError} {reason : String} (h : Stopped p e q)
    (failed : e = .read (.failed reason)) : leaves advance q = q := by
  obtain ⟨r, -, run | ⟨-, notRead⟩⟩ := h
  · rcases r.advance_cases with ⟨t, events, -, run'⟩ | ⟨text, events, -, run'⟩ | ⟨-, -, run'⟩ |
      ⟨reason', -, -, run'⟩
    all_goals cases run.symm.trans run'
    · cases failed
    · exact leaves_of_error run
  · exact absurd failed (notRead _)

theorem left_le_length (p : Parser) : p.left ≤ p.feed.events.length + 1 := by
  rw [left]
  split <;> omega

theorem readsTo_self (p : Parser) : readsTo p p = [] := by
  rw [readsTo, Nat.sub_self, readingFrom]

theorem readsTo_of_takes (takes : p.left = (leaves advance p).left + 1)
    (le : q.left ≤ (leaves advance p).left) :
    readsTo p q = p :: readsTo (leaves advance p) q := by
  rw [readsTo, takes, Nat.succ_sub le, readingFrom]
  rfl

theorem trail_readsTo (started : p.Started) (moves : Moves p q) : Trail p (readsTo p q) q := by
  induction moves with
  | refl p => exact readsTo_self p ▸ .nil p
  | @read p q moves ih =>
      have rest := ih ((Moves.read (.refl _)).started started)
      rcases started.advance_takes with same | takes
      · rwa [same] at rest
      · rw [readsTo_of_takes takes moves.left_le]
        exact .cons rest

theorem length_of_mem_readsTo (started : p.Started) (moves : Moves p q) (mem : r ∈ readsTo p q) :
    q.left ≤ r.feed.events.length := by
  induction moves with
  | refl p => simp [readsTo_self] at mem
  | @read p q moves ih =>
      have rest := ih ((Moves.read (.refl _)).started started)
      rcases started.advance_takes with same | takes
      · rw [same] at rest
        exact rest mem
      · rw [readsTo_of_takes takes moves.left_le] at mem
        rcases List.mem_cons.mp mem with rfl | later
        · have room := left_le_length r
          have le := moves.left_le
          omega
        · exact rest later

/-- The first read with no more ahead than there is at `q`, if the reads go on from there. -/
theorem find_readsTo (started : p.Started) (moves : Moves p q) (isToken : q.current ≠ .eof)
    (onward : Moves (leaves advance q) r) (takes : (leaves advance q).left < q.left) :
    (readsTo p r).find? (·.feed.events.length ≤ q.feed.events.length) = some q := by
  induction moves with
  | refl q =>
      rcases started.advance_takes with same | taken
      · rw [same] at takes
        exact absurd takes (Nat.lt_irrefl _)
      · rw [readsTo_of_takes taken onward.left_le]
        simp
  | @read p q moves ih =>
      have rest := ih ((Moves.read (.refl _)).started started) isToken onward takes
      rcases started.advance_takes with same | taken
      · rwa [same] at rest
      · have further : Moves (leaves advance p) r := moves.trans (.read onward)
        have ahead : q.feed.events.length < p.feed.events.length := by
          have room := left_le_length p
          have le := moves.left_le
          simp only [left, if_neg isToken] at le taken room
          omega
        rw [readsTo_of_takes taken further.left_le, List.find?_cons_of_neg (by simpa using ahead)]
        exact rest

end Parser

namespace Session

variable {s t : Session}

/-- The read behind a form that could not be parsed: the one that failed if that is why, and else
    the one to skip a token, if one is skipped and the report could be written. -/
def readsBehind (s : Session) (e : ParseError) : List Session :=
  match e with
  | .read (.failed _) => [s]
  | _ =>
    if s.parser.AtStart then []
    else
      match report e.message s with
      | .ok _ t => [t]
      | .error _ _ => []

def roundReads (s : Session) : List Session :=
  match s.parser.finding with
  | .nothing => []
  | .separator => [s]
  | .form _ q => (s.parser.readsTo q).map s.withParser
  | .mistake e q => (s.parser.readsTo q).map s.withParser ++ (s.withParser q).readsBehind e

theorem roundReads_of_separator (here : s.parser.current = .char ';') : s.roundReads = [s] := by
  rw [roundReads, Parser.finding_of_separator here]

theorem roundReads_of_read (atForm : s.parser.AtForm) {f : Form} {q : Parser}
    (read : Parser.form s.parser = .ok f q) :
    s.roundReads = (s.parser.readsTo q).map s.withParser := by
  rw [roundReads, atForm.finding_eq, read]

theorem roundReads_of_mistake (atForm : s.parser.AtForm) {e : ParseError} {q : Parser}
    (bad : Parser.form s.parser = .error e q) :
    s.roundReads =
      (s.parser.readsTo q).map s.withParser ++ (s.withParser q).readsBehind e := by
  rw [roundReads, atForm.finding_eq, bad]

/-- The reads of all rounds from here on. -/
def readsFrom (s : Session) : List Session := s.startsFrom.flatMap roundReads

def reads (s : Session) : List Session :=
  match prompt s with
  | .ok _ t => t :: s.starts.flatMap roundReads
  | .error _ _ => []

theorem parser_leaves_advance (s : Session) :
    (leaves advance s).parser = leaves Parser.advance s.parser := by
  cases run : s.parser.advance with
  | ok _ q => rw [leaves_of_ok run, leaves_of_ok (advance_of_ok run), withParser]
  | error e q => rw [leaves_of_error run, leaves_of_error (advance_of_error run), withParser]

theorem IgnoresParser.parser_leaves {x : Act α} (h : IgnoresParser x) (s : Session) :
    (leaves x s).parser = s.parser := by
  cases run : x s with
  | ok a t => rw [leaves_of_ok run, h.parser_of_ok run]
  | error e t => rw [leaves_of_error run, h.parser_of_error run]

theorem IgnoresParser.leaves_bind {x : Act α} {y : Act β} (rest : IgnoresParser y) :
    (leaves (do let _ ← x; y) s).parser = (leaves x s).parser := by
  cases run : x s with
  | error e t => rw [leaves_of_error run, leaves_of_error (bind_of_error run)]
  | ok a t => rw [leaves_of_ok run, leaves_of_eq (bind_of_ok run), rest.parser_leaves]

/-- Reads at these sessions lead from one parser to the other; and unless one of them fails with the
    source, what the last of them leaves, each had ahead. -/
structure LeadsTo (fine : Prop) (p : Parser) (reads : List Session) (q : Parser) : Prop where
  trail : Parser.Trail p (reads.map parser) q
  ahead : fine → ∀ u ∈ reads, q.left ≤ u.parser.feed.events.length

namespace LeadsTo

variable {fine : Prop} {p q r : Parser}

theorem nil (p : Parser) : LeadsTo fine p [] p :=
  ⟨.nil p, fun _ _ mem => absurd mem List.not_mem_nil⟩

theorem append {first second : List Session} (h : LeadsTo fine p first q)
    (more : LeadsTo fine q second r) : LeadsTo fine p (first ++ second) r := by
  refine ⟨List.map_append ▸ h.trail.append more.trail, fun fine u mem => ?_⟩
  rcases List.mem_append.mp mem with early | late
  · exact Nat.le_trans more.trail.moves.left_le (h.ahead fine u early)
  · exact more.ahead fine u late

theorem single (h : fine → (leaves Parser.advance s.parser).left ≤ s.parser.feed.events.length) :
    LeadsTo fine s.parser [s] (leaves Parser.advance s.parser) :=
  ⟨.single _, fun fine _ mem => List.mem_singleton.mp mem ▸ h fine⟩

theorem readsTo (s : Session) (started : p.Started) (moves : Parser.Moves p q) :
    LeadsTo fine p ((p.readsTo q).map s.withParser) q := by
  refine ⟨?_, fun _ u mem => ?_⟩
  · have same : ((p.readsTo q).map s.withParser).map parser = p.readsTo q := by
      rw [List.map_map]
      exact List.map_id' _
    rw [same]
    exact Parser.trail_readsTo started moves
  · obtain ⟨r, isRead, rfl⟩ := List.mem_map.mp mem
    exact Parser.length_of_mem_readsTo started moves isRead

end LeadsTo

/-- The step does not fail with the source. -/
def Fine (x : Act α) (s : Session) : Prop :=
  ∀ reason t, x s ≠ .error (.parse (.read (.failed reason))) t

theorem left_leaves_advance (fine : Fine advance s) :
    (leaves Parser.advance s.parser).left ≤ s.parser.feed.events.length := by
  rcases s.parser.advance_cases with ⟨t, events, here, run⟩ | ⟨text, events, here, run⟩ |
    ⟨here, -, run⟩ | ⟨reason, -, -, run⟩
  · simpa [leaves, run, here] using Parser.left_le_length { s.parser with
      current := t, feed := { s.parser.feed with events } }
  · simpa [leaves, run, here] using Parser.left_le_length { s.parser with
      feed := { s.parser.feed with events } }
  · simp [leaves, run, Parser.left, here]
  · exact absurd (advance_of_error run) (fine reason _)

theorem readsBehind_of_notFailed {e : ParseError}
    (notFailed : ∀ reason, e ≠ .read (.failed reason)) :
    s.readsBehind e = if s.parser.AtStart then [] else
      match report e.message s with
      | .ok _ t => [t]
      | .error _ _ => [] := by
  unfold readsBehind
  split
  · next reason => exact absurd rfl (notFailed reason)
  · rfl

theorem readsBehind_lead {e : ParseError}
    (stuck : ∀ reason, e = .read (.failed reason) → leaves Parser.advance s.parser = s.parser) :
    LeadsTo (Fine (recover e) s) s.parser (s.readsBehind e) (leaves (recover e) s).parser := by
  -- A read that fails takes nothing, so it is not among those of the form; it is listed here.
  rcases e.failed_or with ⟨reason, rfl⟩ | notFailed
  · have lead : LeadsTo (Fine (recover (.read (.failed reason))) s) s.parser [s]
        (leaves Parser.advance s.parser) := .single fun fine => absurd rfl (fine reason s)
    rwa [stuck reason rfl] at lead
  · have behind := readsBehind_of_notFailed (s := s) notFailed
    cases reported : report e.message s with
    | error e' t =>
        rw [behind, reported, leaves_of_error (recover_of_report_error notFailed reported),
          (IgnoresParser.reporting.report _).parser_of_error reported, ite_self]
        exact .nil _
    | ok _ t =>
        have stands : t.parser = s.parser :=
          (IgnoresParser.reporting.report _).parser_of_ok reported
        by_cases atStart : s.parser.AtStart
        · rw [behind, if_pos atStart,
            leaves_of_ok (recover_of_start notFailed reported (stands ▸ atStart)), stands]
          exact .nil _
        · have recovers := recover_of_other notFailed reported (stands ▸ atStart)
          rw [behind, if_neg atStart, reported, leaves_of_eq recovers, parser_leaves_advance,
            ← stands]
          exact .single fun fine => left_leaves_advance fun reason u =>
            recovers ▸ fine reason u

/-- The reads of a round lead to what it leaves. -/
theorem roundReads_lead (started : s.parser.Started) :
    LeadsTo (Fine round s) s.parser s.roundReads (leaves round s).parser := by
  have goesOn : IgnoresParser (do prompt; pure true : Act Bool) :=
    IgnoresParser.reporting.prompt.bind fun _ => .pure _
  rcases s.parser.turn_cases with here | here | atForm
  · rw [roundReads, Parser.finding_of_eof here, leaves_of_ok (round_of_eof here)]
    exact .nil _
  · have left : (leaves round s).parser = leaves Parser.advance s.parser := by
      rw [leaves_of_eq (round_of_separator here), (IgnoresParser.pure true).leaves_bind,
        parser_leaves_advance]
    rw [roundReads_of_separator here, left]
    refine .single fun fine => left_leaves_advance fun reason t failed => ?_
    exact fine reason t ((round_of_separator here).trans (bind_of_error failed))
  · cases outcome : Parser.form s.parser with
    | ok f q =>
        have left : (leaves round s).parser = q := by
          rw [leaves_of_eq (round_of_read atForm outcome), goesOn.leaves_bind]
          exact (IgnoresParser.reporting.takeForm f).parser_leaves _
        rw [roundReads_of_read atForm outcome, left]
        exact .readsTo s started ((Parser.form_forward _).of_ok outcome).moves
    | error e q =>
        have stopped := (Parser.form_forward _).of_error outcome
        have left : (leaves round s).parser = (leaves (recover e) (s.withParser q)).parser := by
          rw [leaves_of_eq (round_of_mistake atForm outcome), goesOn.leaves_bind]
        have behind := readsBehind_lead (s := s.withParser q) (e := e)
          fun reason failed => stopped.stuck failed
        rw [roundReads_of_mistake atForm outcome, left]
        refine .append (.readsTo s started stopped.moves) ⟨behind.trail, fun fine => ?_⟩
        refine behind.ahead fun reason t failed => fine reason t ?_
        exact (round_of_mistake atForm outcome).trans (bind_of_error failed)

theorem leaves_allRounds_of_last (ends : ∀ t, round s ≠ .ok true t) :
    leaves allRounds s = leaves round s := by
  cases run : round s with
  | error e t => rw [leaves_of_error run, leaves_of_error (allRounds_of_error run)]
  | ok more t =>
      cases more with
      | true => exact absurd run (ends t)
      | false => rw [leaves_of_ok run, leaves_of_ok (allRounds_of_end run)]

theorem readsFrom_of_ok (run : round s = .ok true t) :
    s.readsFrom = s.roundReads ++ t.readsFrom := by
  rw [readsFrom, startsFrom_of_ok run, List.flatMap_cons, readsFrom]

theorem readsFrom_of_last (ends : ∀ t, round s ≠ .ok true t) : s.readsFrom = s.roundReads := by
  rw [readsFrom, startsFrom_of_last ends, List.flatMap_singleton]

theorem readsFrom_trail (started : s.parser.Started) :
    Parser.Trail s.parser (s.readsFrom.map parser) (leaves allRounds s).parser := by
  induction s using rounds_induction with
  | last s ends =>
      rw [readsFrom_of_last ends, leaves_allRounds_of_last ends]
      exact (roundReads_lead started).trail
  | next s t run ih =>
      have first := (roundReads_lead started).trail
      rw [leaves_of_ok run] at first
      rw [readsFrom_of_ok run, leaves_of_eq (allRounds_of_ok run), List.map_append]
      exact first.append (ih (first.moves.started started))

theorem reads_of_prompt (prompted : prompt s = .ok () t) : ∃ later, s.reads = t :: later := by
  simp only [reads, prompted]
  exact ⟨_, rfl⟩

theorem reads_of_begin {u : Session} (prompted : prompt s = .ok () t)
    (moved : advance t = .ok () u) : s.reads = t :: u.readsFrom := by
  have begun : begin s = .ok () u := (begin_of_prompt prompted).trans moved
  simp only [reads, prompted, starts_of_begin begun, readsFrom]

theorem reads_of_begin_error {u : Session} {e : SessionError} (prompted : prompt s = .ok () t)
    (stuck : advance t = .error e u) : s.reads = [t] := by
  have begun : begin s = .error e u := (begin_of_prompt prompted).trans stuck
  simp only [reads, prompted, starts_of_begin_error begun, List.flatMap_nil]

theorem reads_of_prompt_error {e : SessionError} (failed : prompt s = .error e t) :
    s.reads = [] := by
  simp only [reads, failed]

/-- The reads of a run over a source are all that the run does to its parser, from the first one on
    and in this order. -/
theorem reads_trail (noEof : .token .eof ∉ s.parser.feed.events) :
    Parser.Trail s.parser (s.reads.map parser) (leaves run s).parser := by
  cases prompted : prompt s with
  | error e t =>
      have failed : run s = .error e t := run_of_begin_error (bind_of_error prompted)
      rw [reads_of_prompt_error prompted, leaves_of_error failed,
        IgnoresParser.reporting.prompt.parser_of_error prompted]
      exact .nil _
  | ok _ t =>
      have stands : t.parser = s.parser := IgnoresParser.reporting.prompt.parser_of_ok prompted
      cases moved : advance t with
      | error e u =>
          have failed : run s = .error e u :=
            run_of_begin_error ((begin_of_prompt prompted).trans moved)
          have left := parser_leaves_advance t
          rw [leaves_of_error moved, stands] at left
          rw [reads_of_begin_error prompted moved, leaves_of_error failed, left]
          exact stands ▸ .single t.parser
      | ok _ u =>
          have begun : begin s = .ok () u := (begin_of_prompt prompted).trans moved
          have left := parser_leaves_advance t
          rw [leaves_of_ok moved, stands] at left
          have started : u.parser.Started :=
            Parser.started_of_advance noEof (follows_of_begin begun).1
          rw [reads_of_begin prompted moved, parser_leaves_run begun, List.map_cons, stands]
          exact .cons (left ▸ readsFrom_trail started)

end Session

end Reckon
