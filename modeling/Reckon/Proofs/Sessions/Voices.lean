import Reckon.Proofs.Sessions.Progress

/-! # Voices of a session

Sessions that differ in their voices alone go through the same places and end alike. Each writes
what its voice says of the rounds that start at these places, one after the other, and what comes
before and behind them; so prompts and the values of bare expressions are all that one output can
have and another not.
-/

namespace Reckon

theorem Definition.compileBody_verifies (d : Definition) (id : Ir.FunctionId) (b : Backend) :
    Ensures (d.compileBody id) b (fun _ b' => b'.target.verify id = true) fun _ _ => True := by
  refine Ensures.bind .trivial fun _ _ _ => ?_
  refine Ensures.bind .trivial fun params _ _ => ?_
  refine Ensures.bind .trivial fun value _ _ => ?_
  refine Ensures.bind .trivial fun _ b' _ => ?_
  apply Ensures.get
  split
  · next verified => exact .pure (Bool.and_eq_true_iff.mp verified).2
  · exact .throw .intro

/-- A definition that compiles has its function in the module, whatever else is in it. -/
theorem Definition.compile_found (d : Definition) (b : Backend) :
    Ensures d.compile b (fun id b' => ∃ f, b'.target.function? id = some f) fun _ _ => True := by
  have body : ∀ undo id b, Ensures (Compile.undoing undo (d.compileBody id)) b
      (fun _ b' => ∃ f, b'.target.function? id = some f) fun _ _ => True := by
    intro undo id b
    refine Compile.ensures_undoing ((d.compileBody_verifies id b).mono ?_ fun _ _ _ => .intro)
    intro _ b' verified
    obtain ⟨f, found, -⟩ := Ir.Module.verify_eq_true.mp verified
    exact ⟨f, found⟩
  apply Compile.ensures_query
  cases b.target.lookup? d.prototype.symbol with
  | none =>
      refine Compile.ensures_addFunction ((body _ _ _).bind fun _ b' found => ?_)
      exact .pure found
  | some id =>
      apply Compile.ensures_query
      split
      · exact .throw .intro
      · apply Compile.ensures_query
        split
        · refine (body _ id b).bind fun _ b' found => ?_
          obtain ⟨f, found⟩ := found
          have renamed : (b'.target.setParamNames id d.prototype.params).function? id = _ :=
            Ir.Module.function?_update_self _ fun f => by split <;> rfl
          exact ⟨_, renamed.trans (congrArg (Option.map _) found)⟩
        · exact .throw .intro

namespace Session

variable {s t : Session}

/-- The sessions are at the same place, with outputs that work. -/
structure Together (s t : Session) : Prop where
  place : s.place = t.place
  works : s.sink.failure = none
  worksToo : t.sink.failure = none

theorem Together.parser (h : Together s t) : s.parser = t.parser := congrArg Place.parser h.place

theorem Together.target (h : Together s t) : s.backend.target = t.backend.target :=
  congrArg (·.backend.target) h.place

theorem Together.behind (h : Together s t) (q : Parser) : Together (s.behind q) (t.behind q) := by
  refine ⟨?_, h.works, h.worksToo⟩
  have backend : s.backend.mute = t.backend.mute := congrArg Place.backend h.place
  simp only [Session.place, Session.behind, wrote, Backend.takeAll_mute, h.parser, backend]

/-- From both sessions the step comes to the same, and leaves them together. -/
inductive Alike (x : Act α) (s t : Session) : Prop where
  | ok (a : α) (s' t' : Session) : x s = .ok a s' → x t = .ok a t' → Together s' t' → Alike x s t
  | error (e : SessionError) (s' t' : Session) :
    x s = .error e s' → x t = .error e t' → Together s' t' → Alike x s t

namespace Alike

theorem outcome_eq {x : Act α} (h : Alike x s t) : outcome x s = outcome x t := by
  cases h with
  | ok a s' t' run runToo _ => rw [outcome_of_ok run, outcome_of_ok runToo]
  | error e s' t' run runToo _ => rw [outcome_of_error run, outcome_of_error runToo]

theorem bind {x : Act α} {f : α → Act β} (first : Alike x s t)
    (rest : ∀ a s' t', Together s' t' → Alike (f a) s' t') : Alike (x >>= f) s t := by
  cases first with
  | ok a s' t' run runToo together =>
      cases rest a s' t' together with
      | ok b u u' ran ranToo further =>
          exact .ok b u u' ((bind_of_ok run).trans ran) ((bind_of_ok runToo).trans ranToo) further
      | error e u u' ran ranToo further =>
          exact .error e u u' ((bind_of_ok run).trans ran) ((bind_of_ok runToo).trans ranToo)
            further
  | error e s' t' run runToo together =>
      exact .error e s' t' (bind_of_error run) (bind_of_error runToo) together

theorem round (h : Together s t) : Alike round s t := by
  have here := round_speaks h.works
  have there := round_speaks h.worksToo
  rw [← h.parser] at there
  cases turned : s.parser.turn with
  | ok more q => exact .ok more _ _ (here.of_ok turned) (there.of_ok turned) (h.behind q)
  | error e q =>
      exact .error _ _ _ (here.of_error turned) (there.of_error turned) (h.behind q)

theorem rounds (h : Together s t) (count : Nat) : Alike (rounds count) s t := by
  induction count generalizing s t with
  | zero => exact .ok () s t rfl rfl h
  | succ count ih =>
      refine (round h).bind fun more s' t' together => ?_
      split
      · exact ih together
      · exact .ok () s' t' rfl rfl together

theorem begin (h : Together s t) : Alike begin s t := by
  have here := begin_speaks h.works
  have there := begin_speaks h.worksToo
  rw [← h.parser] at there
  have backend : s.backend.mute = t.backend.mute := congrArg Place.backend h.place
  have together : ∀ p, Together ({ s with parser := p }.wrote s.voice.opening)
      ({ t with parser := p }.wrote t.voice.opening) := by
    intro p
    refine ⟨?_, h.works, h.worksToo⟩
    simp only [place, wrote, backend]
  cases read : s.parser.advance with
  | ok _ p => exact .ok () _ _ (here.of_ok read) (there.of_ok read) (together p)
  | error e p => exact .error _ _ _ (here.of_error read) (there.of_error read) (together p)

end Alike

theorem voice_behind (s : Session) (q : Parser) : (s.behind q).voice = s.voice := by
  obtain ⟨faults, canEvaluate⟩ := s.backend.takeAll_keeps_plan s.parser.form?.toList
  simp only [voice, behind, wrote, faults, canEvaluate]

/-- Rounds write what the voice says of them, one after the other. -/
theorem sink_leaves_rounds (works : s.sink.failure = none) (count : Nat) :
    (leaves (rounds count) s).sink =
      (s.wrote (s.voice.tells ((startsWithin count s).map place))).sink := by
  induction count generalizing s with
  | zero => exact congrArg sink (wrote_empty s).symm
  | succ count ih =>
      have here := round_speaks works
      cases turned : s.parser.turn with
      | error e q =>
          have failed := here.of_error turned
          rw [rounds, leaves_of_error (bind_of_error failed), startsWithin, failed, List.map_cons,
            Voice.tells_cons]
          exact congrArg (fun text => (s.wrote text).sink) String.append_empty.symm
      | ok more q =>
          have ran := here.of_ok turned
          rw [rounds, leaves_of_eq (bind_of_ok ran), startsWithin, ran, List.map_cons,
            Voice.tells_cons]
          cases more with
          | false => exact congrArg (fun text => (s.wrote text).sink) String.append_empty.symm
          | true =>
              refine (ih (s := s.behind q) works).trans ?_
              rw [voice_behind, ← wrote_wrote]
              rfl

/-- What is written last, behind all rounds. -/
def closing (s : Session) : String :=
  match (do begin; allRounds : Act Unit) s with
  | .ok () t => t.backend.target.text
  | .error _ _ => ""

theorem wrote_congr (same : s.sink = t.sink) (text : String) :
    (s.wrote text).sink = (t.wrote text).sink := by
  simp only [wrote, same]

/-- A run writes what its voice says of the rounds between its opening and its closing. -/
theorem sink_leaves_run (works : s.sink.failure = none) :
    (leaves run s).sink =
      (s.wrote (s.voice.opening ++ s.voice.tells (s.starts.map place) ++ s.closing)).sink := by
  have here := begin_speaks works
  rw [closing]
  cases read : s.parser.advance with
  | error e p =>
      have begun := here.of_error read
      rw [leaves_of_error (run_of_begin_error begun), starts_of_begin_error begun,
        bind_of_error begun]
      exact congrArg (fun text => (s.wrote text).sink) (by simp [Voice.tells])
  | ok _ p =>
      have begun := here.of_ok read
      generalize first : ({ s with parser := p } : Session).wrote s.voice.opening = t at begun
      have voice : t.voice = s.voice := first ▸ rfl
      have fits : t.sink.failure = none := first ▸ works
      have opened : t.sink = (s.wrote s.voice.opening).sink := first ▸ rfl
      have rest := sink_leaves_rounds fits (t.parser.left + 1)
      have starts : s.starts = startsWithin (t.parser.left + 1) t := starts_of_begin begun
      rw [← starts, voice, wrote_congr opened, wrote_wrote] at rest
      rw [bind_of_ok begun]
      cases ran : allRounds t with
      | error e u =>
          have ranAll : rounds (t.parser.left + 1) t = .error e u := ran
          rw [leaves_of_error ranAll] at rest
          rw [leaves_of_error (run_of_allRounds_error begun ran), rest]
          exact congrArg (fun text => (s.wrote text).sink) String.append_empty.symm
      | ok _ u =>
          have ranAll : rounds (t.parser.left + 1) t = .ok () u := ran
          rw [leaves_of_ok ranAll] at rest
          rw [leaves_of_ok (run_of_allRounds begun fits ran), wrote_congr rest, wrote_wrote]

theorem map_place_startsWithin (h : Together s t) (count : Nat) :
    (startsWithin count s).map place = (startsWithin count t).map place := by
  induction count generalizing s t with
  | zero => rfl
  | succ count ih =>
      simp only [startsWithin, List.map_cons, h.place]
      cases Alike.round h with
      | error e s' t' run runToo _ => rw [run, runToo]
      | ok more s' t' run runToo together =>
          rw [run, runToo]
          cases more with
          | false => rfl
          | true => exact congrArg (t.place :: ·) (ih together)

namespace Together

theorem map_place_starts (h : Together s t) :
    s.starts.map Session.place = t.starts.map Session.place := by
  unfold starts
  cases Alike.begin h with
  | error e s' t' run runToo _ => rw [run, runToo]
  | ok _ s' t' run runToo together =>
      simp only [run, runToo, together.parser]
      exact map_place_startsWithin together _

theorem body_alike (h : Together s t) : Alike (do begin; allRounds) s t := by
  refine (Alike.begin h).bind fun _ s' t' together => ?_
  have same : allRounds t' = rounds (s'.parser.left + 1) t' := by
    rw [together.parser]
    rfl
  cases Alike.rounds together (s'.parser.left + 1) with
  | ok _ u u' run runToo further => exact .ok () u u' run (same.trans runToo) further
  | error e u u' run runToo further => exact .error e u u' run (same.trans runToo) further

theorem closing_eq (h : Together s t) : s.closing = t.closing := by
  unfold closing
  cases h.body_alike with
  | ok _ u u' run runToo further => simp only [run, runToo, further.target]
  | error e u u' run runToo _ => rw [run, runToo]

theorem run_alike (h : Together s t) : Alike run s t := by
  have split : run = (do
      (do begin; allRounds : Act Unit)
      write (← get).backend.target.text) := by
    rw [run_eq, bind_assoc]
  rw [split]
  refine h.body_alike.bind fun _ s' t' together => ?_
  have wrote : write s'.backend.target.text s' = _ := write_eq together.works _
  have wroteToo : write t'.backend.target.text t' = _ := write_eq together.worksToo _
  exact .ok () _ _ wrote wroteToo ⟨together.place, together.works, together.worksToo⟩

end Together

/-- The passage is what the round from `s` has to say. -/
structure Explains (passage : Passage) (s : Session) : Prop where
  /-- The prompt comes behind every form that is handled, unless the session ends there. -/
  prompts_iff : passage.prompts = true ↔ s.parser.AtForm ∧ ∃ t, round s = .ok true t
  /-- The value comes behind the code of a bare expression that is accepted. -/
  accepted : ∀ form id b, s.parser.form? = some form → form.isBare = true →
    form.compile s.backend = .ok id b →
      passage.report = form.heading ++ "\n" ++ b.target.textOf id ∧
        ∃ value, b.target.evaluate id = some value ∧ passage.value = some value
  /-- No other round has a value to tell. -/
  of_value : ∀ value, passage.value = some value → ∃ form id b, s.parser.form? = some form ∧
    form.isBare = true ∧ form.compile s.backend = .ok id b

theorem explains_passage (works : s.sink.failure = none) : Explains s.place.passage s where
  prompts_iff := by
    rw [Place.passage_prompts_iff]
    refine and_congr_right fun _ => ?_
    have here := round_speaks works
    constructor
    · rintro ⟨q, turned⟩
      exact ⟨_, here.of_ok turned⟩
    · rintro ⟨t, run⟩
      cases turned : s.parser.turn with
      | ok more q =>
          cases run.symm.trans (here.of_ok turned)
          exact ⟨q, turned⟩
      | error e q => cases run.symm.trans (here.of_error turned)
  accepted form id b found bare compiled := by
    obtain ⟨atForm, q, read⟩ := Parser.form?_eq_some found
    have passage : s.place.passage = s.backend.passage form :=
      (Place.passage_of_form (p := s.place) atForm read).trans (s.backend.passage_mute form)
    rw [passage]
    simp only [Backend.passage, compiled, bare, if_true]
    cases form with
    | declaration p => cases bare
    | definition d =>
        obtain ⟨f, present⟩ := (d.compile_found s.backend).of_ok compiled
        exact ⟨trivial, _, congrArg (Option.map _) present, congrArg (Option.map _) present⟩
  of_value value told := by
    rcases s.parser.turn_cases with here | here | atForm
    · rw [Place.passage_of_eof here] at told
      cases told
    · rw [Place.passage_of_separator here] at told
      cases told
    · cases read : Parser.form s.parser with
      | ok form q =>
          rw [Place.passage_of_form (p := s.place) atForm read, place, Backend.passage_mute,
            Backend.passage] at told
          cases compiled : form.compile s.backend with
          | error e b =>
              rw [compiled] at told
              cases told
          | ok id b =>
              simp only [compiled] at told
              split at told
              · next bare => exact ⟨form, id, b, atForm.form?_of_ok read, bare, compiled⟩
              · cases told
      | error e q =>
          rcases e.failed_or with ⟨reason, rfl⟩ | notFailed
          · rw [Place.passage_of_failed (p := s.place) atForm read] at told
            cases told
          · rw [Place.passage_of_mistake (p := s.place) atForm read notFailed] at told
            cases told

theorem works_of_mem_starts (works : s.sink.failure = none) :
    ∀ t ∈ s.starts, t.sink.failure = none := by
  refine forall_mem_starts (fun t begun => ?_) fun t u run works => ?_
  · have here := begin_speaks works
    cases read : s.parser.advance with
    | ok _ p =>
        cases begun.symm.trans (here.of_ok read)
        exact works
    | error e p => cases begun.symm.trans (here.of_error read)
  · have here := round_speaks works
    cases turned : t.parser.turn with
    | ok more q =>
        cases run.symm.trans (here.of_ok turned)
        exact works
    | error e q => cases run.symm.trans (here.of_error turned)

/-- Compare sessions that differ in their voices alone. All go through the same places, each with
    its parser and its module, and come to the same result. What they write is their opening, what
    their voice says of the rounds that start at these places, and the same closing. -/
theorem options_only_add_text (s : Session) (table : Operators) (source : Source) :
    let speaking := fun v => ({ s with sink := {} }.voiced v).reading table source.feed
    ∃ (places : List Place) (result : Except SessionError Unit) (closing : String), ∀ v,
      (speaking v).starts.map place = places ∧
      outcome run (speaking v) = result ∧
      (leaves run (speaking v)).sink.written = (v.opening ++ v.tells places ++ closing).toUTF8 ∧
      ∀ t ∈ (speaking v).starts, Explains t.place.passage t := by
  intro speaking
  refine ⟨(speaking s.voice).starts.map place, outcome run (speaking s.voice),
    (speaking s.voice).closing, fun v => ?_⟩
  have together : Together (speaking v) (speaking s.voice) := ⟨rfl, rfl, rfl⟩
  refine ⟨together.map_place_starts, together.run_alike.outcome_eq, ?_, ?_⟩
  · rw [sink_leaves_run together.works, together.map_place_starts, together.closing_eq]
    exact ByteArray.empty_append
  · exact fun t mem => explains_passage (works_of_mem_starts together.works t mem)

end Session

end Reckon
