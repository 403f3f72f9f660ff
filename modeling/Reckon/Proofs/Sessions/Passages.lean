import Reckon.Proofs.Compile.Operations
import Reckon.Proofs.Meaning.Sessions
import Reckon.Proofs.Sessions.Turns

/-! # What a round has to say

How a session talks is its voice: its options, and whether its backend can evaluate. What a round
has to say is the same for all voices, since neither parsing nor compiling asks for them. A voice
says of it what every voice says, and adds prompts and the values of bare expressions.
-/

namespace Reckon

/-- The backend as one that evaluates nothing. -/
def Backend.mute (b : Backend) : Backend :=
  { b with faults := { b.faults with evaluate := true }, canEvaluate := false }

/-- No step of the compiler asks if the backend can evaluate. -/
theorem Compile.closed_mute : Compile.Closed fun _ => Commutes Backend.mute where
  pure := .pure
  throw := .throw
  bind := .bind
  query _ _ := rfl
  addFunction _ _ _ := rfl
  onTarget _ _ := rfl
  undoing undo step same b := by
    unfold Ensures undoing
    cases run : step b with
    | ok a t => simp only [(same b).of_ok run]
    | error e t =>
        simp only [(same b).of_error run]
        rfl
  openBody id b := by
    have plan : b.mute.faults.entry = b.faults.entry := rfl
    unfold Ensures lift Backend.openBody
    by_cases planned : b.faults.entry = true
    · simp only [plan, if_pos planned]
    · have same : b.mute.target = b.target := rfl
      simp only [plan, if_neg planned, Backend.lift, same]
      cases Ir.Build.openBody id b.target <;> rfl
  build operation build _ b := by
    have plan : b.mute.faults.build = b.faults.build := rfl
    have count : b.mute.builds = b.builds := rfl
    unfold Ensures lift Backend.build
    by_cases planned : b.faults.build = some (b.builds + 1)
    · simp only [plan, count, if_pos planned]
      rfl
    · have same : b.mute.target = b.target := rfl
      simp only [plan, count, if_neg planned, Backend.lift, same]
      cases build b.target <;> rfl
  verify id good bad goodToo badToo := by
    refine Commutes.get (fun _ => rfl) fun b => ?_
    split
    · exact goodToo
    · exact badToo

theorem Form.compile_mute (form : Form) : Commutes Backend.mute form.compile :=
  form.compile_closed Compile.closed_mute

namespace Backend

theorem take_keeps_plan (b : Backend) (form : Form) :
    (b.take form).faults = b.faults ∧ (b.take form).canEvaluate = b.canEvaluate := by
  have kept := form.compile_keeps_plan b
  cases run : form.compile b with
  | error e c => simpa only [take, run] using kept.of_error run
  | ok id c =>
      obtain ⟨faults, canEvaluate⟩ := kept.of_ok run
      simp only [take, run]
      split <;> exact ⟨faults, canEvaluate⟩

theorem takeAll_keeps_plan (b : Backend) (forms : List Form) :
    (b.takeAll forms).faults = b.faults ∧ (b.takeAll forms).canEvaluate = b.canEvaluate := by
  induction forms generalizing b with
  | nil => exact ⟨rfl, rfl⟩
  | cons form forms ih =>
      obtain ⟨faults, canEvaluate⟩ := ih (b.take form)
      have first := b.take_keeps_plan form
      exact ⟨faults.trans first.1, canEvaluate.trans first.2⟩

theorem take_mute (b : Backend) (form : Form) : (b.take form).mute = b.mute.take form := by
  have same := form.compile_mute b
  cases run : form.compile b with
  | ok id b' =>
      simp only [take, run, same.of_ok run]
      split <;> rfl
  | error e b' => simp only [take, run, same.of_error run]

theorem takeAll_mute (b : Backend) (forms : List Form) :
    (b.takeAll forms).mute = b.mute.takeAll forms := by
  induction forms generalizing b with
  | nil => rfl
  | cons form forms ih =>
      exact (ih (b.take form)).trans (congrArg (takeAll · forms) (b.take_mute form))

end Backend

/-- How a session talks. -/
structure Voice where
  options : Options
  canEvaluate : Bool
  /-- The plan of faults lets no function be evaluated. -/
  refuses : Bool
  deriving DecidableEq, Repr

/-- Values are told: they are wanted, and there are any. -/
def Voice.evaluates (v : Voice) : Bool := v.options.evaluate && v.canEvaluate && !v.refuses

/-- What the voice says before the first round. -/
def Voice.opening (v : Voice) : String := if v.options.prompt then "ready> " else ""

/-- The line that tells the value of a bare expression, or why it has none. -/
def valueLine : Except Ir.Error Double → String
  | .ok value => s!"Evaluated to {value.plain}" ++ "\n"
  | .error e => s!"Error: {e.message}" ++ "\n"

/-- What a round has to say. -/
structure Passage where
  /-- What every voice says. -/
  report : String := ""
  /-- The value of a bare expression that was accepted, or why it has none. -/
  value : Option (Except Ir.Error Double) := none
  /-- A form was handled, and the session goes on. -/
  prompts : Bool := false

/-- What the voice says of it. -/
def Passage.text (passage : Passage) (v : Voice) : String :=
  passage.report ++ (if v.evaluates then (passage.value.map valueLine).getD "" else "") ++
    if passage.prompts && v.options.prompt then "ready> " else ""

/-- What is to be said of a form. -/
def Backend.passage (b : Backend) (form : Form) : Passage :=
  match form.compile b with
  | .error e _ => { report := s!"Error: {e.message}" ++ "\n", prompts := true }
  | .ok id b =>
    { report := form.heading ++ "\n" ++ b.target.textOf id
      value := if form.isBare then b.target.evaluate id else none
      prompts := true }

/-- Where a session is, whatever its voice. -/
structure Place where
  parser : Parser
  /-- The backend as one that evaluates nothing. -/
  backend : Backend

/-- What the round from here has to say. -/
def Place.passage (here : Place) : Passage :=
  match here.parser.finding with
  | .nothing | .separator | .mistake (.read (.failed _)) _ => {}
  | .form form _ => here.backend.passage form
  | .mistake e q =>
    { report := s!"Error: {e.message}" ++ "\n", prompts := (outcome (Parser.resume e) q).isOk }

/-- What the voice says of the rounds from these places, one after the other. -/
def Voice.tells (v : Voice) (places : List Place) : String :=
  String.join (places.map fun p => p.passage.text v)

theorem Voice.tells_cons (v : Voice) (p : Place) (places : List Place) :
    v.tells (p :: places) = p.passage.text v ++ v.tells places := by
  rw [tells, List.map_cons, String.join_cons]
  rfl

namespace Session

def place (s : Session) : Place := ⟨s.parser, s.backend.mute⟩

def voice (s : Session) : Voice := ⟨s.options, s.backend.canEvaluate, s.backend.faults.evaluate⟩

def voiced (s : Session) (v : Voice) : Session :=
  { s with
    options := v.options
    backend := { s.backend with
      canEvaluate := v.canEvaluate
      faults := { s.backend.faults with evaluate := v.refuses } } }

end Session

theorem Passage.text_empty (v : Voice) : Passage.text {} v = "" := by
  cases v.evaluates <;> simp [text]

theorem Backend.passage_mute (b : Backend) (form : Form) :
    b.mute.passage form = b.passage form := by
  have same := form.compile_mute b
  cases run : form.compile b with
  | ok id b' =>
      simp only [passage, run, same.of_ok run]
      rfl
  | error e b' => simp only [passage, run, same.of_error run]

theorem Backend.passage_prompts (b : Backend) (form : Form) : (b.passage form).prompts = true := by
  unfold passage
  cases form.compile b <;> rfl

namespace Place

variable {p : Place}

theorem passage_of_eof (atEnd : p.parser.current = .eof) : p.passage = {} := by
  simp only [passage, Parser.finding_of_eof atEnd]

theorem passage_of_separator (separator : p.parser.current = .char ';') :
    p.passage = {} := by
  simp only [passage, Parser.finding_of_separator separator]

variable (atForm : p.parser.AtForm)
include atForm

theorem passage_of_form {form : Form} {q : Parser} (read : Parser.form p.parser = .ok form q) :
    p.passage = p.backend.passage form := by
  simp only [passage, atForm.finding_eq, read]

theorem passage_of_failed {reason : String} {q : Parser}
    (failed : Parser.form p.parser = .error (.read (.failed reason)) q) :
    p.passage = {} := by
  simp only [passage, atForm.finding_eq, failed]

theorem passage_of_mistake {e : ParseError} {q : Parser}
    (bad : Parser.form p.parser = .error e q)
    (notFailed : ∀ reason, e ≠ .read (.failed reason)) :
    p.passage = {
      report := s!"Error: {e.message}" ++ "\n"
      prompts := (outcome (Parser.resume e) q).isOk } := by
  simp only [passage, atForm.finding_eq, bad]

omit atForm in
/-- The prompt belongs to the rounds that handle a form and go on. -/
theorem passage_prompts_iff :
    p.passage.prompts = true ↔ p.parser.AtForm ∧ ∃ q, p.parser.turn = .ok true q := by
  rcases p.parser.turn_cases with here | here | atForm
  · rw [passage_of_eof here]
    exact ⟨fun prompts => (by cases prompts), fun h => absurd here h.1.isToken⟩
  · rw [passage_of_separator here]
    exact ⟨fun prompts => (by cases prompts), fun h => absurd here h.1.noSeparator⟩
  · rw [and_iff_right atForm]
    cases read : Parser.form p.parser with
    | ok f q =>
        rw [passage_of_form atForm read, Backend.passage_prompts, atForm.turn_of_ok read]
        exact ⟨fun _ => ⟨q, rfl⟩, fun _ => rfl⟩
    | error e q =>
        rw [atForm.turn_of_error read]
        rcases e.failed_or with ⟨reason, rfl⟩ | notFailed
        · rw [passage_of_failed atForm read]
          exact ⟨fun prompts => (by cases prompts), fun ⟨_, turned⟩ => (by cases turned)⟩
        · rw [passage_of_mistake atForm read notFailed]
          cases resumed : Parser.resume e q with
          | ok _ r =>
              rw [bind_of_ok resumed, outcome_of_ok resumed]
              exact ⟨fun _ => ⟨r, rfl⟩, fun _ => rfl⟩
          | error e' r =>
              rw [bind_of_error resumed, outcome_of_error resumed]
              exact ⟨fun prompts => (by cases prompts), fun ⟨_, turned⟩ => (by cases turned)⟩

end Place

end Reckon
