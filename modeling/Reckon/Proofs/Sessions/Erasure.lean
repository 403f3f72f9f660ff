import Reckon.Proofs.Compile.Copies
import Reckon.Proofs.Compile.Rollback
import Reckon.Proofs.Sessions.History
import Reckon.Proofs.Sessions.Reports
import Reckon.Proofs.Sessions.Resynchronisation

/-! # Forms that leave no trace

Bare expressions and forms that fail to compile use up function ids, and that is all they do to the
forms behind them. Erase any of them from a session, and every other form is reported as before,
and the module that is written last is the same text.
-/

namespace Reckon

open Ir

/-- The second list is left of the first one when some elements that may go are erased. -/
inductive Erases (mayGo : α → Prop) : List α → List α → Prop
  | nil : Erases mayGo [] []
  | keep {x : α} {xs ys : List α} : Erases mayGo xs ys → Erases mayGo (x :: xs) (x :: ys)
  | erase {x : α} {xs ys : List α} : mayGo x → Erases mayGo xs ys → Erases mayGo (x :: xs) ys

/-- What was made of a bare expression, or of a form that failed to compile. -/
def Entry.Erasable (e : Entry) : Prop := e.form.isBare = true ∨ e.compiled = false

namespace Backend

variable {b b' : Backend} {ρ : FunctionId → FunctionId} {form : Form}

/-- What holds of a backend without planned faults between two forms. -/
structure Clean (b : Backend) : Prop where
  integral : b.target.Integral
  transient : anonymousSymbol ∉ b.target.functionNames
  faults : b.faults = {}

namespace Clean

theorem take (clean : b.Clean) (spelled : form.isSpelled = true) : (b.take form).Clean := by
  have takes := take_takes clean.integral.toOrderly clean.transient form
  exact ⟨takes.integral clean.integral spelled,
    takes.anonymousSymbol_not_mem clean.integral.toOrderly spelled clean.transient,
    (take_keeps_plan b form).1.trans clean.faults⟩

theorem sameFunctions (clean : b.Clean) {evaluate : Bool}
    (erasable : (b.entry evaluate form).Erasable) :
    b.target.SameFunctions (b.take form).target := by
  rcases erasable with bare | failed
  · exact (take_takes clean.integral.toOrderly clean.transient form).sameFunctions bare
  · have rollback := form.compile_ensures_rollback clean.integral.toOrderly
    cases run : form.compile b with
    | error e c => simpa only [Backend.take, run] using rollback.of_error run
    | ok id c => simp [entry, Form.compiles, run] at failed

end Clean

/-- Two backends without planned faults that differ in nothing but function ids. -/
structure Twins (ρ : FunctionId → FunctionId) (b b' : Backend) : Prop where
  left : b.Clean
  right : b'.Clean
  copies : b.target.Copies ρ b'.target
  canEvaluate : b'.canEvaluate = b.canEvaluate

namespace Twins

theorem refl (clean : b.Clean) : b.Twins (fun id => id) b := ⟨clean, clean, .refl _, rfl⟩

/-- One of the two takes a form that may be erased. -/
theorem erase (twins : b.Twins ρ b') (spelled : form.isSpelled = true) {evaluate : Bool}
    (erasable : (b.entry evaluate form).Erasable) : (b.take form).Twins ρ b' where
  left := twins.left.take spelled
  right := twins.right
  copies := twins.copies.sameFunctions (twins.left.sameFunctions erasable) (.refl _)
  canEvaluate := twins.canEvaluate.trans (take_keeps_plan b form).2.symm

theorem entry_eq (twins : b.Twins ρ b') (spelled : form.isSpelled = true) (evaluate : Bool) :
    b'.entry evaluate form = b.entry evaluate form := by
  have alike := form.compile_alike twins.left.faults twins.right.faults twins.left.integral
    twins.right.integral twins.copies
  generalize run : form.compile b = made, run' : form.compile b' = made' at alike
  cases alike with
  | refused => simp only [entry, Form.compiles, report, run, run']
  | @compiled ρ' id f c c' copies found =>
      have integral := (Form.compile_ensures_integral spelled twins.left.integral).of_ok run
      have integral' := (Form.compile_ensures_integral spelled twins.right.integral).of_ok run'
      obtain ⟨faults, can⟩ := (form.compile_keeps_plan b).of_ok run
      obtain ⟨faults', can'⟩ := (form.compile_keeps_plan b').of_ok run'
      have text := copies.mirrors.textOf_eq integral integral'.toOrderly found
      have value : c'.evaluate (ρ' id) = c.evaluate id := by
        simp only [Backend.evaluate, faults, faults', can, can', twins.canEvaluate,
          twins.left.faults, twins.right.faults,
          copies.mirrors.evaluate_eq integral integral'.toOrderly found]
      simp only [entry, Form.compiles, report, valueText, run, run', text, value]

theorem take (twins : b.Twins ρ b') (spelled : form.isSpelled = true) :
    ∃ ρ', (b.take form).Twins ρ' (b'.take form) := by
  have canEvaluate : (b'.take form).canEvaluate = (b.take form).canEvaluate := by
    rw [(take_keeps_plan b form).2, (take_keeps_plan b' form).2, twins.canEvaluate]
  suffices ∃ ρ', (b.take form).target.Copies ρ' (b'.take form).target by
    obtain ⟨ρ', copies⟩ := this
    exact ⟨ρ', twins.left.take spelled, twins.right.take spelled, copies, canEvaluate⟩
  have same := twins.entry_eq spelled true
  by_cases erasable : (b.entry true form).Erasable
  · refine ⟨ρ, twins.copies.sameFunctions ?_ ?_⟩
    · exact twins.left.sameFunctions erasable
    · exact twins.right.sameFunctions (same ▸ erasable)
  · have alike := form.compile_alike twins.left.faults twins.right.faults twins.left.integral
      twins.right.integral twins.copies
    simp only [Entry.Erasable, entry, Form.compiles, not_or, Bool.not_eq_true] at erasable
    generalize run : form.compile b = made, run' : form.compile b' = made' at alike
    cases alike with
    | refused => simp [run] at erasable
    | @compiled ρ' id f c c' copies found =>
        refine ⟨ρ', ?_⟩
        simpa only [Backend.take, run, run', erasable.1, Bool.false_eq_true, if_false] using copies

/-- One of two twins takes all forms, and the other one those that were not erased. -/
theorem takeAll (twins : b.Twins ρ b') {evaluate : Bool} {forms : List Form} {kept : List Entry}
    (spelled : ∀ f ∈ forms, f.isSpelled = true)
    (erases : Erases Entry.Erasable (b.transcript evaluate forms) kept) :
    b'.transcript evaluate (kept.map (·.form)) = kept ∧
      ∃ ρ', (b.takeAll forms).Twins ρ' (b'.takeAll (kept.map (·.form))) := by
  induction forms generalizing ρ b b' kept with
  | nil =>
      cases erases
      exact ⟨rfl, ρ, twins⟩
  | cons form forms ih =>
      have first := spelled form List.mem_cons_self
      have later := fun f mem => spelled f (List.mem_cons_of_mem _ mem)
      cases erases with
      | keep rest =>
          obtain ⟨ρ', twins'⟩ := twins.take first
          obtain ⟨sameRest, twins''⟩ := ih twins' later rest
          exact ⟨congrArg₂ List.cons (twins.entry_eq first evaluate) sameRest, twins''⟩
      | erase erasable rest => exact ih (twins.erase first erasable) later rest

end Twins

end Backend

namespace Session

/-- Bare expressions and failed forms leave no trace. Where no faults are planned, let the second
    source spell those forms of the first one that are left when any bare expressions and any
    forms that fail to compile are erased. Then what the second run makes of its forms is what the
    first run made of them, which is what both write about them, and both runs write the same text
    of their modules last. -/
theorem erased_forms_leave_no_trace {s : Session} (compiled : s.backend.Compiled)
    (absent : anonymousSymbol ∉ s.backend.target.functionNames) (noFaults : s.backend.faults = {})
    {table table' : Operators} {source source' : Source} {kept : List Entry}
    (erases : Erases Entry.Erasable (s.reading table source.feed).transcript kept)
    (forms : (s.reading table' source'.feed).forms = kept.map (·.form)) :
    (s.reading table' source'.feed).transcript = kept ∧
      (s.reading table source.feed).Accounted ∧ (s.reading table' source'.feed).Accounted ∧
      ∀ t t', run (s.reading table source.feed) = .ok () t →
        run (s.reading table' source'.feed) = .ok () t' →
        ∃ u u' : Session, t = u.wrote u.backend.target.text ∧ t' = u'.wrote u'.backend.target.text ∧
          u'.backend.target.text = u.backend.target.text := by
  have clean : s.backend.Clean := ⟨compiled.integral, absent, noFaults⟩
  have spelled : ∀ f ∈ (s.reading table source.feed).forms, f.isSpelled = true := by
    intro f mem
    obtain ⟨t, started, found⟩ := List.mem_filterMap.mp mem
    exact (settled_of_mem_starts compiled.integral absent started).spelled.form? found
  rw [transcript_eq] at erases
  obtain ⟨same, ρ, twins⟩ := (Backend.Twins.refl clean).takeAll spelled erases
  refine ⟨?_, accounted _, accounted _, ?_⟩
  · rw [transcript_eq, forms]
    exact same
  · intro t t' ran ran'
    obtain ⟨u, -, -, made, wrote⟩ := run_last ran
    obtain ⟨u', -, -, made', wrote'⟩ := run_last ran'
    refine ⟨u, u', wrote, wrote', ?_⟩
    rw [forms] at made'
    rw [made, made']
    exact twins.copies.text_eq twins.left.integral twins.right.integral.toOrderly

/-- The first two forms are erased, so that `f` has another id, but not another text. -/
theorem erased_forms_leave_no_trace_renumbered :
    ∃ (s : Session) (source source' : Source) (kept : List Entry),
      source = .ofString "1\ndef g(x) y\ndef f(x) x\nf(1)\n" ∧
      source' = .ofString "def f(x) x\nf(1)\n" ∧
      (leaves run (s.reading .standard source.feed)).backend.target.functions.map (·.id) =
        [⟨2⟩] ∧
      (leaves run (s.reading .standard source'.feed)).backend.target.functions.map (·.id) =
        [⟨0⟩] ∧
      Erases Entry.Erasable (s.reading .standard source.feed).transcript kept ∧
      (s.reading .standard source'.feed).transcript = kept ∧
      ∃ u u' : Session, run (s.reading .standard source.feed) =
          .ok () (u.wrote u.backend.target.text) ∧
        run (s.reading .standard source'.feed) = .ok () (u'.wrote u'.backend.target.text) ∧
        u'.backend.target.text = u.backend.target.text := by
  let s : Session := ⟨.ofFeed (.ofTokens []), .empty "m", {}, {}⟩
  let source : Source := .ofString "1\ndef g(x) y\ndef f(x) x\nf(1)\n"
  let source' : Source := .ofString "def f(x) x\nf(1)\n"
  let gone : List Token :=
    [.number .one, .define, .ident "g", .char '(', .ident "x", .char ')', .ident "y"]
  let left : List Token :=
    [.define, .ident "f", .char '(', .ident "x", .char ')', .ident "x", .ident "f", .char '(',
      .number .one, .char ')']
  have feed : source.feed = .ofTokens (gone ++ left) := by decide +kernel
  have feed' : source'.feed = .ofTokens left := by decide +kernel
  let f : Form := .definition ⟨⟨"f", ["x"]⟩, .var "x"⟩
  let g : Form := .definition ⟨⟨"g", ["x"]⟩, .var "y"⟩
  let use : Form := (Expr.call "f" [.number .one]).toForm
  have forms' : (s.reading .standard source'.feed).forms = [f, use] := by
    rw [feed', forms_reading rfl]
    rfl
  have forms : (s.reading .standard source.feed).forms =
      [(Expr.number .one).toForm, g, f, use] := by
    rw [feed', forms_reading rfl] at forms'
    rw [feed, forms_reading rfl, Parser.formsFrom_append .define _ (by decide), forms']
    rfl
  obtain ⟨kept, keeps, erases⟩ : ∃ kept : List Entry, [f, use] = kept.map (·.form) ∧
      Erases Entry.Erasable (s.reading .standard source.feed).transcript kept := by
    rw [transcript_eq, forms]
    exact ⟨_, rfl, .erase (.inl rfl) (.erase (.inr (by decide +kernel)) (.keep (.keep .nil)))⟩
  obtain ⟨same, -, -, sameText⟩ := erased_forms_leave_no_trace (s := s) (.empty "m" true)
    List.not_mem_nil rfl erases (forms'.trans keeps)
  refine ⟨s, source, source', kept, rfl, rfl, ?_, ?_, erases, same, ?_⟩
  · rw [feed]
    decide +kernel
  · rw [feed']
    decide +kernel
  · obtain ⟨t, ran, -⟩ := run_reading (s := s) rfl .standard (gone ++ left)
    obtain ⟨t', ran', -⟩ := run_reading (s := s) rfl .standard left
    rw [← feed] at ran
    rw [← feed'] at ran'
    obtain ⟨u, u', rfl, rfl, text⟩ := sameText t t' ran ran'
    exact ⟨u, u', ran, ran', text⟩

end Session

end Reckon
