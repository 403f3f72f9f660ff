import Reckon.Proofs.Parsing.Spelled
import Reckon.Proofs.Sessions.Outputs
import Reckon.Proofs.Sessions.Taking

/-! # What a session leaves behind

Between two rounds of a session no function of a bare expression is left in the module, and no name
in the source could have asked for one. So the module is made by the forms that have a name, and
from one round to any later one it only grows.
-/

namespace Reckon

namespace Parser

theorem Spelled.form? {p : Parser} (h : p.Spelled) {f : Form} (found : p.form? = some f) :
    f.isSpelled = true := by
  obtain ⟨-, q, read⟩ := form?_eq_some found
  exact ((form_spells p h).of_ok read).1

end Parser

/-- The names that a form gives and reads: of its function, its parameters, and in its body. -/
def Form.names : Form → List String
  | .declaration p => p.name :: p.params
  | .definition d => d.prototype.name :: (d.prototype.params ++ d.body.names)

theorem Prototype.anonymousSymbol_not_mem {p : Prototype} (spelled : p.isSpelled = true) :
    anonymousSymbol ∉ p.name :: p.params := by
  simp only [isSpelled, Bool.and_eq_true] at spelled
  intro mem
  rcases List.mem_cons.mp mem with same | mem
  · exact ne_anonymousSymbol spelled.1 same.symm
  · exact ne_anonymousSymbol (List.all_eq_true.mp spelled.2 _ mem) rfl

namespace Form

variable {f : Form}

theorem anonymousSymbol_not_mem (spelled : f.isSpelled = true) : anonymousSymbol ∉ f.names := by
  cases f with
  | declaration p => exact Prototype.anonymousSymbol_not_mem spelled
  | definition d =>
      simp only [isSpelled, Bool.and_eq_true, Bool.or_eq_true, decide_eq_true_eq] at spelled
      obtain ⟨prototype, body⟩ := spelled
      have inBody : anonymousSymbol ∉ d.body.names :=
        fun mem => ne_anonymousSymbol (List.all_eq_true.mp body _ mem) rfl
      have inPrototype : anonymousSymbol ∉ d.prototype.name :: d.prototype.params := by
        rcases prototype with bare | named
        · rw [bare]
          decide
        · exact Prototype.anonymousSymbol_not_mem named
      simp only [names, ← List.cons_append, List.mem_append, not_or]
      exact ⟨inPrototype, inBody⟩

theorem symbol_ne_anonymousSymbol (spelled : f.isSpelled = true) (named : f.isBare = false) :
    f.prototype.symbol ≠ anonymousSymbol := by
  have absent := anonymousSymbol_not_mem spelled
  cases f with
  | declaration p =>
      simp only [isSpelled, Prototype.isSpelled, Bool.and_eq_true] at spelled
      rw [prototype, Prototype.symbol_of_identifier spelled.1]
      exact ne_anonymousSymbol spelled.1
  | definition d =>
      have isNamed : d.prototype.isAnonymous = false := named
      have other := (isSpelled_definition spelled).2.resolve_left (by simp [isNamed])
      rw [prototype, Prototype.symbol_of_identifier other]
      exact ne_anonymousSymbol other

end Form

theorem Ir.Module.Takes.anonymousSymbol_not_mem {m m' : Ir.Module} {form : Form}
    (takes : m.Takes form m') (h : m.Orderly) (spelled : form.isSpelled = true)
    (absent : anonymousSymbol ∉ m.functionNames) : anonymousSymbol ∉ m'.functionNames := by
  rcases takes.functionNames h with same | ⟨named, added⟩
  · rwa [same]
  · rw [added, List.mem_append, List.mem_singleton, not_or]
    exact ⟨absent, (form.symbol_ne_anonymousSymbol spelled named).symm⟩

namespace Session

/-- What holds of a session on a source wherever a round starts. -/
structure Settled (s : Session) : Prop where
  integral : s.backend.target.Integral
  transient : anonymousSymbol ∉ s.backend.target.functionNames
  spelled : s.parser.Spelled

/-- What a round does to the module is what its form does, if it reads one. -/
theorem Settled.takes {s t : Session} (h : s.Settled) {more : Bool} (run : round s = .ok more t) :
    s.parser.form? = none ∧ t.backend = s.backend ∨
      ∃ f, s.parser.form? = some f ∧ f.isSpelled = true ∧
        s.backend.target.Takes f t.backend.target := by
  have backend : t.backend = s.backend.takeAll s.parser.form?.toList :=
    (follows_of_round run).2.backend
  cases found : s.parser.form? with
  | none =>
      rw [found] at backend
      exact .inl ⟨rfl, backend⟩
  | some f =>
      rw [found] at backend
      have taken : t.backend = s.backend.take f := backend
      refine .inr ⟨f, rfl, h.spelled.form? found, ?_⟩
      rw [taken]
      exact Backend.take_takes h.integral.toOrderly h.transient f

theorem Settled.round {s t : Session} (h : s.Settled) (run : round s = .ok true t) :
    t.Settled := by
  have spelled := (Parser.turn_takes (follows_of_round run).1).1.spelled h.spelled
  rcases h.takes run with ⟨-, same⟩ | ⟨f, -, formSpelled, takes⟩
  · exact ⟨same ▸ h.integral, same ▸ h.transient, spelled⟩
  · exact ⟨takes.integral h.integral formSpelled,
      takes.anonymousSymbol_not_mem h.integral.toOrderly formSpelled h.transient, spelled⟩

theorem Settled.persists {s t : Session} (h : s.Settled) (onward : GoesOnTo s t) :
    t.Settled ∧ s.backend.target.Persists t.backend.target := by
  induction onward with
  | refl => exact ⟨h, .refl h.integral⟩
  | tail _ run ih =>
      obtain ⟨settled, persists⟩ := ih
      refine ⟨settled.round run, persists.trans ?_⟩
      rcases settled.takes run with ⟨-, same⟩ | ⟨f, -, spelled, takes⟩
      · rw [same]
        exact .refl settled.integral
      · exact takes.persists settled.integral spelled

theorem settled_of_mem_starts {s t : Session} (integral : s.backend.target.Integral)
    (transient : anonymousSymbol ∉ s.backend.target.functionNames) {table : Operators}
    {source : Source} (mem : t ∈ (s.reading table source.feed).starts) : t.Settled := by
  refine forall_mem_starts (P := Settled) (fun u begun => ?_) (fun _ _ run h => h.round run) t mem
  obtain ⟨read, follows⟩ := follows_of_begin begun
  have same : u.backend = s.backend := follows.backend
  refine ⟨same ▸ integral, same ▸ transient, ?_⟩
  -- The table of operators has no part in it.
  have ahead : (s.reading table source.feed).parser.Spelled := Parser.ofFeed_spelled source
  exact (Parser.Moves.of_advance read).spelled ahead

/-- Functions of bare expressions are transient. Whatever the source, the operators, the options,
    the plan of faults and the output are, none is in the module where a round starts, nor in the
    module that is written last; a bare expression leaves all functions as they were; and no form
    of the source names one or has one of that name. -/
theorem bare_expressions_leave_no_function {s : Session} (compiled : s.backend.Compiled)
    (absent : anonymousSymbol ∉ s.backend.target.functionNames) (table : Operators)
    (source : Source) :
    (∀ t ∈ (s.reading table source.feed).starts,
      anonymousSymbol ∉ t.backend.target.functionNames ∧
      ∀ f, t.parser.form? = some f →
        anonymousSymbol ∉ f.names ∧
        (f.isBare = false → f.prototype.symbol ≠ anonymousSymbol) ∧
        (t.sink.failure = none → ∃ u, round t = .ok true u) ∧
        (f.isBare = true → ∀ u, round t = .ok true u →
          u.backend.target.functions = t.backend.target.functions)) ∧
    ∀ t, run (s.reading table source.feed) = .ok () t →
      anonymousSymbol ∉ t.backend.target.functionNames ∧
      ∃ u, t = Session.wrote u t.backend.target.text := by
  have settled : ∀ t ∈ (s.reading table source.feed).starts, t.Settled :=
    fun t mem => settled_of_mem_starts compiled.integral absent mem
  refine ⟨fun t mem => ⟨(settled t mem).transient, fun f found => ?_⟩, fun t ran => ?_⟩
  · have h := settled t mem
    have spelled := h.spelled.form? found
    refine ⟨f.anonymousSymbol_not_mem spelled, f.symbol_ne_anonymousSymbol spelled,
      fun works => ?_, fun bare u run => ?_⟩
    · obtain ⟨atForm, q, read⟩ := Parser.form?_eq_some found
      obtain ⟨u, run, -⟩ := (round_turn works).of_ok (atForm.turn_of_ok read)
      exact ⟨u, run⟩
    · rcases h.takes run with ⟨none, -⟩ | ⟨f', found', -, takes⟩
      · cases none.symm.trans found
      · cases found.symm.trans found'
        exact (takes.sameFunctions bare).functions
  · obtain ⟨u, mem, -, -, rfl⟩ := run_last ran
    exact ⟨(settled u mem).transient, u, rfl⟩

/-- The second form is evaluated, and the third one fails at a planned fault. -/
theorem bare_expressions_leave_no_function_used :
    ∃ (s : Session) (source : Source),
      s.backend = (Backend.empty "m").setFaults { build := some 3 } ∧
      source = .ofString "def f(x) x\n2\nf(1)\n" ∧
      (s.reading .standard source.feed).starts.map (·.backend.target.functionNames) =
        [[], ["f"], ["f"], ["f"]] ∧
      ∀ t ∈ (s.reading .standard source.feed).starts,
        anonymousSymbol ∉ t.backend.target.functionNames := by
  let s : Session :=
    ⟨.ofFeed (.ofTokens []), (Backend.empty "m").setFaults { build := some 3 }, {}, {}⟩
  let two : Double := ⟨0x4000000000000000⟩
  have feed : (Source.ofString "def f(x) x\n2\nf(1)\n").feed =
      .ofTokens [.define, .ident "f", .char '(', .ident "x", .char ')', .ident "x", .number two,
        .ident "f", .char '(', .number .one, .char ')'] := by decide +kernel
  refine ⟨s, _, rfl, rfl, by rw [feed]; decide +kernel, fun t mem => ?_⟩
  have compiled : s.backend.Compiled := (Backend.Compiled.empty "m" true).setFaults _
  exact ((bare_expressions_leave_no_function compiled List.not_mem_nil .standard _).1 t mem).1

/-- Names once bound are permanent, and definitions do not change: from each round to every later
    one the module has only grown. -/
theorem starts_persist {s : Session} (compiled : s.backend.Compiled)
    (absent : anonymousSymbol ∉ s.backend.target.functionNames) (table : Operators)
    (source : Source) :
    (s.reading table source.feed).starts.Pairwise fun t u =>
      t.backend.target.Persists u.backend.target := by
  refine (starts_pairwise _).imp_of_mem fun mem _ onward => ?_
  exact ((settled_of_mem_starts compiled.integral absent mem).persists onward).2

/-- A declaration gets its body between the second and the third round, and keeps its id. -/
theorem starts_persist_defined :
    ∃ (s : Session) (source : Source), source = .ofString "extern f(x)\ndef f(y) y\n" ∧
      (s.reading .standard source.feed).starts.map (·.backend.target.functions) =
        [[], [⟨⟨0⟩, "f", ["x"], none, 0⟩], [⟨⟨0⟩, "f", ["y"], some [.ret (.param 0)], 0⟩]] ∧
      (s.reading .standard source.feed).starts.Pairwise fun t u =>
        t.backend.target.Persists u.backend.target := by
  have feed : (Source.ofString "extern f(x)\ndef f(y) y\n").feed =
      .ofTokens [.declare, .ident "f", .char '(', .ident "x", .char ')', .define, .ident "f",
        .char '(', .ident "y", .char ')', .ident "y"] := by decide +kernel
  let s : Session := ⟨.ofFeed (.ofTokens []), .empty "m", {}, {}⟩
  refine ⟨s, _, rfl, by rw [feed]; decide +kernel, ?_⟩
  exact starts_persist (.empty "m" true) List.not_mem_nil .standard _

end Session

end Reckon
