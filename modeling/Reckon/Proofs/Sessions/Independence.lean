import Reckon.Proofs.Compile.Commuting
import Reckon.Proofs.Sessions.Reports

/-! # Sessions whose forms change places

Forms that do not see each other may change places in a session. Both are reported as they were, and
so is every form behind them: the modules hold the same functions, in another order and under other
ids, which no report shows.
-/

namespace Reckon

open Ir

theorem Form.compile_ensures_tidy (form : Form) {b : Backend} (h : b.target.Tidy) :
    Ensures form.compile b (fun _ b' => b'.target.Tidy) fun _ b' => b'.target.Tidy := by
  cases form with
  | declaration p =>
      simp only [Ensures, Form.compile, p.declare_eq b]
      exact h.declared p.symbol p.params
  | definition d =>
      refine (d.compile_ensures h.toOrderly).mono ?_ ?_
      · rintro id b' ⟨-, m₁, code, value, defines⟩
        exact defines.tidy h
      · rintro e b' ⟨-, same⟩
        exact h.sameFunctions same

/-- Code generation leads to the backend from an empty module: any forms are compiled, whether a
    source can spell them or not, with any plans of faults, and any functions lose their bodies or
    are removed. -/
inductive Backend.Generated : Backend → Prop where
  | empty (name : String) (canEvaluate : Bool) :
      Generated { target := .empty name, canEvaluate }
  | setFaults {b : Backend} (faults : FaultPlan) : Generated b → Generated (b.setFaults faults)
  | compile {b : Backend} (form : Form) : Generated b → Generated (leaves form.compile b)
  | clearBody {b : Backend} (id : FunctionId) :
      Generated b → Generated (b.onTarget (·.clearBody id))
  | remove {b : Backend} (id : FunctionId) : Generated b → Generated (b.remove id)

theorem Backend.Generated.tidy {b : Backend} (h : b.Generated) : b.target.Tidy := by
  induction h with
  | empty name canEvaluate => exact .empty name
  | setFaults faults _ ih => exact ih
  | compile form _ ih => exact (form.compile_ensures_tidy ih).holds_leaves
  | clearBody id _ ih => exact ih.clearBody id
  | remove id _ ih => exact ih.deleteFunction id

theorem Backend.Compiled.generated {b : Backend} (h : b.Compiled) : b.Generated := by
  induction h with
  | empty name canEvaluate => exact .empty name canEvaluate
  | setFaults faults _ ih => exact ih.setFaults faults
  | compile _ _ ih => exact ih.compile _
  | remove _ _ ih => exact ih.remove _

namespace Form

variable {b : Backend}

theorem leaves_leads (form : Form) (clean : b.faults = {}) (h : b.target.Tidy) :
    form.Leads b.target (leaves form.compile b).target :=
  ((form.compile_leads clean h).mono (fun _ _ good => good.1) fun _ _ bad => bad.1).holds_leaves

theorem leaves_plan (form : Form) (b : Backend) :
    (leaves form.compile b).faults = b.faults ∧
      (leaves form.compile b).canEvaluate = b.canEvaluate :=
  (form.compile_keeps_plan b).holds_leaves

theorem compile_eq (form : Form) (clean : b.faults = {}) (h : b.target.Tidy) :
    form.compile b = match form.verdict b.target with
      | .ok f => .ok f.id (leaves form.compile b)
      | .error e => .error e (leaves form.compile b) := by
  have outcome := form.compile_leads clean h
  cases run : form.compile b with
  | ok id c =>
      obtain ⟨-, f, done, rfl⟩ := outcome.of_ok run
      rw [done, leaves_of_ok run]
  | error e c =>
      obtain ⟨-, refused⟩ := outcome.of_error run
      rw [refused, leaves_of_error run]

end Form

namespace Backend

def compileAll (b : Backend) (forms : List Form) : Backend :=
  forms.foldl (fun b form => leaves form.compile b) b

/-- Backends without planned faults whose modules differ in nothing but order and ids. -/
structure Reordered (σ : Equiv.Perm FunctionId) (b b' : Backend) : Prop where
  modules : b.target.Reordered σ b'.target
  faults : b.faults = {}
  faults' : b'.faults = {}
  canEvaluate : b'.canEvaluate = b.canEvaluate

namespace Reordered

variable {σ : Equiv.Perm FunctionId} {b b' : Backend} {form : Form}

theorem leads (reordered : b.Reordered σ b') (form : Form) :
    form.Leads b.target (leaves form.compile b).target :=
  form.leaves_leads reordered.faults reordered.modules.left

theorem compile (reordered : b.Reordered σ b') (form : Form) :
    (leaves form.compile b).Reordered σ (leaves form.compile b') where
  modules := reordered.modules.leads (reordered.leads form)
    (form.leaves_leads reordered.faults' reordered.modules.right)
  faults := (form.leaves_plan b).1.trans reordered.faults
  faults' := (form.leaves_plan b').1.trans reordered.faults'
  canEvaluate := by rw [(form.leaves_plan b').2, (form.leaves_plan b).2, reordered.canEvaluate]

/-- Both refuse a form for the same reason, or both give it a function. -/
theorem compile_cases (reordered : b.Reordered σ b') (form : Form) :
    (∃ e, form.compile b = .error e (leaves form.compile b) ∧
        form.compile b' = .error e (leaves form.compile b')) ∨
      ∃ f, form.verdict b.target = .ok f ∧ form.compile b = .ok f.id (leaves form.compile b) ∧
        form.compile b' = .ok (σ f.id) (leaves form.compile b') := by
  have here := form.compile_eq reordered.faults reordered.modules.left
  have there := form.compile_eq reordered.faults' reordered.modules.right
  rw [reordered.modules.verdict_eq] at there
  cases done : form.verdict b.target with
  | error e =>
      rw [done] at here there
      exact .inl ⟨e, here, there⟩
  | ok f =>
      rw [done] at here there
      exact .inr ⟨f, rfl, here, there⟩

theorem entry_eq (reordered : b.Reordered σ b') (evaluate : Bool) (form : Form) :
    b'.entry evaluate form = b.entry evaluate form := by
  rcases reordered.compile_cases form with ⟨e, run, run'⟩ | ⟨f, done, run, run'⟩
  · simp only [entry, Form.compiles, report, run, run']
  · have after := reordered.compile form
    have text := after.modules.textOf_eq f.id
    have value : (leaves form.compile b').evaluate (σ f.id) =
        (leaves form.compile b).evaluate f.id := by
      simp only [Backend.evaluate, after.faults, after.faults', after.canEvaluate,
        after.modules.evaluate_eq ((reordered.leads form).function?_of_verdict done)]
    simp only [entry, Form.compiles, report, valueText, run, run', text, value]

theorem compileAll (reordered : b.Reordered σ b') (forms : List Form) :
    (b.compileAll forms).Reordered σ (b'.compileAll forms) := by
  induction forms generalizing b b' with
  | nil => exact reordered
  | cons form forms ih => exact ih (reordered.compile form)

/-- Both take a form: each removes the function of a bare expression again. -/
theorem take_cases (reordered : b.Reordered σ b') (form : Form) :
    b.take form = leaves form.compile b ∧ b'.take form = leaves form.compile b' ∨
      ∃ f ∈ (leaves form.compile b).target.functions, f.name = anonymousSymbol ∧
        b.take form = (leaves form.compile b).remove f.id ∧
        b'.take form = (leaves form.compile b').remove (σ f.id) := by
  rcases reordered.compile_cases form with ⟨e, run, run'⟩ | ⟨f, done, run, run'⟩
  · left
    simp only [Backend.take, run, run', and_self]
  · cases bare : form.isBare with
    | false =>
        left
        simp only [Backend.take, run, run', bare, Bool.false_eq_true, if_false, and_self]
    | true =>
        have anonymous : f.name = anonymousSymbol := by
          cases form with
          | declaration p => contradiction
          | definition d =>
              exact (Form.verdict_standing done).2.trans (Prototype.symbol_of_anonymous bare)
        have found := (reordered.leads form).function?_of_verdict done
        refine .inr ⟨f, Module.mem_of_function? found, anonymous, ?_⟩
        simp only [Backend.take, run, run', bare, if_true, and_self]

/-- Taking forms keeps the backends so, where removing functions of bare expressions does. -/
theorem take (reordered : b.Reordered σ b') (erasable : b.target.Erasable σ)
    (steady : form.Calls anonymousSymbol → b.target.Steady σ) :
    (b.take form).Reordered σ (b'.take form) ∧ (b.take form).target.Erasable σ := by
  have after := reordered.compile form
  have erasable := erasable.leads reordered.modules (reordered.leads form) steady
  rcases reordered.take_cases form with ⟨same, same'⟩ | ⟨f, hf, anonymous, same, same'⟩
  · rw [same, same']
    exact ⟨after, erasable⟩
  · rw [same, same']
    exact ⟨⟨after.modules.deleteFunction erasable hf anonymous, after.faults, after.faults',
      after.canEvaluate⟩, erasable.deleteFunction f.id⟩

theorem steady_take (reordered : b.Reordered σ b') (steady : b.target.Steady σ) (form : Form) :
    (b.take form).target.Steady σ := by
  have steady := steady.leads reordered.modules (reordered.leads form)
  rcases reordered.take_cases form with ⟨same, -⟩ | ⟨f, -, -, same, -⟩
  · rwa [same]
  · rw [same]
    exact steady.deleteFunction f.id

/-- Both make the same of forms that do not call by its name the function of a bare expression, or
    of any forms where that function has its id in both. -/
theorem transcript_eq (reordered : b.Reordered σ b') (erasable : b.target.Erasable σ)
    (evaluate : Bool) (forms : List Form)
    (apart : (∀ form ∈ forms, ¬form.Calls anonymousSymbol) ∨ b.target.Steady σ) :
    b'.transcript evaluate forms = b.transcript evaluate forms := by
  induction forms generalizing b b' with
  | nil => rfl
  | cons form forms ih =>
      have steady : form.Calls anonymousSymbol → b.target.Steady σ := fun calls =>
        apart.resolve_left fun never => never form List.mem_cons_self calls
      have later : (∀ form ∈ forms, ¬form.Calls anonymousSymbol) ∨
          (b.take form).target.Steady σ :=
        apart.imp (fun never f mem => never f (List.mem_cons_of_mem _ mem))
          fun steady => reordered.steady_take steady form
      obtain ⟨after, erasable'⟩ := reordered.take erasable steady
      exact congrArg₂ List.cons (reordered.entry_eq evaluate form) (ih after erasable' later)

end Reordered

end Backend

namespace Form

variable {f g : Form} {b : Backend}

/-- What the form comes to: the function as it is printed, or what is wrong with the form. -/
def printed (form : Form) (b : Backend) : Except CompileError String :=
  (outcome form.compile b).map (leaves form.compile b).target.textOf

theorem printed_eq (form : Form) (clean : b.faults = {}) (h : b.target.Tidy) :
    form.printed b =
      (form.verdict b.target).map (leaves form.compile b).target.functionText := by
  have run := form.compile_eq clean h
  have leads := form.leaves_leads clean h
  cases done : form.verdict b.target with
  | error e =>
      rw [done] at run
      rw [printed, outcome_of_error run]
      rfl
  | ok f =>
      rw [done] at run
      rw [printed, outcome_of_ok run]
      simp only [Except.map, Module.textOf, leads.function?_of_verdict done]

theorem orders (independent : f.Independent g) (clean : b.faults = {}) (h : b.target.Tidy) :
    f.Orders g b.target (leaves f.compile b).target (leaves g.compile b).target
      (leaves g.compile (leaves f.compile b)).target
      (leaves f.compile (leaves g.compile b)).target where
  toIndependent := independent
  tidy := h
  alone := f.leaves_leads clean h
  alone' := g.leaves_leads clean h
  second := g.leaves_leads ((f.leaves_plan b).1.trans clean) (f.leaves_leads clean h).tidy
  second' := f.leaves_leads ((g.leaves_plan b).1.trans clean) (g.leaves_leads clean h).tidy

/-- Behind a form that it does not see, a form comes to what it comes to without it. -/
theorem printed_behind (independent : f.Independent g) (clean : b.faults = {}) (h : b.target.Tidy) :
    f.printed (leaves g.compile b) = f.printed b := by
  have orders := orders independent clean h
  rw [f.printed_eq clean h, f.printed_eq ((g.leaves_plan b).1.trans clean) orders.alone'.tidy,
    orders.verdict_eq]
  cases done : f.verdict b.target with
  | error e => simp only [Except.map]
  | ok k => simp only [Except.map, orders.functionText_eq done]

theorem reordered (independent : f.Independent g) (clean : b.faults = {}) (h : b.target.Tidy) :
    (leaves g.compile (leaves f.compile b)).Reordered
      (b.target.exchange (leaves f.compile b).target (leaves g.compile b).target)
      (leaves f.compile (leaves g.compile b)) where
  modules := (orders independent clean h).reordered
  faults := (g.leaves_plan _).1.trans ((f.leaves_plan b).1.trans clean)
  faults' := (f.leaves_plan _).1.trans ((g.leaves_plan b).1.trans clean)
  canEvaluate := by
    rw [(f.leaves_plan _).2, (g.leaves_plan _).2, (g.leaves_plan _).2, (f.leaves_plan _).2]

end Form

/-- Independent forms commute. In whichever order two named forms are compiled, of which neither
    calls the other, each comes to the function, or the error, that it comes to alone. The modules
    then have the same functions, in another order and with new ids exchanged. Any form behind them
    is reported alike, however many are compiled between; and in a session, which removes the
    function of each bare expression again, every form is, unless one of the two took the name of
    these functions and is called by it, which no source can spell. -/
theorem independent_forms_commute {b : Backend} (generated : b.Generated)
    (noFaults : b.faults = {}) {f g : Form} (named : f.prototype.name ≠ "")
    (named' : g.prototype.name ≠ "") (different : f.prototype.name ≠ g.prototype.name)
    (blind : ¬f.Calls g.prototype.name) (blind' : ¬g.Calls f.prototype.name) :
    let fg := leaves g.compile (leaves f.compile b)
    let gf := leaves f.compile (leaves g.compile b)
    f.printed (leaves g.compile b) = f.printed b ∧
      g.printed (leaves f.compile b) = g.printed b ∧
      (∃ σ : Equiv.Perm FunctionId, (∀ id, id.index < b.target.nextId → σ id = id) ∧
        fg.target.Mirrors σ gf.target) ∧
      (∀ forms evaluate form,
        (gf.compileAll forms).entry evaluate form = (fg.compileAll forms).entry evaluate form) ∧
      ∀ forms,
        ((∀ form ∈ forms, ¬form.Calls anonymousSymbol) ∨
          f.prototype.name ≠ anonymousSymbol ∧ g.prototype.name ≠ anonymousSymbol) →
        ∀ evaluate, gf.transcript evaluate forms = fg.transcript evaluate forms := by
  intro fg gf
  have tidy := generated.tidy
  have symbol := Prototype.symbol_of_named named
  have symbol' := Prototype.symbol_of_named named'
  have independent : f.Independent g :=
    ⟨by rwa [symbol, symbol'], by rwa [symbol'], by rwa [symbol]⟩
  have orders := Form.orders independent noFaults tidy
  have reordered := Form.reordered independent noFaults tidy
  refine ⟨Form.printed_behind independent noFaults tidy,
    Form.printed_behind independent.symm noFaults tidy,
    ⟨_, fun _ => orders.exchange_old, reordered.modules.mirrors⟩,
    fun forms evaluate form => (reordered.compileAll forms).entry_eq evaluate form,
    fun forms apart evaluate =>
      reordered.transcript_eq orders.erasable evaluate forms (apart.imp_right ?_)⟩
  rintro ⟨notF, notG⟩
  exact orders.steady (symbol ▸ notF) (symbol' ▸ notG)

/-- Two definitions that call themselves: their ids tell which one was first, and no source does. -/
theorem independent_forms_commute_exchanged :
    ∃ (b : Backend) (f g : Form), b = .empty "m" ∧
      f = .definition ⟨⟨"f", ["x"]⟩, .call "f" [.var "x"]⟩ ∧
      g = .definition ⟨⟨"g", []⟩, .call "g" []⟩ ∧
      (leaves g.compile (leaves f.compile b)).target.functionNames = ["f", "g"] ∧
      (leaves f.compile (leaves g.compile b)).target.functionNames = ["g", "f"] ∧
      ∀ forms : List Form, (∀ form ∈ forms, form.isSpelled = true) → ∀ evaluate,
        (leaves f.compile (leaves g.compile b)).transcript evaluate forms =
          (leaves g.compile (leaves f.compile b)).transcript evaluate forms := by
  let f : Form := .definition ⟨⟨"f", ["x"]⟩, .call "f" [.var "x"]⟩
  let g : Form := .definition ⟨⟨"g", []⟩, .call "g" []⟩
  have blind : ¬f.Calls "g" := by simp [f, Form.Calls, Expr.parts, argParts]
  have blind' : ¬g.Calls "f" := by simp [g, Form.Calls, Expr.parts, argParts]
  obtain ⟨-, -, -, -, later⟩ := independent_forms_commute (b := .empty "m") (.empty "m" true) rfl
    (f := f) (g := g) (by decide) (by decide) (by decide) blind blind'
  exact ⟨_, f, g, rfl, rfl, rfl, by decide +kernel, by decide +kernel, fun forms spelled =>
    later forms (.inl fun form mem => Form.not_calls_anonymousSymbol (spelled form mem))⟩

end Reckon
