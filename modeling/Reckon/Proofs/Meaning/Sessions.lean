import Reckon.Proofs.Meaning.Definitions
import Reckon.Session

/-! # What sessions evaluate

Forms are compiled one after the other, and the function of a bare expression goes once it was
used. Evaluating a bare expression then gives what it means under the definitions that compiled, at
whatever point of the session each of them came, and however deep calls go.
-/

namespace Reckon

open Ir

/-- A body gives what it means, if the calls in it do. -/
theorem Ir.Function.Implements.runInstrs_eq {d : Definition} {f : Function} {body : List Instr}
    {callee? : String → Option (FunctionId × Nat)} (implements : f.Implements callee? d)
    (hasBody : f.body = some body) {byName : String → List Double → Except Error Double}
    {call : FunctionId → List Double → Except Error Double} {malformed : Error}
    {args : List Double} (arity : args.length = f.params.length)
    (answers : ∀ name ∈ d.body.names, ∀ id values, callee? name = some (id, values.length) →
      call id values = byName name values) :
    runInstrs call malformed args (.replicate f.nextTemp .zero) body =
      d.body.eval byName (boundTo d.prototype.params args) := by
  obtain ⟨code, value, lowered, isDefined⟩ := implements
  rw [isDefined] at hasBody arity ⊢
  cases hasBody
  refine runInstrs_ret (Expr.lower_runs (Scope.ofParams_holds arity) d.body _ lowered ?_ answers)
  simp only [Function.defined, Array.size_replicate, Nat.zero_add, Nat.le_refl]

namespace Ir.Module.Represents

variable {m : Module} {definitions : List Definition}

/-- Calling a function by its id is calling its name among the definitions, at the depth that the
    frames left say. -/
theorem call_eq (h : m.Represents definitions) (frames depth : Nat)
    (left : frames + depth = maxCallDepth + 1) (name : String) (id : FunctionId)
    (args : List Double) (named : name ≠ anonymousSymbol)
    (known : m.callee? name = some (id, args.length)) :
    m.call frames id args = callNamed definitions depth name args := by
  -- On the frames left and not on the body: a body may call its own name, or one that got its
  -- body later, and what both sides have in common is only the depth.
  induction frames generalizing depth name id args with
  | zero =>
      have tooDeep : 256 < depth := by
        unfold maxCallDepth at left
        omega
      rw [callNamed, if_pos tooDeep, call, maxCallDepth]
  | succ frames ih =>
      have inLimit : ¬256 < depth := by
        unfold maxCallDepth at left
        omega
      obtain ⟨f, found, hf, rfl, arity⟩ := h.toOrderly.function?_of_callee? known
      rw [callNamed, if_neg inLimit]
      simp only [call, found]
      cases first : definitions.find? (·.prototype.name = f.name) with
      | none =>
          have undefined : f.body = none := by
            by_contra hasBody
            obtain ⟨d, hd, sameName⟩ := h.covered f hf named hasBody
            exact List.find?_eq_none.mp first d hd (decide_eq_true sameName)
          simp only [undefined, callHost_eq]
      | some d =>
          have hd := List.mem_of_find?_eq_some first
          have sameName : d.prototype.name = f.name := by simpa using List.find?_some first
          obtain ⟨g, hg, gName, implements⟩ := h.implemented d hd
          obtain rfl : g = f := h.eq_of_name_eq hg hf (gName.trans sameName)
          cases hasBody : g.body with
          | none =>
              obtain ⟨code, value, -, isDefined⟩ := implements
              rw [isDefined] at hasBody
              contradiction
          | some body =>
              refine implements.runInstrs_eq hasBody arity.symm ?_
              intro name used id values known
              have spelled := List.all_eq_true.mp (h.spelled d hd).2 name used
              exact ih (depth + 1) (by omega) name id values (ne_anonymousSymbol spelled) known

end Ir.Module.Represents

namespace Backend

/-- Compiles a form and removes a bare expression's function. -/
def take (b : Backend) (form : Form) : Backend :=
  match form.compile b with
  | .ok id b => if form.isBare then b.remove id else b
  | .error _ b => b

def takeAll (b : Backend) (forms : List Form) : Backend := forms.foldl take b

/-- The definition that taking a form puts in force: a form that has a name and compiles. -/
def defined (b : Backend) (form : Form) : List Definition :=
  match form, form.compile b with
  | .definition d, .ok _ _ => if d.prototype.isAnonymous then [] else [d]
  | _, _ => []

def allDefined (b : Backend) : List Form → List Definition
  | [] => []
  | form :: forms => b.defined form ++ (b.take form).allDefined forms

end Backend

theorem Form.isSpelled_definition {d : Definition}
    (spelled : (Form.definition d).isSpelled = true) :
    d.body.isSpelled = true ∧
      (d.prototype.isAnonymous = true ∨ isIdentifier d.prototype.name = true) := by
  simp only [Form.isSpelled, Bool.and_eq_true, Bool.or_eq_true, decide_eq_true_eq,
    Prototype.isSpelled] at spelled
  refine ⟨spelled.2, spelled.1.imp (fun bare => ?_) And.left⟩
  rw [bare]
  rfl

theorem Ir.Module.Represents.take {b : Backend} {definitions : List Definition} {form : Form}
    (h : b.target.Represents definitions) (spelled : form.isSpelled = true) :
    (b.take form).target.Represents (definitions ++ b.defined form) := by
  cases form with
  | declaration p =>
      simp only [Backend.take, Backend.defined, Form.compile, p.declare_eq b, List.append_nil]
      exact h.declared p.symbol p.params
  | definition d =>
      obtain ⟨bodySpelled, name⟩ := Form.isSpelled_definition spelled
      have outcome := d.compile_ensures h.toOrderly
      cases run : (Form.definition d).compile b with
      | error e b' =>
          simp only [Backend.take, Backend.defined, run, List.append_nil]
          exact h.sameFunctions (outcome.of_error run).2
      | ok id b' =>
          obtain ⟨-, m₁, code, value, defines⟩ := outcome.of_ok run
          cases bare : d.prototype.isAnonymous with
          | true =>
              simp only [Backend.take, Backend.defined, run, Form.isBare, bare, if_true,
                List.append_nil]
              have after := h.define_bare defines bare bodySpelled
              obtain ⟨f, found, symbol, -⟩ := h.implements defines bodySpelled
              have lookup := after.lookup?_of_mem (Module.mem_of_function? found)
              rw [symbol, Prototype.symbol_of_anonymous bare, Module.id_of_function? found]
                at lookup
              exact after.deleteFunction lookup
          | false =>
              simp only [Backend.take, Backend.defined, run, Form.isBare, bare, if_false,
                Bool.false_eq_true]
              exact h.define defines (name.resolve_left (by simp [bare])) bodySpelled

theorem Ir.Module.Represents.takeAll {b : Backend} {definitions : List Definition}
    {forms : List Form} (h : b.target.Represents definitions)
    (spelled : ∀ form ∈ forms, form.isSpelled = true) :
    (b.takeAll forms).target.Represents (definitions ++ b.allDefined forms) := by
  induction forms generalizing b definitions with
  | nil =>
      simp only [Backend.allDefined, List.append_nil]
      exact h
  | cons form forms ih =>
      have first := h.take (spelled form List.mem_cons_self)
      have rest := ih first fun form hform => spelled form (List.mem_cons_of_mem _ hform)
      rw [List.append_assoc] at rest
      exact rest

/-- Compiling preserves meaning: after any forms, a bare expression that compiles evaluates to what
    it means under the definitions that compiled, or fails with the same error. -/
theorem compiled_expression_evaluates {name : String} {forms : List Form} {e : Expr}
    {id : FunctionId} {b : Backend} (formsSpelled : ∀ form ∈ forms, form.isSpelled = true)
    (spelled : e.isSpelled = true)
    (compiled : e.toForm.compile ((Backend.empty name).takeAll forms) = .ok id b) :
    b.target.evaluate id = some (e.meaning ((Backend.empty name).allDefined forms)) := by
  have start : (Backend.empty name).target.Represents [] := .empty name
  have before := start.takeAll formsSpelled
  rw [List.nil_append] at before
  let d : Definition := ⟨.anonymous, e⟩
  obtain ⟨-, m₁, code, value, defines⟩ := (d.compile_ensures before.toOrderly).of_ok compiled
  have after := before.define_bare defines rfl spelled
  obtain ⟨f, found, -, params, implements⟩ := before.implements defines spelled
  have noParams : f.params = [] := params
  cases hasBody : f.body with
  | none =>
      obtain ⟨code, value, -, isDefined⟩ := implements
      rw [isDefined] at hasBody
      contradiction
  | some body =>
      simp only [Module.evaluate, found, Option.map_some, noParams, List.isEmpty_nil, if_true,
        Module.call, hasBody]
      refine congrArg some ?_
      refine implements.runInstrs_eq hasBody (congrArg List.length noParams.symm) ?_
      intro name used id values known
      have named := ne_anonymousSymbol (List.all_eq_true.mp spelled name used)
      exact after.call_eq maxCallDepth 1 rfl name id values named known

/-- `g` was compiled when `f` was only declared, and calls the body that `f` got afterwards. -/
theorem compiled_expression_evaluates_forward :
    ∃ forms id b, forms = [.declaration ⟨"f", ["x"]⟩,
        .definition ⟨⟨"g", ["x"]⟩, .call "f" [.var "x"]⟩, (Expr.number .one).toForm,
        .definition ⟨⟨"f", ["y"]⟩, .var "y"⟩] ∧
      (Expr.call "g" [.number .one]).toForm.compile ((Backend.empty "m").takeAll forms) =
        .ok id b ∧
      b.target.evaluate id = some ((Expr.call "g" [.number .one]).meaning
        ((Backend.empty "m").allDefined forms)) ∧
      b.target.evaluate id = some (.ok .one) := by
  refine ⟨_, _, _, rfl, rfl, ?_, rfl⟩
  exact compiled_expression_evaluates (by decide) (by decide) rfl

end Reckon
