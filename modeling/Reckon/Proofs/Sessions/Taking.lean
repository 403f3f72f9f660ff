import Reckon.Proofs.Meaning.Sessions

/-! # What a form does to a module

Taking a form changes the functions of a module in one of three ways: not at all, as when it fails
or is a bare expression; by a new declaration; or by giving a named function its body. So a module
only grows: a name that it has stays with its function, and a body that it has stays as it is.
-/

namespace Reckon

open Ir

namespace Ir.Module

variable {m m' : Module} {form : Form}

/-- What taking a form comes to, in a module without a bare expression's function. -/
inductive Takes (m : Module) : Form → Module → Prop
  /-- The form fails, is a bare expression, or declares what is there. -/
  | stays {form : Form} {m' : Module} : m.SameFunctions m' → Takes m form m'
  /-- A name is declared. -/
  | declares {p : Prototype} : m.lookup? p.symbol = none →
    Takes m (.declaration p) (m.addFunction p.symbol p.params).2
  /-- A named function gets its body. -/
  | defines {d : Definition} {m₁ m' : Module} {id : FunctionId} {code : List Instr}
    {value : Value} : d.prototype.isAnonymous = false → d.Defines m m₁ m' id code value →
    Takes m (.definition d) m'

namespace Takes

theorem integral (takes : m.Takes form m') (h : m.Integral) (spelled : form.isSpelled = true) :
    m'.Integral := by
  cases takes with
  | stays same => exact h.sameFunctions same
  | @declares p absent =>
      rw [← declared_of_none absent]
      exact h.declared _ _
  | defines _ defines => exact defines.integral h (Form.isSpelled_definition spelled).1

/-- At most the name of the form comes behind the names that were there. -/
theorem functionNames (takes : m.Takes form m') (h : m.Orderly) :
    m'.functionNames = m.functionNames ∨ form.isBare = false ∧
      m'.functionNames = m.functionNames ++ [form.prototype.symbol] := by
  cases takes with
  | stays same => exact .inl (by simp only [Module.functionNames, same.functions])
  | @declares p absent =>
      exact .inr ⟨rfl, functionNames_addFunction m p.symbol p.params⟩
  | @defines d m₁ _ id code value named defines =>
      rw [defines.functionNames_eq h]
      have declared := defines.declared
      cases lookup : m.lookup? d.prototype.symbol with
      | some other =>
          rw [declared_of_some lookup] at declared
          cases declared
          exact .inl rfl
      | none =>
          rw [declared_of_none lookup] at declared
          cases declared
          exact .inr ⟨named, functionNames_addFunction m _ _⟩

theorem sameFunctions (takes : m.Takes form m') (bare : form.isBare = true) :
    m.SameFunctions m' := by
  cases takes with
  | stays same => exact same
  | declares => contradiction
  | defines named _ => cases bare.symm.trans named

end Takes

end Ir.Module

namespace Backend

theorem sameFunctions_of_bare {d : Definition} {m m₁ m' : Module} {id : FunctionId}
    {code : List Instr} {value : Value} (h : m.Orderly)
    (absent : anonymousSymbol ∉ m.functionNames) (bare : d.prototype.isAnonymous = true)
    (defines : d.Defines m m₁ m' id code value) : m.SameFunctions (m'.deleteFunction id) := by
  have new := Module.lookup?_eq_none.mpr absent
  rw [← Prototype.symbol_of_anonymous bare] at new
  have declared := defines.declared
  rw [Module.declared_of_none new] at declared
  cases declared
  have begun : (m.addFunction d.prototype.symbol d.prototype.params).2.Begun ⟨m.nextId⟩ m' :=
    .inr ⟨_, _, defines.result.trans (h.setParamNames_addFunction _ _)⟩
  exact begun.deleteFunction h

/-- Taking a form changes the functions in one of three ways. -/
theorem take_takes {b : Backend} (h : b.target.Orderly)
    (absent : anonymousSymbol ∉ b.target.functionNames) (form : Form) :
    b.target.Takes form (b.take form).target := by
  cases form with
  | declaration p =>
      simp only [take, Form.compile, p.declare_eq b]
      cases lookup : b.target.lookup? p.symbol with
      | none =>
          rw [Module.declared_of_none lookup]
          exact .declares lookup
      | some id =>
          rw [Module.declared_of_some lookup]
          exact .stays (.refl _)
  | definition d =>
      have outcome := d.compile_ensures h
      cases run : (Form.definition d).compile b with
      | error e b' =>
          simp only [take, run]
          exact .stays (outcome.of_error run).2
      | ok id b' =>
          obtain ⟨-, m₁, code, value, defines⟩ := outcome.of_ok run
          cases bare : d.prototype.isAnonymous with
          | true =>
              simp only [take, run, Form.isBare, bare, if_true]
              exact .stays (sameFunctions_of_bare h absent bare defines)
          | false =>
              simp only [take, run, Form.isBare, bare, if_false, Bool.false_eq_true]
              exact .defines bare defines

end Backend

/-- What a function keeps while its module grows. -/
structure Ir.Function.Endures (f g : Function) : Prop where
  id : g.id = f.id
  name : g.name = f.name
  arity : g.params.length = f.params.length
  /-- A body stays, and so do the names of its parameters. -/
  body : f.body ≠ none → g.body = f.body ∧ g.params = f.params

namespace Ir.Function.Endures

variable {f g k : Function}

theorem refl (f : Function) : f.Endures f := ⟨rfl, rfl, rfl, fun _ => ⟨rfl, rfl⟩⟩

theorem trans (first : f.Endures g) (second : g.Endures k) : f.Endures k where
  id := second.id.trans first.id
  name := second.name.trans first.name
  arity := second.arity.trans first.arity
  body hasBody := by
    obtain ⟨body, params⟩ := first.body hasBody
    obtain ⟨body', params'⟩ := second.body (body ▸ hasBody)
    exact ⟨body'.trans body, params'.trans params⟩

end Ir.Function.Endures

namespace Ir.Module

variable {m m' m'' : Module} {form : Form}

/-- The module has grown: names came behind the old ones, and every function is still there and is
    the one that its name stands for. -/
structure Persists (m m' : Module) : Prop where
  names : m.functionNames <+: m'.functionNames
  functions : ∀ f ∈ m.functions, ∃ g ∈ m'.functions, f.Endures g
  lookup : ∀ f ∈ m.functions, m'.lookup? f.name = some f.id

namespace Persists

/-- Where no two functions share a name, an enduring function is the one that its name stands
    for. -/
theorem of_endures (h : m'.Integral) (names : m.functionNames <+: m'.functionNames)
    (functions : ∀ f ∈ m.functions, ∃ g ∈ m'.functions, f.Endures g) : m.Persists m' where
  names := names
  functions := functions
  lookup f hf := by
    obtain ⟨g, hg, endures⟩ := functions f hf
    rw [← endures.name, ← endures.id]
    exact h.lookup?_of_mem hg

theorem refl (h : m.Integral) : m.Persists m :=
  of_endures h (List.prefix_refl _) fun f hf => ⟨f, hf, .refl f⟩

theorem trans (first : m.Persists m') (second : m'.Persists m'') : m.Persists m'' where
  names := first.names.trans second.names
  functions f hf := by
    obtain ⟨g, hg, endures⟩ := first.functions f hf
    obtain ⟨k, hk, endures'⟩ := second.functions g hg
    exact ⟨k, hk, endures.trans endures'⟩
  lookup f hf := by
    obtain ⟨g, hg, endures⟩ := first.functions f hf
    rw [← endures.name, ← endures.id]
    exact second.lookup g hg

theorem of_functions_eq (h : m'.Integral) (same : m'.functions = m.functions) : m.Persists m' :=
  of_endures h (by simp only [functionNames, same, List.prefix_refl])
    fun f hf => ⟨f, same ▸ hf, .refl f⟩

theorem declared (h : m.Integral) (name : String) (params : List String) :
    m.Persists (m.declared name params).2 := by
  have h' := h.declared name params
  cases lookup : m.lookup? name with
  | some id =>
      rw [declared_of_some lookup]
      exact .refl h
  | none =>
      rw [declared_of_none lookup] at h' ⊢
      refine of_endures h' ?_ fun f hf => ⟨f, List.mem_append_left _ hf, .refl f⟩
      rw [functionNames_addFunction]
      exact List.prefix_append _ _

end Persists

end Ir.Module

theorem Definition.Defines.persists {d : Definition} {m m₁ m' : Module} {id : FunctionId}
    {code : List Instr} {value : Value} (defines : d.Defines m m₁ m' id code value)
    (h : m.Integral) (h' : m'.Integral) : m.Persists m' := by
  have first := Module.Persists.declared h d.prototype.symbol d.prototype.params
  rw [defines.declared] at first
  refine first.trans (.of_endures h' ?_ fun f hf => ?_)
  · simp only [defines.functionNames_eq h.toOrderly, List.prefix_refl]
  · by_cases hasBody : f.body = none
    · -- Only a declaration can be the function that changes.
      obtain ⟨g, found, -, arity⟩ := defines.found h.toOrderly
      rw [defines.result_eq h.toOrderly]
      refine ⟨_, List.mem_map_of_mem hf, ?_⟩
      split
      · next same =>
        obtain rfl := (defines.orderly h.toOrderly).eq_of_function? found hf same
        exact ⟨rfl, rfl, arity.symm, fun some => absurd hasBody some⟩
      · exact .refl f
    · exact ⟨f, defines.body_stays h.toOrderly hf hasBody, .refl f⟩

/-- Whatever a form comes to, the module has at most grown. -/
theorem Ir.Module.Takes.persists {m m' : Module} {form : Form} (takes : m.Takes form m')
    (h : m.Integral) (spelled : form.isSpelled = true) : m.Persists m' := by
  have h' := takes.integral h spelled
  cases takes with
  | stays same => exact .of_functions_eq h' same.functions
  | @declares p absent =>
      rw [← declared_of_none absent]
      exact .declared h _ _
  | defines _ defines => exact defines.persists h h'

end Reckon
