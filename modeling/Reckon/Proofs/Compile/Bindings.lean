import Reckon.Proofs.Compile.Copies
import Reckon.Proofs.Compile.Forward

/-! # What a form makes of its name

A module is known from what its names stand for. Without planned faults, a form changes what its
own name stands for and nothing else: `Form.verdict` says to which function, or why not, and
`Form.Leads` what the module is then.
-/

namespace Reckon

open Ir

namespace Ir.Module

variable {m : Module} {f : Function} {id : FunctionId} {name other : String}
  {params : List String}

/-- What no form and no removal of a function can break. -/
structure Tidy (m : Module) : Prop extends m.Orderly where
  names : m.functionNames.Nodup
  /-- No body calls a function that is still to come. -/
  given : ∀ f ∈ m.functions, ∀ id ∈ f.callees, id.index < m.nextId

/-- Where names are distinct, what a name stands for is the function of that name. -/
theorem named?_eq_some_iff (distinct : m.functionNames.Nodup) :
    m.named? name = some f ↔ f ∈ m.functions ∧ f.name = name := by
  constructor
  · intro named
    exact ⟨List.mem_of_find?_eq_some named, by simpa using List.find?_some named⟩
  · rintro ⟨hf, rfl⟩
    exact named?_of_nodup distinct hf

theorem named?_eq_none_iff : m.named? name = none ↔ m.lookup? name = none := by
  rw [lookup?_eq_named?, Option.map_eq_none_iff]

theorem named?_update (change : Function → Function) (keepsName : ∀ f, (change f).name = f.name) :
    (m.update id change).named? name =
      (m.named? name).map fun f => if f.id = id then change f else f := by
  simp only [named?, update, List.find?_map]
  congr 2
  funext f
  simp only [Function.comp]
  split <;> simp only [keepsName]

theorem nextId_leave (m : Module) (id : FunctionId) : (m.leave id).nextId = m.nextId := by
  unfold leave
  split <;> rfl

theorem nextId_deleteFunction : (m.deleteFunction id).nextId = m.nextId := nextId_leave _ id

theorem nextId_clearBody : (m.clearBody id).nextId = m.nextId := nextId_leave _ id

/-- The function that has the name once it is declared. -/
def standing (m : Module) (name : String) (params : List String) : Function :=
  (m.named? name).getD ⟨⟨m.nextId⟩, name, params, none, 0⟩

theorem declared_fst : (m.declared name params).1 = (m.standing name params).id := by
  cases lookup : m.lookup? name with
  | none =>
      rw [declared_of_none lookup, standing, named?_eq_none_iff.mpr lookup]
      rfl
  | some id =>
      rw [declared_of_some lookup]
      rw [lookup?_eq_named?] at lookup
      obtain ⟨f, named, rfl⟩ := Option.map_eq_some_iff.mp lookup
      rw [standing, named, Option.getD_some]

theorem named?_declared : (m.declared name params).2.named? other =
    if other = name then some (m.standing name params) else m.named? other := by
  cases lookup : m.lookup? name with
  | none =>
      have absent := named?_eq_none_iff.mpr lookup
      rw [declared_of_none lookup, named?_addFunction]
      by_cases same : other = name
      · subst same
        simp only [standing, absent, Option.none_or, if_true, Option.getD_none]
      · simp only [if_neg same, if_neg (Ne.symm same), Option.or_none]
  | some id =>
      rw [declared_of_some lookup]
      split
      · next same =>
        subst same
        rw [lookup?_eq_named?] at lookup
        obtain ⟨f, named, -⟩ := Option.map_eq_some_iff.mp lookup
        rw [standing, named, Option.getD_some]
      · rfl

theorem nextId_declared : (m.declared name params).2.nextId =
    if m.named? name = none then m.nextId + 1 else m.nextId := by
  cases lookup : m.lookup? name with
  | none =>
      rw [declared_of_none lookup, if_pos (named?_eq_none_iff.mpr lookup)]
      rfl
  | some id =>
      have present : m.named? name ≠ none := by
        rw [Ne, named?_eq_none_iff, lookup]
        exact Option.some_ne_none id
      rw [declared_of_some lookup, if_neg present]

theorem standing_cases (m : Module) (name : String) (params : List String) :
    (m.named? name = some (m.standing name params)) ∨
      m.named? name = none ∧ m.standing name params = ⟨⟨m.nextId⟩, name, params, none, 0⟩ := by
  unfold standing
  cases m.named? name with
  | none => exact .inr ⟨rfl, rfl⟩
  | some f => exact .inl rfl

theorem standing_name (m : Module) (name : String) (params : List String) :
    (m.standing name params).name = name := by
  rcases m.standing_cases name params with named | ⟨-, new⟩
  · simpa using List.find?_some named
  · rw [new]

namespace Tidy

theorem empty (name : String) : (Module.empty name).Tidy where
  toOrderly := .empty name
  names := .nil
  given := by simp [Module.empty]

theorem sameFunctions {m' : Module} (h : m.Tidy) (same : m.SameFunctions m') : m'.Tidy where
  toOrderly := h.toOrderly.of_functions_eq same.functions same.nextId
  names := by simpa only [functionNames, same.functions] using h.names
  given f hf id called :=
    Nat.lt_of_lt_of_le (h.given f (same.functions ▸ hf) id called) same.nextId

theorem declared (h : m.Tidy) (name : String) (params : List String) :
    (m.declared name params).2.Tidy := by
  cases lookup : m.lookup? name with
  | some id =>
      rw [declared_of_some lookup]
      exact h
  | none =>
      rw [declared_of_none lookup]
      refine ⟨h.addFunction name params, ?_, fun f hf id called => ?_⟩
      · rw [functionNames_addFunction]
        exact h.names.append (List.nodup_singleton name) (by simpa using lookup?_eq_none.mp lookup)
      · rcases List.mem_append.mp hf with hf | hf
        · exact Nat.lt_succ_of_lt (h.given f hf id called)
        · rw [List.mem_singleton.mp hf] at called
          contradiction

theorem deleteFunction (h : m.Tidy) (id : FunctionId) : (m.deleteFunction id).Tidy where
  toOrderly := h.toOrderly.deleteFunction id
  names := by
    rw [functionNames, functions_deleteFunction]
    exact h.names.sublist (List.filter_sublist.map _)
  given f hf callee called := by
    rw [functions_deleteFunction] at hf
    rw [nextId_deleteFunction]
    exact h.given f (List.mem_of_mem_filter hf) callee called

theorem clearBody (h : m.Tidy) (id : FunctionId) : (m.clearBody id).Tidy where
  toOrderly := h.toOrderly.clearBody id
  names := by
    have kept : (m.clearBody id).functionNames = m.functionNames := by
      simp only [functionNames, Module.clearBody, functions_leave, update, List.map_map]
      refine List.map_congr_left fun f _ => ?_
      simp only [Function.comp]
      split <;> rfl
    rw [kept]
    exact h.names
  given f hf callee called := by
    rw [nextId_clearBody]
    simp only [Module.clearBody, functions_leave, update] at hf
    obtain ⟨g, hg, rfl⟩ := List.mem_map.mp hf
    split at called
    · exact absurd called List.not_mem_nil
    · exact h.given g hg callee called

theorem named?_deleteFunction (h : m.Tidy) (id : FunctionId) (name : String) :
    (m.deleteFunction id).named? name = (m.named? name).filter (·.id ≠ id) := by
  ext f
  rw [named?_eq_some_iff (h.deleteFunction id).names, Option.filter_eq_some_iff,
    named?_eq_some_iff h.names, functions_deleteFunction, List.mem_filter]
  exact ⟨fun ⟨⟨hf, other⟩, named⟩ => ⟨⟨hf, named⟩, other⟩,
    fun ⟨⟨hf, named⟩, other⟩ => ⟨⟨hf, other⟩, named⟩⟩

end Tidy

end Ir.Module

def Form.Calls : Form → String → Prop
  | .declaration _, _ => False
  | .definition d, name => ∃ args, .call name args ∈ d.body.parts

mutual

theorem Expr.mem_names_of_call {name : String} {args : List Expr} :
    (e : Expr) → .call name args ∈ e.parts → name ∈ e.names
  | .number _, part => by simp [Expr.parts] at part
  | .var _, part => by simp [Expr.parts] at part
  | .binary _ left right, part => by
      simp only [Expr.parts, List.mem_cons, reduceCtorEq, false_or, List.mem_append] at part
      exact List.mem_append.mpr (part.imp left.mem_names_of_call right.mem_names_of_call)
  | .call callee args, part => by
      rcases List.mem_cons.mp part with same | part
      · cases same
        exact List.mem_cons_self
      · exact List.mem_cons_of_mem _ (mem_argNames_of_call args part)

theorem mem_argNames_of_call {name : String} {args : List Expr} :
    (es : List Expr) → .call name args ∈ argParts es → name ∈ argNames es
  | [], part => absurd part List.not_mem_nil
  | e :: es, part => by
      rw [argParts, List.mem_append] at part
      exact List.mem_append.mpr (part.imp e.mem_names_of_call (mem_argNames_of_call es))

end

/-- No form that a source can spell calls the functions of bare expressions. -/
theorem Form.not_calls_anonymousSymbol {form : Form} (spelled : form.isSpelled = true) :
    ¬form.Calls anonymousSymbol := by
  intro calls
  cases form with
  | declaration p => exact calls
  | definition d =>
      obtain ⟨args, part⟩ := calls
      simp only [Form.isSpelled, Bool.and_eq_true] at spelled
      have isName := List.all_eq_true.mp spelled.2 _ (d.body.mem_names_of_call part)
      exact ne_anonymousSymbol isName rfl

/-- The function that a form comes to in a module, or what is wrong with the form. -/
def Form.verdict (form : Form) (m : Module) : Except CompileError Function :=
  match form with
  | .declaration p => .ok (m.standing p.symbol p.params)
  | .definition d => (d.verdict m).map fun (code, value) =>
    (m.standing d.prototype.symbol d.prototype.params).defined d.prototype.params code value

/-- What the name of the form stands for behind it. -/
def Form.made (form : Form) (m : Module) : Option Function :=
  match form.verdict m with
  | .ok f => some f
  | .error _ => m.named? form.prototype.symbol

/-- The form leads from one module to the other: it has made its name what it came to. -/
structure Form.Leads (form : Form) (m m' : Module) : Prop where
  tidy : m'.Tidy
  own : m'.named? form.prototype.symbol = form.made m
  others : ∀ name, name ≠ form.prototype.symbol → m'.named? name = m.named? name
  nextId : m'.nextId = if m.named? form.prototype.symbol = none then m.nextId + 1 else m.nextId

theorem Ir.Module.Orderly.callee?_eq_named? {m : Module} (h : m.Orderly) (name : String) :
    m.callee? name = (m.named? name).map fun f => (f.id, f.params.length) := by
  rw [Module.callee?, Module.lookup?_eq_named?]
  cases named : m.named? name with
  | none => rfl
  | some f => simp only [Option.map_some, h.paramCount_of_named? named]

theorem Definition.verdict_of_standing (d : Definition) {m : Module} (h : m.Orderly) :
    d.verdict m =
      if (m.standing d.prototype.symbol d.prototype.params).body.isSome then
        .error (.redefinition d.prototype.symbol)
      else if (m.standing d.prototype.symbol d.prototype.params).params.length =
          d.prototype.params.length then
        d.body.lower (m.declared d.prototype.symbol d.prototype.params).2.callee?
          (.ofParams d.prototype.params ((List.range d.prototype.params.length).map .param)) 0
      else .error (.arityMismatch d.prototype.symbol
        (m.standing d.prototype.symbol d.prototype.params).params.length
        d.prototype.params.length) := by
  have h₁ := h.declared d.prototype.symbol d.prototype.params
  have own : (m.declared d.prototype.symbol d.prototype.params).2.named? d.prototype.symbol =
      some (m.standing d.prototype.symbol d.prototype.params) :=
    Module.named?_declared.trans (if_pos rfl)
  have body := h₁.hasBody_of_named? own
  have count := h₁.paramCount_of_named? own
  rw [← Module.declared_fst] at body count
  simp only [verdict, body, count, lowered, Module.paramValues]
  by_cases arity : (m.standing d.prototype.symbol d.prototype.params).params.length =
      d.prototype.params.length
  · simp only [arity]
  · simp only [if_neg arity]

theorem Definition.lower_of_verdict (d : Definition) {m : Module} (h : m.Orderly)
    {code : List Instr} {value : Value} (done : d.verdict m = .ok (code, value)) :
    d.body.lower (m.declared d.prototype.symbol d.prototype.params).2.callee?
      (.ofParams d.prototype.params ((List.range d.prototype.params.length).map .param)) 0 =
        .ok (code, value) := by
  rw [d.verdict_of_standing h] at done
  split at done
  · cases done
  · split at done
    · exact done
    · cases done

/-- Code calls only functions that its expression calls by name. -/
theorem Expr.lower_called {callee? : String → Option (FunctionId × Nat)} {scope : Scope} (e : Expr)
    {next : Nat} {code : List Instr} {value : Value}
    (lowered : e.lower callee? scope next = .ok (code, value)) :
    ∀ id ∈ code.filterMap Instr.callee?, ∃ name args, .call name args ∈ e.parts ∧
      ∃ n, callee? name = some (id, n) := by
  classical
  -- The expression lowers alike where nothing else is known.
  let called? : String → Option (FunctionId × Nat) := fun name =>
    if ∃ args, .call name args ∈ e.parts then callee? name else none
  have renames : Lowering.Renames (fun id => id) (e.lower called? scope)
      (e.lower callee? scope) := by
    refine e.lower_renames scope fun name args part => ?_
    rw [Option.map_id']
    exact if_pos ⟨args, part⟩
  have alike : e.lower called? scope next = .ok (code, value) := by
    rw [renames next, lowered]
    simp only [Except.map, renameCode_self]
  intro id mem
  obtain ⟨name, -, n, found⟩ := e.lower_callees alike id mem
  simp only [called?] at found
  split at found
  · next part =>
    obtain ⟨args, part⟩ := part
    exact ⟨name, args, part, n, found⟩
  · contradiction

namespace Definition

variable {d : Definition} {b : Backend} {m m₁ m' : Module} {id : FunctionId} {code : List Instr}
  {value : Value}

theorem Defines.standing_id (defines : d.Defines m m₁ m' id code value) :
    (m.standing d.prototype.symbol d.prototype.params).id = id := by
  rw [← Module.declared_fst, defines.declared]

theorem Defines.nextId (defines : d.Defines m m₁ m' id code value) (h : m.Orderly) :
    m'.nextId = (m.declared d.prototype.symbol d.prototype.params).2.nextId := by
  rw [defines.declared, defines.result_eq h]
  rfl

/-- The functions that a body calls go by the names that it calls. -/
theorem Defines.called (defines : d.Defines m m₁ m' id code value) (h : m.Orderly) :
    ∀ callee ∈ code.filterMap Instr.callee?, ∃ g, m₁.function? callee = some g ∧
      ∃ args, .call g.name args ∈ d.body.parts := by
  intro callee inCode
  obtain ⟨name, args, part, n, known⟩ := d.body.lower_called defines.lowered callee inCode
  obtain ⟨_, lookup, same⟩ := Option.map_eq_some_iff.mp known
  cases same
  obtain ⟨g, found, -, rfl⟩ := (defines.orderly h).function?_of_lookup? lookup
  exact ⟨g, found, args, part⟩

theorem Defines.tidy (defines : d.Defines m m₁ m' id code value) (h : m.Tidy) : m'.Tidy := by
  have h₁ : m₁.Tidy := by
    have declared := h.declared d.prototype.symbol d.prototype.params
    rwa [defines.declared] at declared
  have stays := defines.nextId h.toOrderly
  rw [defines.declared] at stays
  obtain ⟨f, found, -, -⟩ := defines.found h.toOrderly
  refine { toOrderly := ?_, names := ?_, given := ?_ }
  · rw [defines.result_eq h.toOrderly]
    refine (h₁.toOrderly.update id (·.defined d.prototype.params code value) (fun _ => rfl)
      ?_).of_functions_eq rfl (Nat.le_refl _)
    intro g _ isNone
    contradiction
  · exact defines.functionNames_eq h.toOrderly ▸ h₁.names
  · intro g hg callee called
    rw [stays]
    rcases defines.mem_functions h.toOrderly found hg with old | rfl
    · exact h₁.given g old callee called
    · rw [Function.callees_defined] at called
      obtain ⟨k, foundCallee, -⟩ := defines.called h.toOrderly callee called
      rw [← Module.id_of_function? foundCallee]
      exact h₁.below k (Module.mem_of_function? foundCallee)

theorem Defines.named? (defines : d.Defines m m₁ m' id code value) (h : m.Tidy) (name : String) :
    m'.named? name = if name = d.prototype.symbol then
      some ((m.standing name d.prototype.params).defined d.prototype.params code value)
    else m.named? name := by
  have h₁ := h.declared d.prototype.symbol d.prototype.params
  have declared : (m.declared d.prototype.symbol d.prototype.params).2.named? name =
      if name = d.prototype.symbol then some (m.standing d.prototype.symbol d.prototype.params)
      else m.named? name := Module.named?_declared
  rw [defines.declared] at h₁ declared
  have updated : m'.named? name = (m₁.named? name).map fun f =>
      if f.id = id then f.defined d.prototype.params code value else f := by
    rw [defines.result_eq h.toOrderly]
    exact Module.named?_update _ fun _ => rfl
  rw [updated, declared]
  by_cases own : name = d.prototype.symbol
  · subst own
    simp only [if_true, Option.map_some, defines.standing_id]
  · simp only [if_neg own]
    cases other : m.named? name with
    | none => rfl
    | some f =>
        -- No other name stands for the function that changes.
        obtain ⟨k, found, named, -⟩ := defines.found h.toOrderly
        have different : f.id ≠ id := by
          intro same
          rw [if_neg own, other] at declared
          obtain ⟨hf, rfl⟩ := (Module.named?_eq_some_iff h₁.names).mp declared
          have same := h₁.eq_of_function? found hf same
          exact own (same ▸ named)
        simp only [Option.map_some, if_neg different]

theorem compileBody_nextId (d : Definition) (h : b.target.Orderly) {f : Function}
    (found : b.target.function? id = some f) :
    Ensures (d.compileBody id) b (fun _ b' => b'.target.nextId = b.target.nextId)
      fun _ b' => b'.target.nextId = b.target.nextId := by
  refine (d.compileBody_ensures h found).mono ?_ ?_
  · rintro _ b' ⟨code, value, -, target, -⟩
    rw [target]
    rfl
  · rintro _ b' ⟨begun, -⟩
    rcases begun with target | ⟨body, next, target⟩
    · rw [target]
    · rw [target]
      rfl

/-- A definition uses up an id just if its name is new, whether it fails or not. -/
theorem compile_nextId (d : Definition) (h : b.target.Orderly) :
    Ensures d.compile b (fun _ _ => True) fun _ b' => b'.target.nextId =
      (b.target.declared d.prototype.symbol d.prototype.params).2.nextId := by
  apply Compile.ensures_query
  cases lookup : b.target.lookup? d.prototype.symbol with
  | none =>
      have orderly := h.addFunction d.prototype.symbol d.prototype.params
      have found := h.function?_new d.prototype.symbol d.prototype.params
      rw [Module.declared_of_none lookup]
      apply Compile.ensures_addFunction
      have kept := d.compileBody_nextId (b := { b with target := _ }) orderly found
      refine Ensures.bind (Compile.ensures_undoing (kept.mono (fun _ _ good => good) ?_))
        fun _ _ _ => .pure trivial
      intro e b' same
      rw [← same, Backend.onTarget, Module.nextId_deleteFunction]
  | some id =>
      obtain ⟨f, found, -, -⟩ := h.function?_of_lookup? lookup
      rw [Module.declared_of_some lookup]
      apply Compile.ensures_query
      split
      · exact .throw rfl
      · apply Compile.ensures_query
        split
        · have kept := d.compileBody_nextId h found
          refine Ensures.bind (Compile.ensures_undoing (kept.mono (fun _ _ good => good) ?_))
            fun _ _ _ => True.intro
          intro e b' same
          rw [← same, Backend.onTarget, Module.nextId_clearBody]
        · exact .throw rfl

end Definition

/-- Without planned faults a form comes to its verdict, and its name alone stands for something
    else behind it. -/
theorem Form.compile_leads (form : Form) {b : Backend} (clean : b.faults = {})
    (h : b.target.Tidy) :
    Ensures form.compile b
      (fun id b' => form.Leads b.target b'.target ∧
        ∃ f, form.verdict b.target = .ok f ∧ f.id = id)
      fun e b' => form.Leads b.target b'.target ∧ form.verdict b.target = .error e := by
  cases form with
  | declaration p =>
      simp only [Ensures, compile, p.declare_eq b]
      refine ⟨⟨h.declared p.symbol p.params, ?_, ?_, ?_⟩, _, rfl, Module.declared_fst.symm⟩
      · exact Module.named?_declared.trans (if_pos rfl)
      · exact fun name other => Module.named?_declared.trans (if_neg other)
      · exact Module.nextId_declared
  | definition d =>
      have refused := d.compile_verdict h.toOrderly
      have outcome := d.compile_clean clean h.toOrderly
      have nextId := d.compile_nextId h.toOrderly
      rw [Module.nextId_declared] at nextId
      refine .intro (fun id b' run => ?_) fun e b' run => ?_
      · obtain ⟨m₁, code, value, defines, verdict⟩ := outcome.of_ok run
        have isVerdict : (definition d).verdict b.target = .ok
            ((b.target.standing d.prototype.symbol d.prototype.params).defined
              d.prototype.params code value) := by
          simp only [Form.verdict, verdict, Except.map]
        refine ⟨⟨defines.tidy h, ?_, ?_, ?_⟩, _, isVerdict, defines.standing_id⟩
        · rw [made, isVerdict]
          exact (defines.named? h _).trans (if_pos rfl)
        · exact fun name other => (defines.named? h name).trans (if_neg other)
        · exact (defines.nextId h.toOrderly).trans Module.nextId_declared
      · have failed := outcome.of_error run
        obtain ⟨-, same, -⟩ := refused.of_error run
        have isVerdict : (definition d).verdict b.target = .error e := by
          simp only [Form.verdict, failed, Except.map]
        have named : ∀ name, b'.target.named? name = b.target.named? name := by
          intro name
          simp only [Module.named?, same.functions]
        refine ⟨⟨h.sameFunctions same, ?_, fun name _ => named name, nextId.of_error run⟩,
          isVerdict⟩
        rw [named, made, isVerdict]

namespace Form

variable {form : Form} {m m' : Module} {f : Function} {id : FunctionId}

theorem of_verdict_definition {d : Definition} (done : (definition d).verdict m = .ok f) :
    ∃ code value, d.verdict m = .ok (code, value) ∧
      f = (m.standing d.prototype.symbol d.prototype.params).defined d.prototype.params code
        value := by
  simp only [verdict] at done
  cases result : d.verdict m with
  | error e =>
      rw [result] at done
      cases done
  | ok codeAndValue =>
      rw [result] at done
      cases done
      exact ⟨_, _, rfl, rfl⟩

theorem verdict_standing (done : form.verdict m = .ok f) :
    f.id = (m.standing form.prototype.symbol form.prototype.params).id ∧
      f.name = form.prototype.symbol := by
  have named := m.standing_name form.prototype.symbol form.prototype.params
  cases form with
  | declaration p =>
      cases done
      exact ⟨rfl, named⟩
  | definition d =>
      obtain ⟨code, value, -, rfl⟩ := of_verdict_definition done
      exact ⟨rfl, named⟩

/-- A function that was not there calls itself, or functions that the form calls by name. -/
theorem verdict_callees (h : m.Tidy) (done : form.verdict m = .ok f) :
    f ∈ m.functions ∨ ∀ id ∈ f.callees, id = f.id ∨
      ∃ g ∈ m.functions, g.id = id ∧ form.Calls g.name := by
  cases form with
  | declaration p =>
      cases done
      rcases m.standing_cases p.symbol p.params with named | ⟨-, new⟩
      · exact .inl (List.mem_of_find?_eq_some named)
      · rw [new]
        exact .inr fun id called => absurd called List.not_mem_nil
  | definition d =>
      obtain ⟨code, value, result, rfl⟩ := of_verdict_definition done
      refine .inr fun id called => ?_
      rw [Function.callees_defined] at called
      obtain ⟨name, args, part, n, known⟩ :=
        d.body.lower_called (d.lower_of_verdict h.toOrderly result) id called
      rw [(h.toOrderly.declared _ _).callee?_eq_named?, Module.named?_declared] at known
      split at known
      · cases known
        exact .inl rfl
      · obtain ⟨g, named, same⟩ := Option.map_eq_some_iff.mp known
        cases same
        obtain ⟨hg, rfl⟩ := (Module.named?_eq_some_iff h.names).mp named
        exact .inr ⟨g, hg, rfl, args, part⟩

theorem verdict_given (h : m.Tidy) (done : form.verdict m = .ok f) :
    ∀ id ∈ f.callees, id = f.id ∨ id.index < m.nextId := by
  intro id called
  rcases verdict_callees h done with hf | callees
  · exact .inr (h.given f hf id called)
  · rcases callees id called with same | ⟨g, hg, rfl, -⟩
    · exact .inl same
    · exact .inr (h.below g hg)

namespace Leads

theorem nextId_le (leads : form.Leads m m') : m.nextId ≤ m'.nextId := by
  rw [leads.nextId]
  split
  · exact Nat.le_succ _
  · exact Nat.le_refl _

theorem function?_of_verdict (leads : form.Leads m m') (done : form.verdict m = .ok f) :
    m'.function? f.id = some f := by
  have named := leads.own
  rw [made, done] at named
  exact leads.tidy.function?_of_mem (List.mem_of_find?_eq_some named)

theorem mem_cases (leads : form.Leads m m') (hf : f ∈ m'.functions) :
    f ∈ m.functions ∨ form.verdict m = .ok f := by
  have named := Module.named?_of_nodup leads.tidy.names hf
  by_cases own : f.name = form.prototype.symbol
  · rw [own, leads.own, made] at named
    split at named
    · next done =>
      cases named
      exact .inr done
    · exact .inl (List.mem_of_find?_eq_some named)
  · rw [leads.others _ own] at named
    exact .inl (List.mem_of_find?_eq_some named)

theorem keeps (leads : form.Leads m m') (h : m.Tidy) (hf : f ∈ m.functions) :
    ∃ g ∈ m'.functions, g.id = f.id ∧ g.name = f.name := by
  have named := Module.named?_of_nodup h.names hf
  by_cases own : f.name = form.prototype.symbol
  · have standing : m.standing form.prototype.symbol form.prototype.params = f := by
      rw [Module.standing, ← own, named, Option.getD_some]
    have made := leads.own
    rw [Form.made] at made
    split at made
    · next g done =>
      obtain ⟨id, name⟩ := verdict_standing done
      exact ⟨g, List.mem_of_find?_eq_some made, by rw [id, standing], by rw [name, own]⟩
    · rw [← own, named] at made
      exact ⟨f, List.mem_of_find?_eq_some made, rfl, rfl⟩
  · rw [← leads.others _ own] at named
    exact ⟨f, List.mem_of_find?_eq_some named, rfl, rfl⟩

theorem calleeName_eq (leads : form.Leads m m') (h : m.Tidy) (old : id.index < m.nextId) :
    m'.calleeName id = m.calleeName id := by
  cases found : m.function? id with
  | some f =>
      obtain ⟨g, hg, sameId, sameName⟩ := leads.keeps h (Module.mem_of_function? found)
      have foundToo := leads.tidy.function?_of_mem hg
      rw [sameId, Module.id_of_function? found] at foundToo
      simp only [Module.calleeName, found, foundToo, sameName]
  | none =>
      have gone : ∀ g ∈ m.functions, g.id ≠ id := by
        rintro g hg rfl
        cases found.symm.trans (h.function?_of_mem hg)
      cases foundNow : m'.function? id with
      | none => simp only [Module.calleeName, found, foundNow]
      | some g =>
          have isId := Module.id_of_function? foundNow
          rcases leads.mem_cases (Module.mem_of_function? foundNow) with hg | done
          · exact absurd isId (gone g hg)
          · obtain ⟨sameId, -⟩ := verdict_standing done
            rcases m.standing_cases form.prototype.symbol form.prototype.params with
              named | ⟨-, new⟩
            · exact absurd (sameId.symm.trans isId) (gone _ (List.mem_of_find?_eq_some named))
            · rw [← isId, sameId, new] at old
              exact absurd old (Nat.lt_irrefl _)

end Leads

end Form

end Reckon
