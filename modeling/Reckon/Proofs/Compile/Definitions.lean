import Reckon.Proofs.Compile.Verified
import Reckon.Proofs.Ir.Reachable

/-! # Compiled definitions

What compiling a definition does to an orderly module, in every outcome. If it ends well, a single
function has changed: the one of the definition's name, declared now if it was not before, has the
lowered body and the definition's parameters. If it fails, every function is what it was.
-/

namespace Reckon

open Ir

def Form.prototype : Form → Prototype
  | .declaration p => p
  | .definition d => d.prototype

namespace Ir.Module

variable {m : Module} {id other : FunctionId} {name : String} {params : List String}

/-- The module with the name declared, if it was not before, and the name's function. -/
def declared (m : Module) (name : String) (params : List String) : FunctionId × Module :=
  match m.lookup? name with
  | some id => (id, m)
  | none => m.addFunction name params

theorem declared_of_some (found : m.lookup? name = some id) :
    m.declared name params = (id, m) := by
  simp only [declared, found]

theorem declared_of_none (absent : m.lookup? name = none) :
    m.declared name params = m.addFunction name params := by
  simp only [declared, absent]

theorem Orderly.declared (h : m.Orderly) (name : String) (params : List String) :
    (m.declared name params).2.Orderly := by
  cases found : m.lookup? name with
  | none =>
      rw [declared_of_none found]
      exact h.addFunction name params
  | some id =>
      rw [declared_of_some found]
      exact h

theorem function?_addFunction (m : Module) (added : String) (params : List String)
    (other : FunctionId) :
    (m.addFunction added params).2.function? other =
      (m.function? other).or
        (if ⟨m.nextId⟩ = other then some ⟨other, added, params, none, 0⟩ else none) := by
  simp only [function?, addFunction, List.find?_append, List.find?_singleton]
  congr 1
  by_cases same : (⟨m.nextId⟩ : FunctionId) = other <;> simp [same]

theorem Orderly.function?_new (h : m.Orderly) (name : String) (params : List String) :
    (m.addFunction name params).2.function? ⟨m.nextId⟩ =
      some ⟨⟨m.nextId⟩, name, params, none, 0⟩ := by
  have absent : m.function? ⟨m.nextId⟩ = none := by
    refine List.find?_eq_none.mpr fun f hf => ?_
    simpa only [decide_eq_true_eq] using h.fresh hf
  simp only [function?_addFunction, absent, Option.none_or, if_true]

/-- At most the body of one function was begun. -/
def Begun (m : Module) (id : FunctionId) (m' : Module) : Prop :=
  m' = m ∨ ∃ body next, m' = m.withBody id body next

/-- The same functions in a module of the same name. Ids to come and the open function may
    differ. -/
structure SameFunctions (m m' : Module) : Prop where
  name : m'.name = m.name
  functions : m'.functions = m.functions
  nextId : m.nextId ≤ m'.nextId

theorem SameFunctions.refl (m : Module) : m.SameFunctions m := ⟨rfl, rfl, Nat.le_refl _⟩

theorem SameFunctions.leave {m' : Module} (same : m.SameFunctions m') (id : FunctionId) :
    m.SameFunctions (m'.leave id) := by
  unfold Module.leave
  split
  · exact ⟨same.name, same.functions, same.nextId⟩
  · exact same

theorem Begun.deleteFunction {m' : Module} (h : m.Orderly)
    (begun : (m.addFunction name params).2.Begun ⟨m.nextId⟩ m') :
    m.SameFunctions (m'.deleteFunction ⟨m.nextId⟩) := by
  have old : m.functions.filter (·.id ≠ ⟨m.nextId⟩) = m.functions := by
    apply List.filter_eq_self.mpr
    intro f hf
    simpa only [decide_eq_true_eq] using h.fresh hf
  have added : (m.addFunction name params).2.functions.filter (·.id ≠ ⟨m.nextId⟩) =
      m.functions := by
    simp only [addFunction, List.filter_append, old]
    simp
  have undone : m.SameFunctions
      { m' with functions := m'.functions.filter (·.id ≠ ⟨m.nextId⟩) } := by
    rcases begun with rfl | ⟨body, next, rfl⟩
    · exact ⟨rfl, added, Nat.le_succ _⟩
    · exact ⟨rfl, (filter_update (·.begun body next) fun _ => rfl).trans added, Nat.le_succ _⟩
  exact undone.leave _

theorem Begun.clearBody {m' : Module} (h : m.Orderly) (declaration : m.hasBody id = false)
    (begun : m.Begun id m') : m.SameFunctions (m'.clearBody id) := by
  let cleared : Function → Function := fun f => { f with body := none, nextTemp := 0 }
  have blank : m.update id cleared = m := by
    apply update_eq_self cleared
    intro f hf found
    have none : f.body = none := by
      simpa [hasBody, ← found, h.function?_of_mem hf] using declaration
    simp only [cleared, ← none, ← h.blank f hf none]
  have undone : m.SameFunctions (m'.update id cleared) := by
    rcases begun with rfl | ⟨body, next, rfl⟩
    · rw [blank]
      exact .refl _
    · have merged : (m.update id (·.begun body next)).update id cleared = m.update id cleared :=
        update_update _ _ fun _ => rfl
      have functions := congrArg Module.functions (merged.trans blank)
      exact ⟨rfl, functions, Nat.le_refl _⟩
  exact undone.leave _

/-- A function whose parameters have the new names already is not changed by renaming them. -/
theorem Orderly.setParamNames_addFunction (h : m.Orderly) (body : List Instr) (next : Nat) :
    ((m.addFunction name params).2.withBody ⟨m.nextId⟩ body next).setParamNames ⟨m.nextId⟩ params =
      (m.addFunction name params).2.withBody ⟨m.nextId⟩ body next := by
  apply update_eq_self _
  intro f hf found
  obtain ⟨g, hg, rfl⟩ := List.mem_map.mp hf
  have new : g = ⟨⟨m.nextId⟩, name, params, none, 0⟩ := by
    refine (List.mem_append.mp hg).elim (fun old => ?_) List.mem_singleton.mp
    refine absurd ?_ (h.fresh old)
    split at found
    · assumption
    · exact found
  rw [new]
  simp only [if_true, Function.begun]

end Ir.Module

/-- Declaring never fails, and declares the name. -/
theorem Prototype.declare_eq (p : Prototype) (b : Backend) :
    p.declare b = .ok (b.target.declared p.symbol p.params).1
      { b with target := (b.target.declared p.symbol p.params).2 } := by
  cases lookup : b.target.lookup? p.symbol with
  | none =>
      simp only [declare, Compile.query, bind, EStateM.bind, lookup, Module.declared]
      rfl
  | some id =>
      simp only [declare, Compile.query, bind, EStateM.bind, lookup, Module.declared]
      rfl

theorem Compile.ensures_addFunction {name : String} {params : List String}
    {rest : FunctionId → Compile β} {b : Backend} {ok : β → Backend → Prop}
    {err : CompileError → Backend → Prop}
    (h : Ensures (rest ⟨b.target.nextId⟩)
      { b with target := (b.target.addFunction name params).2 } ok err) :
    Ensures (Compile.addFunction name params >>= rest) b ok err := h

theorem Compile.ensures_undoing {undo : Module → Module} {step : Compile α} {b : Backend}
    {ok : α → Backend → Prop} {err : CompileError → Backend → Prop}
    (h : Ensures step b ok fun e b' => err e (b'.onTarget undo)) :
    Ensures (Compile.undoing undo step) b ok err := by
  simp only [Ensures, Compile.undoing]
  cases run : step b with
  | ok a b' => exact h.of_ok run
  | error e b' => exact h.of_error run

def Ir.Function.defined (f : Function) (params : List String) (code : List Instr) (value : Value) :
    Function :=
  { f with params, body := some (code ++ [.ret value]), nextTemp := code.length }

theorem FaultPlan.not_causes (e : CompileError) : ¬({} : FaultPlan).Causes e := by
  intro planned
  unfold Causes at planned
  split at planned <;> contradiction

namespace Definition

variable {id : FunctionId} {f : Function} {b : Backend}

/-- What the body of a definition becomes in a function of a module. -/
def lowered (d : Definition) (m : Module) (id : FunctionId) :
    Except CompileError (List Instr × Value) :=
  d.body.lower m.callee? (Scope.ofParams d.prototype.params (m.paramValues id)) 0

/-- The module in which a function has the lowered body and returns its value. -/
def bodied (m : Module) (id : FunctionId) (code : List Instr) (value : Value) : Module :=
  m.withBody id (code ++ [.ret value]) code.length

theorem verify_bodied {d : Definition} {m : Module} (h : m.Orderly)
    (found : m.function? id = some f) {code : List Instr} {value : Value}
    (lowered : d.lowered m id = .ok (code, value)) :
    (bodied m id code value).verify id = true := by
  have knows : (bodied m id code value).Knows m.callee? := by
    intro name callee n known
    obtain ⟨callee, lookup, known⟩ := Option.map_eq_some_iff.mp known
    cases known
    obtain ⟨g, foundCallee, -, -⟩ := h.function?_of_lookup? lookup
    have updated : (bodied m id code value).function? callee = (m.function? callee).map _ :=
      Module.function?_update (·.begun (code ++ [Instr.ret value]) code.length) fun _ => rfl
    refine ⟨_, by rw [updated, foundCallee, Option.map_some], ?_⟩
    simp only [Module.paramCount, foundCallee]
    split <;> rfl
  have within : (Scope.ofParams d.prototype.params (m.paramValues id)).Within f.params.length := by
    simp only [Module.paramValues, Module.paramCount, found]
    exact Scope.ofParams_within _ _
  have begun : (bodied m id code value).function? id =
      some (f.begun (code ++ [.ret value]) code.length) := Module.function?_withBody_self found
  exact Module.verify_eq_true.mpr ⟨_, begun, Module.check_lowered knows within lowered rfl⟩

theorem compileBody_ensures (d : Definition) (h : b.target.Orderly)
    (found : b.target.function? id = some f) :
    Ensures (d.compileBody id) b
      (fun _ b' => ∃ code value, d.lowered b.target id = .ok (code, value) ∧
        b'.target = bodied b.target id code value ∧ b'.faults = b.faults)
      fun e b' => b.target.Begun id b'.target ∧ b'.faults = b.faults ∧
        (d.lowered b.target id = .error e ∨ b.faults.Causes e) := by
  have opened : Ensures (Compile.lift (Backend.openBody id)) b
      (fun _ b' => b'.Inside b.target id b.faults [] 0)
      fun e b' => b' = b ∧ b.faults.Causes e := by
    by_cases planned : b.faults.entry = true
    · simp only [Ensures, Compile.lift, Backend.openBody, if_pos planned]
      exact ⟨trivial, planned⟩
    · simp only [Ensures, Compile.lift, Backend.openBody, if_neg planned, Backend.lift,
        Build.openBody_eq found]
      exact ⟨rfl, rfl⟩
  refine (opened.mono (fun _ _ inside => inside) ?_).bind fun _ b₁ inside => ?_
  · intro e b' outcome
    obtain ⟨rfl, planned⟩ := outcome
    exact ⟨.inl rfl, rfl, .inr planned⟩
  apply Compile.ensures_query
  rw [inside.target, Module.paramValues_withBody]
  have built := d.body.compile_builds found
    (.ofParams d.prototype.params (b.target.paramValues id)) _ _ _ _ inside
  refine (built.mono (fun _ _ good => good) ?_).bind ?_
  · intro e b₂ outcome
    obtain ⟨cause, body, next, inside⟩ := outcome
    exact ⟨.inr ⟨body, next, inside.target⟩, inside.faults, cause⟩
  intro value b₂ outcome
  obtain ⟨code, lowered, inside⟩ := outcome
  rw [List.nil_append, Nat.zero_add] at inside
  refine ((inside.build (Build.ret_withBody found value)).mono (fun _ _ good => good) ?_).bind ?_
  · intro e b₃ outcome
    obtain ⟨planned, inside⟩ := outcome
    exact ⟨.inr ⟨_, _, inside.target⟩, inside.faults, .inr planned⟩
  intro _ b₃ outcome
  obtain ⟨-, inside⟩ := outcome
  apply Ensures.get
  by_cases verified : b₃.verify id = true
  · rw [if_pos verified]
    exact .pure ⟨code, value, lowered, inside.target, inside.faults⟩
  · -- The verifier has nothing to find, so it is the plan that refuses the body.
    have wellFormed : b₃.target.verify id = true := by
      rw [inside.target]
      exact verify_bodied h found lowered
    rw [if_neg verified]
    refine .throw ⟨.inr ⟨_, _, inside.target⟩, inside.faults, .inr ?_⟩
    simpa [Backend.verify, wellFormed, inside.faults, FaultPlan.Causes] using verified

/-- From `m` a definition leads to `m'`: its name is declared in `m₁`, without a body and with as
    many parameters, and there it gets the lowered body and the definition's parameters. -/
structure Defines (d : Definition) (m m₁ m' : Module) (id : FunctionId) (code : List Instr)
    (value : Value) : Prop where
  declared : m.declared d.prototype.symbol d.prototype.params = (id, m₁)
  declaration : m₁.hasBody id = false
  arity : m₁.paramCount id = d.prototype.params.length
  lowered : d.lowered m₁ id = .ok (code, value)
  verified : (bodied m₁ id code value).verify id = true
  result : m' = (bodied m₁ id code value).setParamNames id d.prototype.params

namespace Defines

variable {d : Definition} {m m₁ m' : Module} {code : List Instr} {value : Value}

theorem orderly (defines : d.Defines m m₁ m' id code value) (h : m.Orderly) : m₁.Orderly := by
  have declared := h.declared d.prototype.symbol d.prototype.params
  rwa [defines.declared] at declared

theorem found (defines : d.Defines m m₁ m' id code value) (h : m.Orderly) :
    ∃ f, m₁.function? id = some f ∧ f.name = d.prototype.symbol ∧
      f.params.length = d.prototype.params.length := by
  have declared := defines.declared
  have arity := defines.arity
  cases lookup : m.lookup? d.prototype.symbol with
  | none =>
      rw [Module.declared_of_none lookup] at declared
      cases declared
      exact ⟨_, h.function?_new _ _, rfl, rfl⟩
  | some other =>
      rw [Module.declared_of_some lookup] at declared
      cases declared
      obtain ⟨f, found, -, named⟩ := h.function?_of_lookup? lookup
      exact ⟨f, found, named, by simpa only [Module.paramCount, found] using arity⟩

/-- Only the definition's function changes after it was declared. -/
theorem result_eq (defines : d.Defines m m₁ m' id code value) (h : m.Orderly) :
    m' = { m₁.update id (·.defined d.prototype.params code value) with insertion := some id } := by
  obtain ⟨f, found, -, arity⟩ := defines.found h
  -- Giving the body and renaming the parameters are two changes of the same function.
  have functions : (m₁.functions.map fun g =>
      if g.id = id then g.begun (code ++ [.ret value]) code.length else g).map
        (fun g => if g.id = id then
          if g.params.length = d.prototype.params.length then
            { g with params := d.prototype.params } else g else g) =
      m₁.functions.map fun g =>
        if g.id = id then g.defined d.prototype.params code value else g := by
    rw [List.map_map]
    apply List.map_congr_left
    intro g hg
    by_cases same : g.id = id
    · obtain rfl := (defines.orderly h).eq_of_function? found hg same
      simp only [Function.comp, if_pos same, Function.begun, if_pos arity, Function.defined]
    · simp only [Function.comp, if_neg same]
  rw [defines.result]
  simp only [bodied, Module.withBody, Module.setParamNames, Module.update, functions]

theorem function?_defined (defines : d.Defines m m₁ m' id code value) (h : m.Orderly)
    {f : Function} (found : m₁.function? id = some f) :
    m'.function? id = some (f.defined d.prototype.params code value) := by
  have updated : (m₁.update id (·.defined d.prototype.params code value)).function? id =
      (m₁.function? id).map (·.defined d.prototype.params code value) :=
    Module.function?_update_self _ fun _ => rfl
  rw [found] at updated
  rw [defines.result_eq h]
  exact updated

theorem functionNames_eq (defines : d.Defines m m₁ m' id code value) (h : m.Orderly) :
    m'.functionNames = m₁.functionNames := by
  simp only [defines.result_eq h, Module.functionNames, Module.update, List.map_map]
  apply List.map_congr_left
  intro g _
  simp only [Function.comp]
  split <;> rfl

theorem body_stays (defines : d.Defines m m₁ m' id code value) (h : m.Orderly) {g : Function}
    (hg : g ∈ m₁.functions) (hasBody : g.body ≠ none) : g ∈ m'.functions := by
  have different : g.id ≠ id := by
    rintro rfl
    have declaration := defines.declaration
    rw [Module.hasBody, (defines.orderly h).function?_of_mem hg] at declaration
    exact hasBody (by simpa using declaration)
  rw [defines.result_eq h]
  exact List.mem_map.mpr ⟨g, hg, if_neg different⟩

theorem mem_functions (defines : d.Defines m m₁ m' id code value) (h : m.Orderly)
    {f : Function} (found : m₁.function? id = some f) {g : Function} (hg : g ∈ m'.functions) :
    g ∈ m₁.functions ∨ g = f.defined d.prototype.params code value := by
  rw [defines.result_eq h] at hg
  obtain ⟨k, hk, rfl⟩ := List.mem_map.mp hg
  by_cases same : k.id = id
  · obtain rfl := (defines.orderly h).eq_of_function? found hk same
    exact .inr (by rw [if_pos same])
  · exact .inl (by rwa [if_neg same])

end Defines

/-- What a definition comes to in a module: the code of its body, or what is wrong with it. -/
def verdict (d : Definition) (m : Module) : Except CompileError (List Instr × Value) :=
  let name := d.prototype.symbol
  let (id, m) := m.declared name d.prototype.params
  if m.hasBody id then .error (.redefinition name)
  else if m.paramCount id = d.prototype.params.length then d.lowered m id
  else .error (.arityMismatch name (m.paramCount id) d.prototype.params.length)

theorem verdict_of_declaration {d : Definition} {m m₁ : Module}
    (declared : m.declared d.prototype.symbol d.prototype.params = (id, m₁))
    (declaration : m₁.hasBody id = false) (arity : m₁.paramCount id = d.prototype.params.length) :
    d.verdict m = d.lowered m₁ id := by
  simp only [verdict, declared, declaration, Bool.false_eq_true, if_false, arity, if_true]

theorem Defines.verdict_eq {d : Definition} {m m₁ m' : Module} {code : List Instr} {value : Value}
    (defines : d.Defines m m₁ m' id code value) : d.verdict m = .ok (code, value) :=
  (verdict_of_declaration defines.declared defines.declaration defines.arity).trans defines.lowered

/-- The body of a new function; if it fails, the function is deleted. -/
theorem compile_new (d : Definition) (h : b.target.Orderly)
    (absent : b.target.lookup? d.prototype.symbol = none) :
    Ensures d.compile b
      (fun id b' => b'.faults = b.faults ∧
        ∃ m₁ code value, d.Defines b.target m₁ b'.target id code value)
      fun e b' => b'.faults = b.faults ∧ b.target.SameFunctions b'.target ∧
        (d.verdict b.target = .error e ∨ b.faults.Causes e) := by
  let added := (b.target.addFunction d.prototype.symbol d.prototype.params).2
  have orderly := h.addFunction d.prototype.symbol d.prototype.params
  have found := h.function?_new d.prototype.symbol d.prototype.params
  have declared : b.target.declared d.prototype.symbol d.prototype.params =
      (⟨b.target.nextId⟩, added) := Module.declared_of_none absent
  have count : added.paramCount ⟨b.target.nextId⟩ = d.prototype.params.length := by
    simp only [added, Module.paramCount, found]
  have declaration : added.hasBody ⟨b.target.nextId⟩ = false := by
    simp only [added, Module.hasBody, found]
    rfl
  have body := d.compileBody_ensures (b := { b with target := added }) orderly found
  apply Compile.ensures_query
  rw [absent]
  apply Compile.ensures_addFunction
  refine Ensures.bind (Compile.ensures_undoing (body.mono (fun _ _ good => good) ?_)) ?_
  · intro e b' outcome
    obtain ⟨begun, faults, cause⟩ := outcome
    refine ⟨faults, Module.Begun.deleteFunction h begun, cause.imp_left fun stops => ?_⟩
    exact (verdict_of_declaration declared declaration count).trans stops
  · intro _ b' outcome
    obtain ⟨code, value, lowered, target, faults⟩ := outcome
    refine .pure ⟨faults, added, code, value, ?_⟩
    exact {
      declared := declared
      declaration := declaration
      arity := count
      lowered := lowered
      verified := verify_bodied orderly found lowered
      result := target.trans (h.setParamNames_addFunction _ _).symm }

/-- The body of a declared function; if it fails, the function is a declaration again. -/
theorem compile_declared (d : Definition) (h : b.target.Orderly)
    (present : b.target.lookup? d.prototype.symbol = some id) :
    Ensures d.compile b
      (fun id b' => b'.faults = b.faults ∧
        ∃ m₁ code value, d.Defines b.target m₁ b'.target id code value)
      fun e b' => b'.faults = b.faults ∧ b.target.SameFunctions b'.target ∧
        (d.verdict b.target = .error e ∨ b.faults.Causes e) := by
  obtain ⟨f, found, -, -⟩ := h.function?_of_lookup? present
  have same := Module.SameFunctions.refl b.target
  have declared : b.target.declared d.prototype.symbol d.prototype.params = (id, b.target) :=
    Module.declared_of_some present
  apply Compile.ensures_query
  rw [present]
  apply Compile.ensures_query
  cases declaration : b.target.hasBody id with
  | true =>
      refine .throw ⟨rfl, same, .inl ?_⟩
      simp only [verdict, declared, declaration, if_true]
  | false =>
      apply Compile.ensures_query
      by_cases arity : b.target.paramCount id = d.prototype.params.length
      · simp only [if_pos arity]
        have body := d.compileBody_ensures h found
        refine Ensures.bind (Compile.ensures_undoing (body.mono (fun _ _ good => good) ?_)) ?_
        · intro e b' outcome
          obtain ⟨begun, faults, cause⟩ := outcome
          refine ⟨faults, Module.Begun.clearBody h declaration begun, ?_⟩
          rwa [verdict_of_declaration declared declaration arity]
        · intro _ b' outcome
          obtain ⟨code, value, lowered, target, faults⟩ := outcome
          refine ⟨faults, b.target, code, value, ?_⟩
          exact {
            declared := declared
            declaration := declaration
            arity := arity
            lowered := lowered
            verified := verify_bodied h found lowered
            result := congrArg (·.setParamNames id d.prototype.params) target }
      · simp only [if_neg arity]
        refine .throw ⟨rfl, same, .inl ?_⟩
        simp only [verdict, declared, declaration, Bool.false_eq_true, if_false, arity]

/-- What compiling a definition comes to: it is defined, or it is refused with what its verdict
    says, unless a planned fault was met first. -/
theorem compile_verdict (d : Definition) (h : b.target.Orderly) :
    Ensures d.compile b
      (fun id b' => b'.faults = b.faults ∧
        ∃ m₁ code value, d.Defines b.target m₁ b'.target id code value)
      fun e b' => b'.faults = b.faults ∧ b.target.SameFunctions b'.target ∧
        (d.verdict b.target = .error e ∨ b.faults.Causes e) := by
  cases lookup : b.target.lookup? d.prototype.symbol with
  | none => exact d.compile_new h lookup
  | some id => exact d.compile_declared h lookup

theorem compile_ensures (d : Definition) (h : b.target.Orderly) :
    Ensures d.compile b
      (fun id b' => b'.faults = b.faults ∧
        ∃ m₁ code value, d.Defines b.target m₁ b'.target id code value)
      fun _ b' => b'.faults = b.faults ∧ b.target.SameFunctions b'.target :=
  (d.compile_verdict h).mono (fun _ _ good => good) fun _ _ bad => ⟨bad.1, bad.2.1⟩

theorem compile_clean (d : Definition) {b : Backend} (clean : b.faults = {})
    (h : b.target.Orderly) :
    Ensures d.compile b
      (fun id b' => ∃ m₁ code value, d.Defines b.target m₁ b'.target id code value ∧
        d.verdict b.target = .ok (code, value))
      fun e _ => d.verdict b.target = .error e := by
  refine (d.compile_verdict h).mono ?_ ?_
  · rintro id b' ⟨-, m₁, code, value, defines⟩
    exact ⟨m₁, code, value, defines, defines.verdict_eq⟩
  · rintro e b' ⟨-, -, cause⟩
    exact cause.resolve_right (clean ▸ FaultPlan.not_causes e)

end Definition

end Reckon
