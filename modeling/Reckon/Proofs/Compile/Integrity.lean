import Reckon.Proofs.Compile.Definitions
import Reckon.Proofs.Ir.Checking
import Reckon.Proofs.Spelling

/-! # The integrity of a module

Whatever forms a source spells, whichever of them fail and whatever faults are planned, the module
holds no half-built body: every body in it passes the check there, no two functions share a name,
and no two share an id. What keeps this up is that no body calls a function that may go. Functions
go in two ways: a definition that fails takes its own new function with it, which no other body has
seen, and a bare expression's function goes when it was used, which no source can name.
-/

namespace Reckon

open Ir

theorem lowerOperator_callees {op : Char} {left right value : Value} {next : Nat}
    {code : List Instr} (lowered : lowerOperator op left right next = .ok (code, value)) :
    code.filterMap Instr.callee? = [] := by
  unfold lowerOperator at lowered
  split at lowered <;> cases lowered <;> rfl

mutual
/-- Code calls only functions that the names of its expression stand for. -/
theorem Expr.lower_callees {callee? : String → Option (FunctionId × Nat)} {scope : Scope} (e : Expr)
    {next : Nat} {code : List Instr} {value : Value}
    (lowered : e.lower callee? scope next = .ok (code, value)) :
    ∀ id ∈ code.filterMap Instr.callee?, ∃ name ∈ e.names, ∃ n, callee? name = some (id, n) := by
  intro id called
  cases e with
  | number value =>
      obtain ⟨rfl, -⟩ := Expr.lower_number lowered
      contradiction
  | var name =>
      obtain ⟨rfl, -⟩ := Expr.lower_var lowered
      contradiction
  | binary op left right =>
      obtain ⟨leftCode, l, rightCode, r, opCode, leftLowered, rightLowered, opLowered, rfl⟩ :=
        Expr.lower_binary lowered
      simp only [List.filterMap_append, lowerOperator_callees opLowered, List.append_nil,
        List.mem_append] at called
      rcases called with called | called
      · obtain ⟨name, named, known⟩ := Expr.lower_callees left leftLowered id called
        exact ⟨name, List.mem_append_left _ named, known⟩
      · obtain ⟨name, named, known⟩ := Expr.lower_callees right rightLowered id called
        exact ⟨name, List.mem_append_right _ named, known⟩
  | call callee args =>
      obtain ⟨target, argCode, values, known, argsLowered, rfl, -⟩ := Expr.lower_call lowered
      simp only [List.filterMap_append, List.mem_append] at called
      rcases called with called | called
      · obtain ⟨name, named, known⟩ := lowerArgs_callees args argsLowered id called
        exact ⟨name, List.mem_cons_of_mem _ named, known⟩
      · have : id = target := by simpa [Instr.callee?] using called
        exact ⟨callee, List.mem_cons_self, args.length, this ▸ known⟩
termination_by sizeOf e

theorem lowerArgs_callees {callee? : String → Option (FunctionId × Nat)} {scope : Scope}
    (args : List Expr) {next : Nat} {code : List Instr} {values : List Value}
    (lowered : lowerArgs callee? scope args next = .ok (code, values)) :
    ∀ id ∈ code.filterMap Instr.callee?,
      ∃ name ∈ argNames args, ∃ n, callee? name = some (id, n) := by
  intro id called
  cases args with
  | nil =>
      cases lowered
      contradiction
  | cons arg args =>
      obtain ⟨argCode, first, restCode, rest, argLowered, restLowered, rfl, -⟩ :=
        lowerArgs_cons lowered
      simp only [List.filterMap_append, List.mem_append] at called
      rcases called with called | called
      · obtain ⟨name, named, known⟩ := Expr.lower_callees arg argLowered id called
        exact ⟨name, List.mem_append_left _ named, known⟩
      · obtain ⟨name, named, known⟩ := lowerArgs_callees args restLowered id called
        exact ⟨name, List.mem_append_right _ named, known⟩
termination_by sizeOf args
end

namespace Ir.Module

variable {m m' m'' : Module} {id : FunctionId} {name : String}

theorem Orderly.id_ne_of_named (h : m.Orderly) (anonymous : m.lookup? anonymousSymbol = some id)
    {f : Function} (hf : f ∈ m.functions) (named : f.name ≠ anonymousSymbol) : f.id ≠ id := by
  rintro rfl
  obtain ⟨g, found, -, goneName⟩ := h.function?_of_lookup? anonymous
  rw [h.function?_of_mem hf] at found
  cases found
  exact named goneName

/-- Every function that a source can name is still there, with its name and as many parameters. -/
def Retains (m m' : Module) : Prop :=
  ∀ id f, m.function? id = some f → f.name ≠ anonymousSymbol →
    ∃ g, m'.function? id = some g ∧ g.name = f.name ∧ g.params.length = f.params.length

namespace Retains

theorem of_functions_eq (functions : m'.functions = m.functions) : m.Retains m' := by
  intro id f found _
  exact ⟨f, by simpa only [function?, functions] using found, rfl, rfl⟩

theorem trans (first : m.Retains m') (second : m'.Retains m'') : m.Retains m'' := by
  intro id f found named
  obtain ⟨g, foundThen, sameName, sameArity⟩ := first id f found named
  obtain ⟨k, foundNow, sameName', sameArity'⟩ := second id g foundThen (sameName ▸ named)
  exact ⟨k, foundNow, sameName'.trans sameName, sameArity'.trans sameArity⟩

theorem declared (m : Module) (name : String) (params : List String) :
    m.Retains (m.declared name params).2 := by
  intro id f found _
  cases lookup : m.lookup? name with
  | none =>
      refine ⟨f, ?_, rfl, rfl⟩
      rw [declared_of_none lookup, function?_addFunction, found, Option.some_or]
  | some other =>
      rw [declared_of_some lookup]
      exact ⟨f, found, rfl, rfl⟩

theorem update (change : Function → Function) (keepsId : ∀ f, (change f).id = f.id)
    (keepsName : ∀ f, (change f).name = f.name)
    (keepsArity : ∀ f, m.function? id = some f → (change f).params.length = f.params.length) :
    m.Retains (m.update id change) := by
  intro other f found _
  refine ⟨_, by rw [function?_update change keepsId, found, Option.map_some], ?_⟩
  split
  · next same =>
    rw [id_of_function? found] at same
    exact ⟨keepsName f, keepsArity f (same ▸ found)⟩
  · exact ⟨rfl, rfl⟩

theorem deleteFunction (h : m.Orderly) (anonymous : m.lookup? anonymousSymbol = some id) :
    m.Retains (m.deleteFunction id) := by
  intro other f found named
  have hf := mem_of_function? found
  have kept : f ∈ (m.deleteFunction id).functions := by
    rw [functions_deleteFunction]
    exact List.mem_filter.mpr ⟨hf, by simpa using h.id_ne_of_named anonymous hf named⟩
  refine ⟨f, ?_, rfl, rfl⟩
  rw [← id_of_function? found]
  exact (h.deleteFunction id).function?_of_mem kept

end Retains

/-- No two functions share a name, every body passes the check, and calls only functions that a
    source can name. -/
structure Integral (m : Module) : Prop extends Orderly m where
  names : m.functionNames.Nodup
  checked : ∀ f ∈ m.functions, f.body ≠ none → m.check f = .ok ()
  callees : ∀ f ∈ m.functions, ∀ id ∈ f.callees,
    ∃ g, m.function? id = some g ∧ g.name ≠ anonymousSymbol

namespace Integral

theorem body_stays (h : m.Integral) (retains : m.Retains m') {f : Function}
    (hf : f ∈ m.functions) :
    (f.body ≠ none → m'.check f = .ok ()) ∧
      ∀ id ∈ f.callees, ∃ g, m'.function? id = some g ∧ g.name ≠ anonymousSymbol := by
  constructor
  · intro hasBody
    refine check_of_answers (fun id called k found => ?_) rfl rfl (h.checked f hf hasBody)
    obtain ⟨g, foundToo, named⟩ := h.callees f hf id called
    obtain rfl : k = g := Option.some.inj (found.symm.trans foundToo)
    obtain ⟨g', foundNow, -, sameArity⟩ := retains id k found named
    exact ⟨g', foundNow, sameArity⟩
  · intro id called
    obtain ⟨g, found, named⟩ := h.callees f hf id called
    obtain ⟨g', foundNow, sameName, -⟩ := retains id g found named
    exact ⟨g', foundNow, sameName ▸ named⟩

theorem empty (name : String) : (Module.empty name).Integral where
  toOrderly := .empty name
  names := .nil
  checked := by simp [Module.empty]
  callees := by simp [Module.empty]

theorem sameFunctions (h : m.Integral) (same : m.SameFunctions m') : m'.Integral := by
  have retains : m.Retains m' := .of_functions_eq same.functions
  exact {
    toOrderly := h.toOrderly.of_functions_eq same.functions same.nextId
    names := by simpa only [functionNames, same.functions] using h.names
    checked := fun f hf => (h.body_stays retains (same.functions ▸ hf)).1
    callees := fun f hf => (h.body_stays retains (same.functions ▸ hf)).2 }

theorem declared (h : m.Integral) (name : String) (params : List String) :
    (m.declared name params).2.Integral := by
  have retains := Retains.declared m name params
  cases lookup : m.lookup? name with
  | some id =>
      rw [declared_of_some lookup]
      exact h
  | none =>
      rw [declared_of_none lookup] at retains ⊢
      have new : ∀ f ∈ (m.addFunction name params).2.functions,
          f ∈ m.functions ∨ f = ⟨⟨m.nextId⟩, name, params, none, 0⟩ := by
        intro f hf
        exact (List.mem_append.mp hf).imp_right List.mem_singleton.mp
      refine ⟨h.toOrderly.addFunction name params, ?_, ?_, ?_⟩
      · have unused : name ∉ m.functionNames := by
          intro used
          obtain ⟨f, hf, rfl⟩ := List.mem_map.mp used
          have none := List.find?_eq_none.mp (Option.map_eq_none_iff.mp lookup) f hf
          exact none (decide_eq_true rfl)
        simp only [functionNames, Module.addFunction, List.map_append]
        refine List.nodup_append.mpr ⟨h.names, List.nodup_singleton _, ?_⟩
        intro old used added isNew same
        rw [List.mem_singleton.mp isNew] at same
        subst same
        exact unused used
      · intro f hf hasBody
        rcases new f hf with hf | rfl
        · exact (h.body_stays retains hf).1 hasBody
        · contradiction
      · intro f hf
        rcases new f hf with hf | rfl
        · exact (h.body_stays retains hf).2
        · intro id called
          contradiction

theorem deleteFunction (h : m.Integral) (anonymous : m.lookup? anonymousSymbol = some id) :
    (m.deleteFunction id).Integral := by
  have retains := Retains.deleteFunction h.toOrderly anonymous
  have old : ∀ f ∈ (m.deleteFunction id).functions, f ∈ m.functions := by
    intro f hf
    rw [functions_deleteFunction] at hf
    exact List.mem_of_mem_filter hf
  exact {
    toOrderly := h.toOrderly.deleteFunction id
    names := by
      rw [functionNames, functions_deleteFunction]
      exact h.names.sublist (List.filter_sublist.map _)
    checked := fun f hf => (h.body_stays retains (old f hf)).1
    callees := fun f hf => (h.body_stays retains (old f hf)).2 }

end Integral

end Ir.Module

theorem Ir.Function.callees_defined (f : Function) (params : List String) (code : List Instr)
    (value : Value) : (f.defined params code value).callees = code.filterMap Instr.callee? := by
  simp [callees, defined, Instr.callee?]

namespace Definition.Defines

variable {d : Definition} {m m₁ m' : Module} {id : FunctionId} {code : List Instr} {value : Value}

theorem retains (defines : d.Defines m m₁ m' id code value) (h : m.Orderly) : m₁.Retains m' := by
  obtain ⟨f, found, -, arity⟩ := defines.found h
  have updated : m₁.Retains (m₁.update id (·.defined d.prototype.params code value)) := by
    refine .update _ (fun _ => rfl) (fun _ => rfl) fun g foundToo => ?_
    cases found.symm.trans foundToo
    exact arity.symm
  exact updated.trans (.of_functions_eq (by rw [defines.result_eq h]))

theorem callees_named (defines : d.Defines m m₁ m' id code value) (h : m.Orderly)
    (spelled : d.body.isSpelled = true) (f : Function) :
    ∀ callee ∈ (f.defined d.prototype.params code value).callees,
      ∃ g, m'.function? callee = some g ∧ g.name ≠ anonymousSymbol := by
  intro callee called
  rw [Function.callees_defined] at called
  obtain ⟨name, named, n, known⟩ := d.body.lower_callees defines.lowered callee called
  obtain ⟨target, lookup, known⟩ := Option.map_eq_some_iff.mp known
  cases known
  obtain ⟨g, found, -, rfl⟩ := (defines.orderly h).function?_of_lookup? lookup
  have spelledName := ne_anonymousSymbol (List.all_eq_true.mp spelled _ named)
  obtain ⟨g', foundNow, sameName, -⟩ := defines.retains h callee g found spelledName
  exact ⟨g', foundNow, sameName ▸ spelledName⟩

/-- What was verified before the parameters were renamed is well-formed with their new names. -/
theorem check_defined (defines : d.Defines m m₁ m' id code value) (h : m.Orderly) {f : Function}
    (found : m₁.function? id = some f) :
    m'.check (f.defined d.prototype.params code value) = .ok () := by
  obtain ⟨k, foundToo, -, arity⟩ := defines.found h
  cases found.symm.trans foundToo
  obtain ⟨g, begun, checked⟩ := Module.verify_eq_true.mp defines.verified
  have opened : (bodied m₁ id code value).function? id =
      some (f.begun (code ++ [.ret value]) code.length) := Module.function?_withBody_self found
  cases begun.symm.trans opened
  -- The verifier saw the declared names; the definition's are as many, so no call changes.
  have answers : ∀ callee, (bodied m₁ id code value).Answers m' callee := by
    intro callee k foundCallee
    rw [defines.result, Module.setParamNames, Module.function?_update _ fun g => ?_, foundCallee]
    · refine ⟨_, rfl, ?_⟩
      dsimp only
      split
      · split
        · next sameLength => exact sameLength.symm
        · rfl
      · rfl
    · split <;> rfl
  exact Module.check_of_answers (f := f.begun (code ++ [.ret value]) code.length)
    (fun callee _ => answers callee) rfl arity.symm checked

theorem integral (defines : d.Defines m m₁ m' id code value) (h : m.Integral)
    (spelled : d.body.isSpelled = true) : m'.Integral := by
  have h₁ : m₁.Integral := by
    have declared := h.declared d.prototype.symbol d.prototype.params
    rwa [defines.declared] at declared
  have retains := defines.retains h.toOrderly
  obtain ⟨f, found, -, -⟩ := defines.found h.toOrderly
  -- Old bodies stay by what is retained; the new one was verified, and calls only named functions.
  refine { toOrderly := ?_, names := ?_, checked := ?_, callees := ?_ }
  · rw [defines.result_eq h.toOrderly]
    refine (h₁.toOrderly.update id (·.defined d.prototype.params code value) (fun _ => rfl)
      ?_).of_functions_eq rfl (Nat.le_refl _)
    intro g _ isNone
    contradiction
  · exact defines.functionNames_eq h.toOrderly ▸ h₁.names
  · intro g hg hasBody
    rcases defines.mem_functions h.toOrderly found hg with old | rfl
    · exact (h₁.body_stays retains old).1 hasBody
    · exact defines.check_defined h.toOrderly found
  · intro g hg
    rcases defines.mem_functions h.toOrderly found hg with old | rfl
    · exact (h₁.body_stays retains old).2
    · exact defines.callees_named h.toOrderly spelled f

end Definition.Defines

theorem Form.compile_ensures_integral {form : Form} (spelled : form.isSpelled = true) {b : Backend}
    (h : b.target.Integral) :
    Ensures form.compile b (fun _ b' => b'.target.Integral) fun _ b' => b'.target.Integral := by
  cases form with
  | declaration p =>
      simp only [Ensures, Form.compile, p.declare_eq b]
      exact h.declared p.symbol p.params
  | definition d =>
      simp only [Form.isSpelled, Bool.and_eq_true] at spelled
      refine (d.compile_ensures h.toOrderly).mono ?_ ?_
      · intro id b' outcome
        obtain ⟨-, m₁, code, value, defines⟩ := outcome
        exact defines.integral h spelled.2
      · intro e b' outcome
        exact h.sameFunctions outcome.2

/-- The backend comes from an empty one by compiling forms that a source can spell, with any plans
    of faults, and by removing the functions of bare expressions. -/
inductive Backend.Compiled : Backend → Prop where
  | empty (name : String) (canEvaluate : Bool) :
      Compiled { target := .empty name, canEvaluate }
  | setFaults {b : Backend} (faults : FaultPlan) : Compiled b → Compiled (b.setFaults faults)
  | compile {b : Backend} {form : Form} (spelled : form.isSpelled = true) :
      Compiled b → Compiled (leaves form.compile b)
  | remove {b : Backend} {id : FunctionId} (bare : b.target.lookup? anonymousSymbol = some id) :
      Compiled b → Compiled (b.remove id)

theorem Backend.Compiled.integral {b : Backend} (h : b.Compiled) : b.target.Integral := by
  induction h with
  | empty name canEvaluate => exact .empty name
  | setFaults faults _ ih => exact ih
  | compile spelled _ ih =>
      exact Keeps.holds_leaves (fun _ => Form.compile_ensures_integral spelled) ih
  | remove bare _ ih => exact ih.deleteFunction bare

/-- After any forms, faults and removals every body passes the check in the module as it is, names
    are distinct, and ids are distinct and below the next one. -/
theorem compiled_bodies_check {b : Backend} (compiled : b.Compiled) :
    (∀ f ∈ b.target.functions, f.body ≠ none → b.target.check f = .ok ()) ∧
      b.target.functionNames.Nodup ∧ (b.target.functions.map (·.id)).Nodup ∧
      ∀ f ∈ b.target.functions, f.id.index < b.target.nextId :=
  ⟨compiled.integral.checked, compiled.integral.names, compiled.integral.nodup_ids,
    compiled.integral.below⟩

/-- The first attempt at `def f(x) f(x)` stops at a planned fault, and leaves room for a second. -/
theorem compiled_bodies_check_retried :
    ∃ b, b = leaves (Form.definition ⟨⟨"f", ["x"]⟩, .call "f" [.var "x"]⟩).compile
        ((leaves (Form.definition ⟨⟨"f", ["x"]⟩, .call "f" [.var "x"]⟩).compile
          ((Backend.empty "m").setFaults { build := some 2 })).setFaults {}) ∧
      b.target.functions =
        [⟨⟨1⟩, "f", ["x"], some [.call ⟨1⟩ [.param 0] 0, .ret (.temp 0)], 1⟩] ∧
      (∀ f ∈ b.target.functions, f.body ≠ none → b.target.check f = .ok ()) ∧
      b.target.functionNames.Nodup ∧ (b.target.functions.map (·.id)).Nodup ∧
      ∀ f ∈ b.target.functions, f.id.index < b.target.nextId := by
  refine ⟨_, rfl, rfl, ?_⟩
  apply compiled_bodies_check
  have begun := (Backend.Compiled.empty "m" true).setFaults { build := some 2 }
  exact (((begun.compile (by decide)).setFaults {}).compile (by decide))

end Reckon
