import Reckon.Ir.Build

/-! # Finding functions

Which function a module gives for an id or a name, after the module was changed. A change of one
function that keeps its id and its name moves nothing else, and a new declaration stands behind
all functions that were there.
-/

namespace Reckon.Ir.Module

variable {m : Module} {id other : FunctionId} {f : Function} {name : String}

theorem id_of_function? (found : m.function? id = some f) : f.id = id := by
  simpa only [decide_eq_true_eq] using List.find?_some found

theorem mem_of_function? (found : m.function? id = some f) : f ∈ m.functions :=
  List.mem_of_find?_eq_some found

/-- The signature of a name: its function, with the number of its parameters. -/
def callee? (m : Module) (name : String) : Option (FunctionId × Nat) :=
  (m.lookup? name).map fun id => (id, m.paramCount id)

theorem lookup?_eq_none : m.lookup? name = none ↔ name ∉ m.functionNames := by
  simp [lookup?, functionNames]

theorem functionNames_addFunction (m : Module) (name : String) (params : List String) :
    (m.addFunction name params).2.functionNames = m.functionNames ++ [name] := by
  simp only [functionNames, addFunction, List.map_append, List.map_cons, List.map_nil]

@[simp] theorem functions_leave : (m.leave id).functions = m.functions := by
  unfold leave
  split <;> rfl

theorem functions_deleteFunction :
    (m.deleteFunction id).functions = m.functions.filter (·.id ≠ id) := by
  simp only [deleteFunction, functions_leave]

section Update

variable (change : Function → Function)

theorem function?_update (keepsId : ∀ f, (change f).id = f.id) :
    (m.update id change).function? other =
      (m.function? other).map fun f => if f.id = id then change f else f := by
  simp only [function?, update, List.find?_map]
  congr 2
  funext f
  simp only [Function.comp]
  split <;> simp only [keepsId]

theorem function?_update_self (keepsId : ∀ f, (change f).id = f.id) :
    (m.update id change).function? id = (m.function? id).map change := by
  rw [function?_update change keepsId]
  cases found : m.function? id with
  | none => rfl
  | some f => simp only [Option.map_some, id_of_function? found, if_true]

theorem lookup?_update (keepsId : ∀ f, (change f).id = f.id)
    (keepsName : ∀ f, (change f).name = f.name) :
    (m.update id change).lookup? name = m.lookup? name := by
  simp only [lookup?, update, List.find?_map, Option.map_map]
  have samePredicate : ((fun f : Function => decide (f.name = name)) ∘
      fun f => if f.id = id then change f else f) = fun f => decide (f.name = name) := by
    funext f
    simp only [Function.comp]
    split <;> simp only [keepsName]
  rw [samePredicate]
  congr 1
  funext f
  simp only [Function.comp]
  split <;> simp only [keepsId]

theorem paramCount_update (keepsId : ∀ f, (change f).id = f.id)
    (keepsArity : ∀ f, (change f).params.length = f.params.length) :
    (m.update id change).paramCount other = m.paramCount other := by
  simp only [paramCount, function?_update change keepsId]
  cases m.function? other with
  | none => rfl
  | some f =>
      simp only [Option.map_some]
      split <;> simp only [keepsArity]

theorem update_update (change' : Function → Function) (keepsId : ∀ f, (change f).id = f.id) :
    (m.update id change).update id change' = m.update id (change' ∘ change) := by
  simp only [update, List.map_map]
  congr 2
  funext f
  simp only [Function.comp]
  by_cases same : f.id = id
  · simp only [same, keepsId, if_true]
  · simp only [same, if_false]

/-- A change of one function and a change of all functions may be made in either order. -/
theorem update_map (change' : Function → Function) (keepsId : ∀ f, (change' f).id = f.id)
    (commute : ∀ f, change (change' f) = change' (change f)) :
    ({ m with functions := m.functions.map change' } : Module).update id change =
      { m.update id change with functions := (m.update id change).functions.map change' } := by
  simp only [update, List.map_map]
  congr 2
  funext f
  simp only [Function.comp, keepsId]
  by_cases same : f.id = id
  · simp only [if_pos same, commute]
  · simp only [if_neg same]

theorem update_eq_self (same : ∀ f ∈ m.functions, f.id = id → change f = f) :
    m.update id change = m := by
  have unchanged : (m.functions.map fun f => if f.id = id then change f else f) = m.functions := by
    refine List.map_congr_left (fun f hf => ?_) |>.trans (List.map_id _)
    split
    · next found => exact same f hf found
    · rfl
  simp only [update, unchanged]

theorem filter_update (keepsId : ∀ f, (change f).id = f.id) :
    (m.update id change).functions.filter (·.id ≠ id) = m.functions.filter (·.id ≠ id) := by
  simp only [update]
  induction m.functions with
  | nil => rfl
  | cons f rest ih =>
      by_cases same : f.id = id
      · simpa [same, keepsId] using ih
      · simpa [same] using ih

end Update

end Reckon.Ir.Module
