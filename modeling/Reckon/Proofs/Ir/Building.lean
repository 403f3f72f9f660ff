import Reckon.Proofs.Ir.Lookup
import Reckon.Proofs.Steps

/-! # Building one body

While a body is being built, the module is the one before with a single function changed: it is
open, and has the instructions and the temporaries that were given to it so far. Every build call
takes such a module to one with a longer body, and leaving the function undoes the whole change.
-/

namespace Reckon.Ir

def Function.begun (f : Function) (body : List Instr) (nextTemp : Nat) : Function :=
  { f with body := some body, nextTemp }

namespace Module

variable {m : Module} {id other : FunctionId} {f : Function} {name : String}

/-- The module with function `id` open, its body begun and so many temporaries assigned. -/
def withBody (m : Module) (id : FunctionId) (body : List Instr) (nextTemp : Nat) : Module :=
  { m.update id (·.begun body nextTemp) with insertion := some id }

section WithBody

variable {body : List Instr} {next : Nat}

theorem function?_withBody_self (found : m.function? id = some f) :
    (m.withBody id body next).function? id = some (f.begun body next) := by
  have begun : (m.withBody id body next).function? id =
      (m.function? id).map (·.begun body next) :=
    function?_update_self (·.begun body next) fun _ => rfl
  rw [begun, found, Option.map_some]

@[simp] theorem lookup?_withBody : (m.withBody id body next).lookup? name = m.lookup? name :=
  lookup?_update (·.begun body next) (fun _ => rfl) fun _ => rfl

@[simp] theorem paramCount_withBody :
    (m.withBody id body next).paramCount other = m.paramCount other :=
  paramCount_update (·.begun body next) (fun _ => rfl) fun _ => rfl

@[simp] theorem paramValues_withBody :
    (m.withBody id body next).paramValues other = m.paramValues other := by
  simp only [paramValues, paramCount_withBody]

/-- Going on with a body replaces what was begun. -/
theorem update_withBody (body' : List Instr) (next' : Nat) {change : Function → Function}
    (goesOn : ∀ f : Function, change (f.begun body next) = f.begun body' next') :
    (m.withBody id body next).update id change = m.withBody id body' next' := by
  have merged : (m.update id (·.begun body next)).update id change =
      m.update id (change ∘ (·.begun body next)) := update_update _ _ fun _ => rfl
  simp only [Function.comp_def, goesOn] at merged
  exact congrArg (fun m : Module => { m with insertion := some id }) merged

end WithBody

end Module

namespace Build

variable {m : Module} {id : FunctionId} {f : Function} {body : List Instr} {next : Nat}

theorem openBody_eq (found : m.function? id = some f) :
    openBody id m = .ok () (m.withBody id [] 0) := by
  simp only [openBody, found, Module.withBody]
  rfl

theorem target_withBody (found : m.function? id = some f) :
    target (m.withBody id body next) = .ok (f.begun body next, body) (m.withBody id body next) := by
  have opened : (m.withBody id body next).insertion.bind (m.withBody id body next).function? =
      some (f.begun body next) := Module.function?_withBody_self found
  simp only [target, opened, Function.begun]

theorem emit_withBody (found : m.function? id = some f) (make : Nat → Instr) :
    emit make (m.withBody id body next) =
      .ok (.temp next) (m.withBody id (body ++ [make next]) (next + 1)) := by
  have sameId : (f.begun body next).id = id :=
    Module.id_of_function? (Module.function?_withBody_self found)
  rw [emit, bind_of_ok (target_withBody found)]
  change EStateM.Result.ok (Value.temp next)
    ((m.withBody id body next).update (f.begun body next).id _) = _
  rw [sameId, Module.update_withBody (body ++ [make next]) (next + 1) fun _ => rfl]

theorem ret_withBody (found : m.function? id = some f) (value : Value) :
    ret value (m.withBody id body next) =
      .ok () (m.withBody id (body ++ [.ret value]) next) := by
  have sameId : (f.begun body next).id = id :=
    Module.id_of_function? (Module.function?_withBody_self found)
  rw [ret, bind_of_ok (target_withBody found)]
  change EStateM.Result.ok () ((m.withBody id body next).update (f.begun body next).id _) = _
  rw [sameId, Module.update_withBody (body ++ [.ret value]) next fun _ => rfl]

theorem lessThan_withBody (found : m.function? id = some f) (left right : Value) :
    lessThan left right (m.withBody id body next) =
      .ok (.temp (next + 1)) (m.withBody id
        (body ++ [.lessThan left right next, .widen (.temp next) (next + 1)]) (next + 2)) := by
  rw [lessThan, bind_of_ok (emit_withBody found _), emit_withBody found, List.append_assoc]
  rfl

end Build

end Reckon.Ir
