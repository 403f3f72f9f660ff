import Reckon.Proofs.Ir.Reachable

/-! # Temporaries are numbered in order

The instructions of a body assign the temporaries from zero on, in the order in which they stand,
and the function's counter is one above the last. The verifier never looks at the counter, so this
is an invariant of the operations and not of checked bodies; evaluation depends on it, because a
call makes room for as many temporaries as were counted.
-/

namespace Reckon.Ir

def destsOf (body : List Instr) : List Nat := body.filterMap Instr.dest?

/-- The instructions assign the temporaries below the counter, in order. -/
def Function.Numbered (f : Function) : Prop := destsOf (f.body.getD []) = List.range f.nextTemp

theorem Function.Numbered.emit {f : Function} {body : List Instr} (h : f.Numbered)
    (hasBody : f.body = some body) {instr : Instr} (assigns : instr.dest? = some f.nextTemp) :
    { f with body := some (body ++ [instr]), nextTemp := f.nextTemp + 1 : Function }.Numbered := by
  have before : body.filterMap Instr.dest? = List.range f.nextTemp := by
    simpa only [Numbered, destsOf, hasBody, Option.getD_some] using h
  simp [Numbered, destsOf, before, assigns, List.range_succ]

theorem Function.Numbered.ret {f : Function} {body : List Instr} (h : f.Numbered)
    (hasBody : f.body = some body) (value : Value) :
    { f with body := some (body ++ [.ret value]) : Function }.Numbered := by
  have before : body.filterMap Instr.dest? = List.range f.nextTemp := by
    simpa only [Numbered, destsOf, hasBody, Option.getD_some] using h
  simp [Numbered, destsOf, before, Instr.dest?]

namespace Build

variable {m : Module}

/-- A step on the open function does nothing where none is open. -/
theorem leaves_target_bind (rest : Function × List Instr → Build α) (m : Module) :
    leaves (target >>= rest) m = m ∨ ∃ f body, f ∈ m.functions ∧ f.body = some body ∧
      leaves (target >>= rest) m = leaves (rest (f, body)) m := by
  cases opened : m.insertion.bind m.function? with
  | none =>
      left
      simp only [leaves, Bind.bind, EStateM.bind, target, opened]
  | some f =>
      obtain ⟨id, -, found⟩ := Option.bind_eq_some_iff.mp opened
      cases hasBody : f.body with
      | none =>
          left
          simp only [leaves, Bind.bind, EStateM.bind, target, opened, hasBody]
      | some body =>
          refine .inr ⟨f, body, Module.mem_of_function? found, hasBody, ?_⟩
          simp only [leaves, Bind.bind, EStateM.bind, target, opened, hasBody]

end Build

namespace Module

/-- An orderly module whose functions all are numbered. -/
structure Numbered (m : Module) : Prop extends m.Orderly where
  numbered : ∀ f ∈ m.functions, f.Numbered

namespace Numbered

variable {m : Module}

theorem update {id : FunctionId} {change : Function → Function}
    (h : ∀ f ∈ m.functions, f.Numbered)
    (renumbered : ∀ f ∈ m.functions, f.id = id → f.Numbered → (change f).Numbered) :
    ∀ f ∈ (m.update id change).functions, f.Numbered := by
  intro g hg
  obtain ⟨f, hf, rfl⟩ := List.mem_map.mp hg
  split
  · next same => exact renumbered f hf same (h f hf)
  · exact h f hf

theorem emit (h : m.Numbered) {make : Nat → Instr} (assigns : ∀ n, (make n).dest? = some n) :
    (leaves (Build.emit make) m).Numbered := by
  refine ⟨(Build.keeps_emit make).holds_leaves h.toOrderly, ?_⟩
  rcases Build.leaves_target_bind _ m with same | ⟨f, body, hf, hasBody, emitted⟩
  · rw [Build.emit, same]
    exact h.numbered
  · rw [Build.emit, emitted]
    refine update h.numbered fun g hg sameId numbered => ?_
    obtain rfl := h.eq_of_id_eq hg hf sameId
    exact numbered.emit hasBody (assigns _)

theorem ret (h : m.Numbered) (value : Value) : (leaves (Build.ret value) m).Numbered := by
  refine ⟨(Build.keeps_ret value).holds_leaves h.toOrderly, ?_⟩
  rcases Build.leaves_target_bind _ m with same | ⟨f, body, hf, hasBody, returned⟩
  · rw [Build.ret, same]
    exact h.numbered
  · rw [Build.ret, returned]
    refine update h.numbered fun g hg sameId numbered => ?_
    obtain rfl := h.eq_of_id_eq hg hf sameId
    exact numbered.ret hasBody value

theorem lessThan (h : m.Numbered) (left right : Value) :
    (leaves (Build.lessThan left right) m).Numbered := by
  have keeps : Keeps Numbered (Build.lessThan left right) :=
    .bind (.of_leaves fun _ h => h.emit fun _ => rfl)
      fun truth => .of_leaves fun _ h => h.emit fun _ => rfl
  exact keeps.holds_leaves h

theorem openBody (h : m.Numbered) (id : FunctionId) :
    (leaves (Build.openBody id) m).Numbered := by
  refine ⟨(Build.keeps_openBody id).holds_leaves h.toOrderly, ?_⟩
  unfold leaves Build.openBody
  cases m.function? id with
  | none => exact h.numbered
  | some f => exact update h.numbered fun _ _ _ _ => rfl

end Numbered

end Module

theorem Operation.numbered {m : Module} (operation : Operation) (h : m.Numbered) :
    (operation.apply m).Numbered := by
  cases operation with
  | addFunction name params =>
      refine ⟨h.addFunction name params, fun f hf => ?_⟩
      rcases List.mem_append.mp hf with hf | hf
      · exact h.numbered f hf
      · obtain rfl := List.mem_singleton.mp hf
        rfl
  | setParamNames id names =>
      refine ⟨h.setParamNames id names, Module.Numbered.update h.numbered ?_⟩
      intro f hf _ numbered
      split <;> exact numbered
  | openBody id => exact h.openBody id
  | arith op left right => exact h.emit fun _ => rfl
  | lessThan left right => exact h.lessThan left right
  | call callee args => exact h.emit fun _ => rfl
  | ret value => exact h.ret value
  | clearBody id =>
      refine ⟨h.clearBody id, ?_⟩
      simp only [apply, Module.clearBody, Module.functions_leave]
      exact Module.Numbered.update h.numbered fun _ _ _ _ => rfl
  | deleteFunction id =>
      refine ⟨h.deleteFunction id, fun f hf => ?_⟩
      simp only [apply, Module.functions_deleteFunction] at hf
      exact h.numbered f (List.mem_of_mem_filter hf)

theorem Module.Reachable.numbered {m : Module} (h : m.Reachable) : m.Numbered := by
  induction h with
  | empty name => exact ⟨.empty name, by simp [Module.empty]⟩
  | apply operation _ ih => exact operation.numbered ih

end Reckon.Ir
