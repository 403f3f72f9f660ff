import Mathlib.Data.List.Nodup
import Reckon.Proofs.Ir.Lookup
import Reckon.Proofs.Steps

/-! # Reachable modules

A module is reachable if operations lead to it from an empty one, in any order and with any names,
operands and ids, sensible or not. Whatever they were, a reachable module is orderly: its functions
stand in the order of their ids, ids to come are new, and a declaration keeps no temporaries.
-/

namespace Reckon.Ir

/-- An operation that changes a module. -/
inductive Operation where
  | addFunction (name : String) (params : List String)
  | setParamNames (id : FunctionId) (names : List String)
  | openBody (id : FunctionId)
  | arith (op : Arith) (left right : Value)
  | lessThan (left right : Value)
  | call (callee : FunctionId) (args : List Value)
  | ret (value : Value)
  | clearBody (id : FunctionId)
  | deleteFunction (id : FunctionId)
  deriving DecidableEq, Repr

/-- The module after an operation, which may have failed. -/
def Operation.apply (m : Module) : Operation → Module
  | addFunction name params => (m.addFunction name params).2
  | setParamNames id names => m.setParamNames id names
  | openBody id => leaves (Build.openBody id) m
  | arith op left right => leaves (Build.arith op left right) m
  | lessThan left right => leaves (Build.lessThan left right) m
  | call callee args => leaves (Build.call callee args) m
  | ret value => leaves (Build.ret value) m
  | clearBody id => m.clearBody id
  | deleteFunction id => m.deleteFunction id

namespace Module

/-- Operations lead to the module from an empty one. -/
inductive Reachable : Module → Prop where
  | empty (name : String) : Reachable (.empty name)
  | apply {m : Module} (operation : Operation) : Reachable m → Reachable (operation.apply m)

/-- What the order of operations cannot break. -/
structure Orderly (m : Module) : Prop where
  /-- Functions stand in the order in which they were added. -/
  increasing : m.functions.Pairwise fun f g => f.id.index < g.id.index
  /-- The next id is new. -/
  below : ∀ f ∈ m.functions, f.id.index < m.nextId
  /-- A declaration has assigned no temporary. -/
  blank : ∀ f ∈ m.functions, f.body = none → f.nextTemp = 0

namespace Orderly

variable {m : Module}

theorem nodup_ids (h : m.Orderly) : (m.functions.map (·.id)).Nodup := by
  refine List.pairwise_map.mpr (h.increasing.imp ?_)
  intro f g lt same
  rw [same] at lt
  exact Nat.lt_irrefl _ lt

theorem eq_of_id_eq (h : m.Orderly) {f g : Function} (hf : f ∈ m.functions)
    (hg : g ∈ m.functions) (same : f.id = g.id) : f = g :=
  List.inj_on_of_nodup_map h.nodup_ids hf hg same

theorem eq_of_function? (h : m.Orderly) {id : FunctionId} {f g : Function}
    (found : m.function? id = some f) (hg : g ∈ m.functions) (same : g.id = id) : g = f :=
  h.eq_of_id_eq hg (mem_of_function? found) (same.trans (id_of_function? found).symm)

theorem function?_of_mem (h : m.Orderly) {f : Function} (hf : f ∈ m.functions) :
    m.function? f.id = some f := by
  obtain ⟨g, found⟩ : ∃ g, m.function? f.id = some g := by
    apply Option.isSome_iff_exists.mp
    rw [function?, List.find?_isSome]
    exact ⟨f, hf, by simp only [decide_true]⟩
  rw [found, h.eq_of_id_eq (mem_of_function? found) hf (id_of_function? found)]

theorem function?_of_lookup? (h : m.Orderly) {name : String} {id : FunctionId}
    (found : m.lookup? name = some id) :
    ∃ f, m.function? id = some f ∧ f ∈ m.functions ∧ f.name = name := by
  obtain ⟨f, first, rfl⟩ := Option.map_eq_some_iff.mp found
  have mem := List.mem_of_find?_eq_some first
  exact ⟨f, h.function?_of_mem mem, mem, by simpa using List.find?_some first⟩

theorem fresh (h : m.Orderly) {f : Function} (hf : f ∈ m.functions) : f.id ≠ ⟨m.nextId⟩ := by
  intro same
  have := h.below f hf
  rw [same] at this
  exact Nat.lt_irrefl _ this

theorem empty (name : String) : (Module.empty name).Orderly where
  increasing := .nil
  below := by simp [Module.empty]
  blank := by simp [Module.empty]

theorem of_functions_eq {m' : Module} (h : m.Orderly) (functions : m'.functions = m.functions)
    (nextId : m.nextId ≤ m'.nextId) : m'.Orderly where
  increasing := functions ▸ h.increasing
  below f hf := Nat.lt_of_lt_of_le (h.below f (functions ▸ hf)) nextId
  blank := functions ▸ h.blank

theorem update (h : m.Orderly) (id : FunctionId) (change : Function → Function)
    (keepsId : ∀ f, (change f).id = f.id)
    (keepsBlank : ∀ f, (f.body = none → f.nextTemp = 0) →
      (change f).body = none → (change f).nextTemp = 0) :
    (m.update id change).Orderly := by
  have sameId : ∀ f : Function, (if f.id = id then change f else f).id = f.id := by
    intro f
    split <;> simp only [keepsId]
  constructor
  · refine List.pairwise_map.mpr (h.increasing.imp ?_)
    intro f g lt
    simpa only [sameId] using lt
  · intro g hg
    obtain ⟨f, hf, rfl⟩ := List.mem_map.mp hg
    rw [sameId]
    exact h.below f hf
  · intro g hg
    obtain ⟨f, hf, rfl⟩ := List.mem_map.mp hg
    split
    · exact keepsBlank f (h.blank f hf)
    · exact h.blank f hf

theorem addFunction (h : m.Orderly) (name : String) (params : List String) :
    (m.addFunction name params).2.Orderly := by
  constructor
  · refine List.pairwise_append.mpr ⟨h.increasing, List.pairwise_singleton _ _, ?_⟩
    intro f hf g hg
    rw [List.mem_singleton.mp hg]
    exact h.below f hf
  · intro f hf
    rcases List.mem_append.mp hf with hf | hf
    · exact Nat.lt_succ_of_lt (h.below f hf)
    · rw [List.mem_singleton.mp hf]
      exact Nat.lt_succ_self _
  · intro f hf
    rcases List.mem_append.mp hf with hf | hf
    · exact h.blank f hf
    · rw [List.mem_singleton.mp hf]
      exact fun _ => rfl

theorem leave (h : m.Orderly) (id : FunctionId) : (m.leave id).Orderly := by
  unfold Module.leave
  split
  · exact h.of_functions_eq rfl (Nat.le_refl _)
  · exact h

theorem setParamNames (h : m.Orderly) (id : FunctionId) (names : List String) :
    (m.setParamNames id names).Orderly := by
  refine h.update id _ ?_ ?_
  · intro f
    split <;> rfl
  · intro f blank
    split <;> exact blank

theorem clearBody (h : m.Orderly) (id : FunctionId) : (m.clearBody id).Orderly :=
  (h.update id (fun f => { f with body := none, nextTemp := 0 }) (fun _ => rfl)
    fun _ _ _ => rfl).leave id

theorem deleteFunction (h : m.Orderly) (id : FunctionId) : (m.deleteFunction id).Orderly := by
  refine leave ?_ id
  exact {
    increasing := h.increasing.filter _
    below := fun f hf => h.below f (List.mem_of_mem_filter hf)
    blank := fun f hf => h.blank f (List.mem_of_mem_filter hf) }

end Orderly

end Module

namespace Build

theorem keeps_openBody (id : FunctionId) : Keeps Module.Orderly (openBody id) := by
  intro m h
  simp only [Ensures, openBody]
  cases m.function? id with
  | none => exact h
  | some f =>
      have begun := h.update id (fun f => { f with body := some [], nextTemp := 0 })
        (fun _ => rfl) fun _ _ _ => rfl
      exact begun.of_functions_eq rfl (Nat.le_refl _)

theorem target_ensures (m : Module) :
    Ensures target m (fun _ m' => m' = m) (fun _ m' => m' = m) := by
  simp only [Ensures, target]
  cases m.insertion.bind m.function? with
  | none => rfl
  | some f => cases found : f.body <;> simp only [found]

theorem keeps_emit (make : Nat → Instr) : Keeps Module.Orderly (emit make) := by
  intro m h
  refine (target_ensures m).mono (fun _ _ same => same) (fun _ _ same => same ▸ h) |>.bind ?_
  rintro ⟨f, body⟩ m' rfl
  exact h.update f.id _ (fun _ => rfl) fun _ _ isNone => nomatch isNone

theorem keeps_ret (value : Value) : Keeps Module.Orderly (ret value) := by
  intro m h
  refine (target_ensures m).mono (fun _ _ same => same) (fun _ _ same => same ▸ h) |>.bind ?_
  rintro ⟨f, body⟩ m' rfl
  exact h.update f.id _ (fun _ => rfl) fun _ _ isNone => nomatch isNone

end Build

theorem Operation.orderly {m : Module} (operation : Operation) (h : m.Orderly) :
    (operation.apply m).Orderly := by
  cases operation with
  | addFunction name params => exact h.addFunction name params
  | setParamNames id names => exact h.setParamNames id names
  | openBody id => exact (Build.keeps_openBody id).holds_leaves h
  | arith op left right => exact (Build.keeps_emit _).holds_leaves h
  | lessThan left right =>
      exact ((Build.keeps_emit _).bind fun _ => Build.keeps_emit _).holds_leaves h
  | call callee args => exact (Build.keeps_emit _).holds_leaves h
  | ret value => exact (Build.keeps_ret value).holds_leaves h
  | clearBody id => exact h.clearBody id
  | deleteFunction id => exact h.deleteFunction id

theorem Module.Reachable.applyAll {m : Module} (h : m.Reachable) (operations : List Operation) :
    (operations.foldl Operation.apply m).Reachable := by
  induction operations generalizing m with
  | nil => exact h
  | cons operation operations ih => exact ih (.apply operation h)

theorem Module.Reachable.orderly {m : Module} (h : m.Reachable) : m.Orderly := by
  induction h with
  | empty name => exact .empty name
  | apply operation _ ih => exact operation.orderly ih

end Reckon.Ir
