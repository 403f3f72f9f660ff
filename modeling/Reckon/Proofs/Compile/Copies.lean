import Reckon.Proofs.Compile.Scoping
import Reckon.Proofs.Meaning.Renaming

/-! # Compiling into a copy

Two modules with the same functions in the same order, under other ids, take the same forms. What
compiles in one compiles in the other, to a function of the same text, and leaves such modules
again; what is refused in one is refused in the other, for the same reason.
-/

namespace Reckon

open Ir

/-- The first lowering gives the code of the second one, with callees under other ids. -/
def Lowering.Renames (ρ : FunctionId → FunctionId) (x' x : Lowering α) : Prop :=
  ∀ next, x' next = (x next).map fun (code, a) => (renameCode ρ code, a)

namespace Lowering.Renames

variable {ρ : FunctionId → FunctionId}

theorem pure (a : α) : Renames ρ (Pure.pure a) (Pure.pure a) := fun _ => rfl

theorem fail (e : CompileError) : Renames ρ (.fail e : Lowering α) (.fail e) := fun _ => rfl

theorem bind {x' x : Lowering α} {f' f : α → Lowering β} (first : Renames ρ x' x)
    (rest : ∀ a, Renames ρ (f' a) (f a)) : Renames ρ (x' >>= f') (x >>= f) := by
  intro next
  cases start : x next with
  | error e =>
      have start' : x' next = .error e := by
        rw [first next, start]
        rfl
      rw [bind_eq_error start, bind_eq_error start']
      rfl
  | ok result =>
      obtain ⟨code, a⟩ := result
      have start' : x' next = .ok (renameCode ρ code, a) := by
        rw [first next, start]
        rfl
      rw [bind_eq start, bind_eq start', length_renameCode, rest a]
      cases f a (next + code.length) with
      | error e => rfl
      | ok result => simp only [Except.map, renameCode_append]

theorem operator (op : Char) (left right : Value) :
    Renames ρ (lowerOperator op left right) (lowerOperator op left right) := by
  intro next
  unfold lowerOperator
  split <;> rfl

end Lowering.Renames

section Lowered

variable {ρ : FunctionId → FunctionId} {callee? callee?' : String → Option (FunctionId × Nat)}

mutual
/-- Only the functions matter that the expression calls by name. -/
theorem Expr.lower_renames (scope : Scope) (e : Expr)
    (known : ∀ name args, .call name args ∈ e.parts →
      callee?' name = (callee? name).map fun (id, count) => (ρ id, count)) :
    Lowering.Renames ρ (e.lower callee?' scope) (e.lower callee? scope) := by
  cases e with
  | number value => exact .pure _
  | var name =>
      simp only [Expr.lower]
      cases scope.lookup name with
      | none => exact .fail _
      | some value => exact .pure _
  | binary op left right =>
      simp only [Expr.parts, List.mem_cons, List.mem_append] at known
      simp only [Expr.lower]
      apply (Expr.lower_renames scope left fun name args mem =>
        known name args (.inr (.inl mem))).bind
      intro l
      apply (Expr.lower_renames scope right fun name args mem =>
        known name args (.inr (.inr mem))).bind
      intro r
      exact .operator op l r
  | call callee args =>
      simp only [Expr.parts, List.mem_cons] at known
      simp only [Expr.lower, known callee args (.inl rfl)]
      cases callee? callee with
      | none => exact .fail _
      | some signature =>
          simp only [Option.map_some]
          split
          · apply (lowerArgs_renames scope args fun name args mem =>
              known name args (.inr mem)).bind
            exact fun values next => rfl
          · exact .fail _
termination_by sizeOf e

theorem lowerArgs_renames (scope : Scope) (args : List Expr)
    (known : ∀ name inner, .call name inner ∈ argParts args →
      callee?' name = (callee? name).map fun (id, count) => (ρ id, count)) :
    Lowering.Renames ρ (lowerArgs callee?' scope args) (lowerArgs callee? scope args) := by
  cases args with
  | nil => exact .pure _
  | cons arg args =>
      simp only [argParts, List.mem_append] at known
      simp only [lowerArgs]
      apply (Expr.lower_renames scope arg fun name inner mem =>
        known name inner (.inl mem)).bind
      intro value
      apply (lowerArgs_renames scope args fun name inner mem =>
        known name inner (.inr mem)).bind
      exact fun values => .pure _
termination_by sizeOf args
end

end Lowered

namespace Ir.Module

variable {ρ : FunctionId → FunctionId} {m m' : Module} {id : FunctionId}

/-- The same functions in the same order under other ids, in a module of the same name. -/
structure Copies (ρ : FunctionId → FunctionId) (m m' : Module) : Prop where
  name : m'.name = m.name
  functions : m'.functions = m.functions.map (·.rename ρ)

namespace Copies

theorem refl (m : Module) : m.Copies (fun id => id) m where
  name := rfl
  functions := ((List.map_congr_left fun f _ => f.rename_self).trans (List.map_id _)).symm

theorem mirrors (copies : m.Copies ρ m') : m.Mirrors ρ m' := .of_eq copies.functions.symm

theorem sameFunctions {n n' : Module} (copies : m.Copies ρ m') (same : m.SameFunctions n)
    (same' : m'.SameFunctions n') : n.Copies ρ n' where
  name := by rw [same'.name, same.name, copies.name]
  functions := by rw [same'.functions, same.functions, copies.functions]

theorem text_eq (copies : m.Copies ρ m') (h : m.Integral) (h' : m'.Orderly) :
    m'.text = m.text := by
  have texts : m'.functions.map (fun f => "\n" ++ m'.functionText f) =
      m.functions.map fun f => "\n" ++ m.functionText f := by
    rw [copies.functions, List.map_map]
    apply List.map_congr_left
    intro f hf
    simp only [Function.comp, copies.mirrors.functionText_eq h h' hf]
  unfold text
  rw [copies.name, texts]

theorem id_inj (copies : m.Copies ρ m') (h : m.Integral) (h' : m'.Orderly) {f g : Function}
    (hf : f ∈ m.functions) (hg : g ∈ m.functions) (same : ρ f.id = ρ g.id) : f = g := by
  have mem : ∀ k ∈ m.functions, k.rename ρ ∈ m'.functions :=
    fun k hk => copies.functions ▸ List.mem_map_of_mem hk
  have renamed := h'.eq_of_id_eq (mem f hf) (mem g hg) same
  have sameName : (f.rename ρ).name = (g.rename ρ).name := by rw [renamed]
  exact h.eq_of_name_eq hf hg sameName

/-- Declaring a name in a module and in its copy gives a module and its copy. -/
theorem declared (copies : m.Copies ρ m') (h : m.Integral) (h' : m'.Integral) (name : String)
    (params : List String) :
    ∃ ρ', (m.declared name params).2.Copies ρ' (m'.declared name params).2 ∧
      (m'.declared name params).1 = ρ' (m.declared name params).1 := by
  have lookup' := copies.mirrors.lookup?_eq h.toOrderly h' name
  cases lookup : m.lookup? name with
  | some id =>
      rw [lookup] at lookup'
      rw [declared_of_some lookup, declared_of_some lookup']
      exact ⟨ρ, copies, rfl⟩
  | none =>
      rw [lookup] at lookup'
      rw [declared_of_none lookup, declared_of_none lookup']
      let ρ' : FunctionId → FunctionId := fun id => if id = ⟨m.nextId⟩ then ⟨m'.nextId⟩ else ρ id
      have new : ρ' ⟨m.nextId⟩ = ⟨m'.nextId⟩ := if_pos rfl
      have old : ∀ f ∈ m.functions, ρ' f.id = ρ f.id := fun f hf => if_neg (h.fresh hf)
      refine ⟨ρ', ⟨copies.name, ?_⟩, new.symm⟩
      have stays : m.functions.map (·.rename ρ') = m.functions.map (·.rename ρ) := by
        apply List.map_congr_left
        intro f hf
        refine Function.rename_congr (old f hf) fun id called => ?_
        obtain ⟨g, found, -⟩ := h.callees f hf id called
        rw [← id_of_function? found]
        exact old g (mem_of_function? found)
      have added : (⟨⟨m.nextId⟩, name, params, none, 0⟩ : Function).rename ρ' =
          ⟨⟨m'.nextId⟩, name, params, none, 0⟩ := by
        simp only [Function.rename, new, Option.map_none]
      simp only [addFunction, List.map_append, stays, copies.functions, List.map_cons,
        List.map_nil, added]

end Copies

theorem Orderly.function?_declared (h : m.Orderly) (name : String) (params : List String) :
    ∃ f, (m.declared name params).2.function? (m.declared name params).1 = some f := by
  cases lookup : m.lookup? name with
  | some id =>
      rw [declared_of_some lookup]
      obtain ⟨f, found, -⟩ := h.function?_of_lookup? lookup
      exact ⟨f, found⟩
  | none =>
      rw [declared_of_none lookup]
      exact ⟨_, h.function?_new name params⟩

end Ir.Module

namespace Definition

variable {ρ : FunctionId → FunctionId} {m m' m₁ m₁' : Module} {id : FunctionId}

theorem lowered_eq (d : Definition) (mirrors : m.Mirrors ρ m') (h : m.Orderly)
    (h' : m'.Integral) {f : Function} (found : m.function? id = some f) :
    d.lowered m' (ρ id) =
      (d.lowered m id).map fun (code, value) => (renameCode ρ code, value) := by
  have params : m'.paramValues (ρ id) = m.paramValues id := by
    simp only [Module.paramValues, mirrors.paramCount_eq h'.toOrderly found]
  rw [lowered, params]
  exact Expr.lower_renames _ d.body (fun name _ _ => mirrors.callee?_eq h h' name) 0

/-- A copy has the same verdict on a definition, but for the ids in its code. -/
theorem verdict_eq (d : Definition)
    (declared : m.declared d.prototype.symbol d.prototype.params = (id, m₁))
    (declared' : m'.declared d.prototype.symbol d.prototype.params = (ρ id, m₁'))
    (mirrors : m₁.Mirrors ρ m₁') (h : m₁.Orderly) (h' : m₁'.Integral) {f : Function}
    (found : m₁.function? id = some f) :
    d.verdict m' = (d.verdict m).map fun (code, value) => (renameCode ρ code, value) := by
  simp only [verdict, declared, declared', mirrors.hasBody_eq h'.toOrderly found,
    mirrors.paramCount_eq h'.toOrderly found, d.lowered_eq mirrors h h' found]
  split
  · rfl
  · split <;> rfl

theorem Defines.copies {d : Definition} {n n' : Module} {code : List Instr} {value : Value}
    (defines : d.Defines m m₁ n id code value)
    (defines' : d.Defines m' m₁' n' (ρ id) (renameCode ρ code) value) (h : m.Orderly)
    (h' : m'.Orderly) (h₁ : m₁.Integral) (copies : m₁.Copies ρ m₁') : n.Copies ρ n' := by
  obtain ⟨f, found, -⟩ := defines.found h
  have hf := Module.mem_of_function? found
  rw [defines.result_eq h, defines'.result_eq h']
  refine ⟨copies.name, ?_⟩
  simp only [Module.update, copies.functions, List.map_map]
  apply List.map_congr_left
  intro g hg
  by_cases same : g.id = id
  · have renamed : (g.rename ρ).id = ρ id := congrArg ρ same
    simp only [Function.comp, if_pos same, if_pos renamed]
    exact (g.rename_defined ρ d.prototype.params code value).symm
  · have different : (g.rename ρ).id ≠ ρ id := by
      rw [← Module.id_of_function? found] at same ⊢
      intro renamed
      exact same (congrArg Function.id
        (copies.id_inj h₁ (defines'.orderly h') hg hf renamed))
    simp only [Function.comp, if_neg same, if_neg different]

end Definition

/-- A form is refused in both backends for the same reason, or compiles in both: to a function of
    one, and the same of a copy. -/
inductive CompiledAlike : EStateM.Result CompileError Backend FunctionId →
    EStateM.Result CompileError Backend FunctionId → Prop
  | refused {e : CompileError} {c c' : Backend} : CompiledAlike (.error e c) (.error e c')
  | compiled {ρ : FunctionId → FunctionId} {id : FunctionId} {f : Function} {c c' : Backend} :
    c.target.Copies ρ c'.target → c.target.function? id = some f →
    CompiledAlike (.ok id c) (.ok (ρ id) c')

theorem Definition.compile_alike {ρ : FunctionId → FunctionId} {b b' : Backend} (d : Definition)
    (clean : b.faults = {}) (clean' : b'.faults = {}) (h : b.target.Integral)
    (h' : b'.target.Integral) (copies : b.target.Copies ρ b'.target) :
    CompiledAlike (d.compile b) (d.compile b') := by
  obtain ⟨ρ', copies₁, ids⟩ := copies.declared h h' d.prototype.symbol d.prototype.params
  obtain ⟨f, found⟩ := h.function?_declared d.prototype.symbol d.prototype.params
  have h₁ := h.declared d.prototype.symbol d.prototype.params
  have h₁' := h'.declared d.prototype.symbol d.prototype.params
  have verdicts := d.verdict_eq rfl (Prod.ext ids rfl) copies₁.mirrors h₁.toOrderly h₁' found
  have outcome := d.compile_clean clean h.toOrderly
  have outcome' := d.compile_clean clean' h'.toOrderly
  cases run : d.compile b with
  | error e c =>
      rw [outcome.of_error run] at verdicts
      cases run' : d.compile b' with
      | error e' c' =>
          cases (outcome'.of_error run').symm.trans verdicts
          exact .refused
      | ok id' c' =>
          obtain ⟨_, _, _, _, verdict'⟩ := outcome'.of_ok run'
          cases verdict'.symm.trans verdicts
  | ok id c =>
      obtain ⟨m₁, code, value, defines, verdict⟩ := outcome.of_ok run
      rw [verdict] at verdicts
      cases run' : d.compile b' with
      | error e' c' => cases (outcome'.of_error run').symm.trans verdicts
      | ok id' c' =>
          obtain ⟨m₁', code', value', defines', verdict'⟩ := outcome'.of_ok run'
          cases verdict'.symm.trans verdicts
          rw [defines.declared] at copies₁ ids h₁
          rw [defines'.declared] at copies₁ ids
          have same : id' = ρ' id := ids
          subst same
          obtain ⟨g, found₁, -⟩ := defines.found h.toOrderly
          exact .compiled
            (defines.copies defines' h.toOrderly h'.toOrderly h₁ copies₁)
            (defines.function?_defined h.toOrderly found₁)

theorem Form.compile_alike {ρ : FunctionId → FunctionId} {b b' : Backend} (form : Form)
    (clean : b.faults = {}) (clean' : b'.faults = {}) (h : b.target.Integral)
    (h' : b'.target.Integral) (copies : b.target.Copies ρ b'.target) :
    CompiledAlike (form.compile b) (form.compile b') := by
  cases form with
  | definition d => exact d.compile_alike clean clean' h h' copies
  | declaration p =>
      obtain ⟨ρ', copies', ids⟩ := copies.declared h h' p.symbol p.params
      obtain ⟨f, found⟩ := h.function?_declared p.symbol p.params
      simp only [Form.compile, p.declare_eq, ids]
      exact .compiled copies' found

end Reckon
