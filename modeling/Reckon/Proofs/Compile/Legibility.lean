import Reckon.Proofs.Compile.Operations
import Reckon.Proofs.Meaning.Sessions
import Reckon.Proofs.Text.Printing

/-! # Compiled modules are legible

Compiling keeps modules legible: a body reads its parameters through a scope that knows the last one
of each name, and names and parameters of spelled forms are identifiers. Declarations keep their
names until a body that goes by other ones takes their place.
-/

namespace Reckon

open Ir

namespace Lowering

variable {P : Value → Prop}

/-- The code reads only such operands, and so does what goes on from it. -/
def Reads (P : Value → Prop) (Q : α → Prop) (x : Lowering α) : Prop :=
  ∀ next code a, x next = .ok (code, a) → Q a ∧
    ∀ instr ∈ code, ∀ value ∈ instr.operands, P value

namespace Reads

theorem pure {Q : α → Prop} {a : α} (h : Q a) : Reads P Q (Pure.pure a) := by
  intro next code b lowered
  cases lowered
  exact ⟨h, fun _ mem => absurd mem List.not_mem_nil⟩

theorem fail {Q : α → Prop} (e : CompileError) : Reads P Q (.fail e) := by
  intro next code a lowered
  cases lowered

theorem emit (temps : ∀ n, P (.temp n)) {make : Nat → Instr}
    (reads : ∀ n, ∀ value ∈ (make n).operands, P value) : Reads P P (.emit make) := by
  intro next code value lowered
  cases lowered
  refine ⟨temps next, fun instr mem => ?_⟩
  rw [List.mem_singleton.mp mem]
  exact reads next

theorem bind {Q : α → Prop} {R : β → Prop} {x : Lowering α} {f : α → Lowering β}
    (first : Reads P Q x) (rest : ∀ a, Q a → Reads P R (f a)) : Reads P R (x >>= f) := by
  intro next code b lowered
  obtain ⟨begun, a, more, start, goesOn, rfl⟩ := Lowering.of_bind_eq_ok lowered
  obtain ⟨holds, here⟩ := first _ _ _ start
  obtain ⟨result, there⟩ := rest a holds _ _ _ goesOn
  exact ⟨result, fun instr mem => (List.mem_append.mp mem).elim (here instr) (there instr)⟩

theorem operator (temps : ∀ n, P (.temp n)) (op : Char) {left right : Value} (hl : P left)
    (hr : P right) : Reads P P (lowerOperator op left right) := by
  have both : ∀ value ∈ [left, right], P value := by simp [hl, hr]
  unfold lowerOperator
  split
  · apply emit temps
    exact fun _ => both
  · apply emit temps
    exact fun _ => both
  · apply emit temps
    exact fun _ => both
  · have compared : Reads P P (.emit (.lessThan left right)) := by
      apply emit temps
      exact fun _ => both
    refine compared.bind fun truth isTemp => emit temps fun _ => ?_
    simpa [Instr.operands] using isTemp
  · exact fail _

end Reads

end Lowering

/-- Temporaries, constants and what the scope knows are such operands. -/
structure Scope.Yields (scope : Scope) (P : Value → Prop) : Prop where
  temps : ∀ n, P (.temp n)
  consts : ∀ d, P (.const d)
  bound : ∀ name value, scope.lookup name = some value → P value

section Lowered

variable {P : Value → Prop} {callee? : String → Option (FunctionId × Nat)} {scope : Scope}

mutual
theorem Expr.lower_reads (yields : scope.Yields P) (e : Expr) :
    (e.lower callee? scope).Reads P P := by
  cases e with
  | number value => exact .pure (yields.consts value)
  | var name =>
      simp only [Expr.lower]
      cases found : scope.lookup name with
      | none => exact .fail _
      | some value => exact .pure (yields.bound name value found)
  | binary op left right =>
      simp only [Expr.lower]
      apply (Expr.lower_reads yields left).bind
      intro l hl
      apply (Expr.lower_reads yields right).bind
      intro r hr
      exact .operator yields.temps op hl hr
  | call callee args =>
      simp only [Expr.lower]
      split
      · exact .fail _
      · split
        · apply (lowerArgs_reads yields args).bind
          intro values all
          apply Lowering.Reads.emit yields.temps
          exact fun _ => all
        · exact .fail _
termination_by sizeOf e

theorem lowerArgs_reads (yields : scope.Yields P) (args : List Expr) :
    (lowerArgs callee? scope args).Reads P fun values => ∀ value ∈ values, P value := by
  cases args with
  | nil => exact .pure fun _ mem => absurd mem List.not_mem_nil
  | cons arg args =>
      simp only [lowerArgs]
      apply (Expr.lower_reads yields arg).bind
      intro value holds
      apply (lowerArgs_reads yields args).bind
      intro values all
      exact .pure (List.forall_mem_cons.mpr ⟨holds, all⟩)
termination_by sizeOf args
end

end Lowered

/-- What a scope knows of a name is the last parameter of that name. -/
theorem Scope.param_of_lookup {names : List String} {name : String} {value : Value}
    (found : (Scope.ofParams names ((List.range names.length).map .param)).lookup name =
      some value) : ∃ index, value = .param index ∧ names[index]? = some name ∧
        ∀ other, names[other]? = some name → other ≤ index := by
  have paired : ∀ i : Nat, ∀ p : String × Value,
      (names.zip ((List.range names.length).map Value.param))[i]? = some p ↔
        names[i]? = some p.1 ∧ p.2 = .param i := by
    intro i p
    rw [List.getElem?_zip_eq_some]
    refine and_congr_right fun isParam => ?_
    have inside : i < names.length := (List.getElem?_eq_some_iff.mp isParam).1
    simp [inside, eq_comm]
  obtain ⟨later, earlier, listed, others⟩ := List.lookup_eq_some_iff.mp found
  have split : names.zip ((List.range names.length).map Value.param) =
      earlier.reverse ++ (name, value) :: later.reverse := by
    rw [← List.reverse_reverse (List.zip _ _), ← Scope.ofParams, listed]
    simp
  rw [split] at paired
  obtain ⟨here, isParam⟩ := (paired earlier.reverse.length (name, value)).mp (by simp)
  refine ⟨_, isParam, here, fun other isParam => ?_⟩
  by_contra behind
  have pair := (paired other (name, .param other)).mpr ⟨isParam, rfl⟩
  have mem : (name, Value.param other) ∈ later := by
    rw [List.getElem?_append_right (by omega), List.getElem?_cons, if_neg (by omega)] at pair
    exact List.mem_reverse.mp (List.mem_of_getElem? pair)
  simpa using others _ mem

/-- The prototype of a bare expression, or one that a source spells. -/
abbrev Prototype.Written (p : Prototype) : Prop := p = .anonymous ∨ p.isSpelled = true

namespace Prototype.Written

variable {p : Prototype}

theorem isSymbol (written : p.Written) : isSymbol p.symbol = true := by
  rcases written with rfl | spelled
  · decide
  · simp only [Prototype.isSpelled, Bool.and_eq_true] at spelled
    simp [Ir.isSymbol, Prototype.symbol_of_identifier spelled.1, spelled.1]

theorem params (written : p.Written) : ∀ name ∈ p.params, isIdentifier name = true := by
  rcases written with rfl | spelled
  · exact fun _ mem => absurd mem List.not_mem_nil
  · simp only [Prototype.isSpelled, Bool.and_eq_true, List.all_eq_true] at spelled
    exact spelled.2

theorem legible_declared (written : p.Written) {m : Module} (h : ∀ f ∈ m.functions, f.Legible) :
    ∀ f ∈ (m.declared p.symbol p.params).2.functions, f.Legible := by
  cases lookup : m.lookup? p.symbol with
  | some id =>
      rw [Module.declared_of_some lookup]
      exact h
  | none =>
      rw [Module.declared_of_none lookup]
      intro f hf
      rcases List.mem_append.mp hf with hf | hf
      · exact h f hf
      · rw [List.mem_singleton.mp hf]
        exact {
          name := written.isSymbol
          params := written.params
          operands := fun _ mem => absurd mem List.not_mem_nil }

end Prototype.Written

theorem Definition.Defines.legible {d : Definition} {m m₁ m' : Module} {id : FunctionId}
    {code : List Instr} {value : Value} (defines : d.Defines m m₁ m' id code value)
    (h : m.Orderly) (written : d.prototype.Written) (legible : ∀ f ∈ m.functions, f.Legible) :
    ∀ f ∈ m'.functions, f.Legible := by
  obtain ⟨f, found, named, -⟩ := defines.found h
  have legible₁ := written.legible_declared legible
  rw [defines.declared] at legible₁
  have yields : (Scope.ofParams d.prototype.params (m₁.paramValues id)).Yields
      (·.LegibleAmong d.prototype.params) := by
    refine ⟨fun _ => trivial, fun _ => trivial, fun name value known => ?_⟩
    rw [Module.paramValues, defines.arity] at known
    obtain ⟨index, rfl, isParam, last⟩ := Scope.param_of_lookup known
    exact ⟨name, isParam, last⟩
  obtain ⟨result, operands⟩ := d.body.lower_reads yields _ _ _ defines.lowered
  intro g hg
  rcases defines.mem_functions h found hg with old | rfl
  · exact legible₁ g old
  · refine ⟨(legible₁ f (Module.mem_of_function? found)).name, written.params, ?_⟩
    intro instr mem
    rcases List.mem_append.mp mem with mem | mem
    · exact operands instr mem
    · rw [List.mem_singleton.mp mem]
      exact List.forall_mem_singleton.mpr result

theorem Form.compile_ensures_legible {form : Form} (spelled : form.isSpelled = true) {b : Backend}
    (h : b.target.Orderly) (legible : ∀ f ∈ b.target.functions, f.Legible) :
    Ensures form.compile b (fun _ b' => ∀ f ∈ b'.target.functions, f.Legible)
      fun _ b' => ∀ f ∈ b'.target.functions, f.Legible := by
  cases form with
  | declaration p =>
      simp only [Ensures, Form.compile, p.declare_eq b]
      exact Prototype.Written.legible_declared (.inr spelled) legible
  | definition d =>
      simp only [Form.isSpelled, Bool.and_eq_true, Bool.or_eq_true, decide_eq_true_eq] at spelled
      refine (d.compile_ensures h).mono ?_ ?_
      · rintro id b' ⟨-, m₁, code, value, defines⟩
        exact defines.legible h spelled.1 legible
      · rintro e b' ⟨-, same⟩
        rwa [same.functions]

namespace Backend.Compiled

variable {b : Backend}

theorem functions_legible (h : b.Compiled) : ∀ f ∈ b.target.functions, f.Legible := by
  induction h with
  | empty name canEvaluate => exact fun _ hf => absurd hf List.not_mem_nil
  | setFaults faults _ ih => exact ih
  | compile spelled compiled ih =>
      have outcome := Form.compile_ensures_legible spelled compiled.integral.toOrderly ih
      exact outcome.holds_leaves
  | remove bare _ ih =>
      intro f hf
      rw [Backend.remove, Backend.onTarget, Module.functions_deleteFunction] at hf
      exact ih f (List.mem_of_mem_filter hf)

theorem reachable (h : b.Compiled) : b.Reachable := by
  induction h with
  | empty name canEvaluate => exact .empty name canEvaluate
  | setFaults faults _ ih => exact .setFaults faults ih
  | compile _ _ ih => exact .compile _ ih
  | @remove b id _ _ ih => exact .operate (.deleteFunction id) ih

theorem legible (h : b.Compiled) : b.target.Legible where
  toIntegral := h.integral
  numbered := h.reachable.target_reachable.numbered.numbered
  functions := h.functions_legible

/-- Taking a spelled form is compiling it and removing the function of a bare expression. -/
theorem take (h : b.Compiled) {form : Form} (spelled : form.isSpelled = true) :
    (b.take form).Compiled := by
  have compiled := h.compile spelled
  cases run : form.compile b with
  | error e b' => simpa only [Backend.take, run, leaves_of_error run] using compiled
  | ok id b' =>
      rw [leaves_of_ok run] at compiled
      cases bare : form.isBare with
      | false => simpa only [Backend.take, run, bare, Bool.false_eq_true, if_false] using compiled
      | true =>
          simp only [Backend.take, run, bare, if_true]
          refine compiled.remove ?_
          cases form with
          | declaration p => contradiction
          | definition d =>
              have orderly := h.integral.toOrderly
              obtain ⟨-, m₁, code, value, defines⟩ := (d.compile_ensures orderly).of_ok run
              obtain ⟨f, found, named, -⟩ := defines.found orderly
              have defined := Module.mem_of_function? (defines.function?_defined orderly found)
              have lookup := compiled.integral.lookup?_of_mem defined
              rw [← Prototype.symbol_of_anonymous bare, ← named,
                ← Module.id_of_function? found]
              exact lookup

end Backend.Compiled

end Reckon
