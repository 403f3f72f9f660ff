import Reckon.Proofs.Compile.Integrity
import Reckon.Proofs.Meaning.Simulation

/-! # Modules that stand for definitions

A module stands for the definitions that were compiled into it: each of them has its function, with
its parameters and the code that its body lowers to, and no other function that a source can name
has a body. Code is lowered once and stays, while functions come that its calls did not know; what
keeps it right is that a name that was bound is bound to the same function ever after.
-/

namespace Reckon

open Ir

namespace Ir.Module

variable {m m' : Module} {name : String} {id : FunctionId} {f g : Function}

theorem Integral.eq_of_name_eq (h : m.Integral) (hf : f ∈ m.functions) (hg : g ∈ m.functions)
    (same : f.name = g.name) : f = g :=
  List.inj_on_of_nodup_map h.names hf hg same

theorem Integral.lookup?_of_mem (h : m.Integral) (hf : f ∈ m.functions) :
    m.lookup? f.name = some f.id := by
  cases lookup : m.lookup? f.name with
  | none =>
      have absent := List.find?_eq_none.mp (Option.map_eq_none_iff.mp lookup) f hf
      exact absurd (decide_eq_true rfl) absent
  | some id =>
      obtain ⟨g, found, hg, sameName⟩ := h.function?_of_lookup? lookup
      rw [h.eq_of_name_eq hf hg sameName.symm, id_of_function? found]

theorem Orderly.function?_of_callee? (h : m.Orderly) {n : Nat}
    (known : m.callee? name = some (id, n)) :
    ∃ f, m.function? id = some f ∧ f ∈ m.functions ∧ f.name = name ∧ f.params.length = n := by
  obtain ⟨target, lookup, known⟩ := Option.map_eq_some_iff.mp known
  cases known
  obtain ⟨f, found, hf, named⟩ := h.function?_of_lookup? lookup
  exact ⟨f, found, hf, named, by simp only [paramCount, found]⟩

theorem Retains.callee? (retains : m.Retains m') (h : m.Orderly) (h' : m'.Integral)
    (spelled : name ≠ anonymousSymbol) {signature : FunctionId × Nat}
    (known : m.callee? name = some signature) : m'.callee? name = some signature := by
  obtain ⟨id, n⟩ := signature
  obtain ⟨f, found, -, rfl, rfl⟩ := h.function?_of_callee? known
  obtain ⟨g, foundNow, sameName, sameArity⟩ := retains id f found spelled
  have lookup := h'.lookup?_of_mem (mem_of_function? foundNow)
  rw [sameName, id_of_function? foundNow] at lookup
  simp only [Module.callee?, lookup, Option.map_some, paramCount, foundNow, sameArity]

end Ir.Module

section Extends

variable {callee? callee?' : String → Option (FunctionId × Nat)} {scope : Scope}

mutual
/-- An expression that lowers does so to the same code when more names are known. -/
theorem Expr.lower_extends (e : Expr) {next : Nat} {code : List Instr} {value : Value}
    (known : ∀ name ∈ e.names, ∀ signature, callee? name = some signature →
      callee?' name = some signature)
    (lowered : e.lower callee? scope next = .ok (code, value)) :
    e.lower callee?' scope next = .ok (code, value) := by
  cases e with
  | number number => exact lowered
  | var name => exact lowered
  | binary op left right =>
      obtain ⟨leftCode, l, rightCode, r, opCode, leftLowered, rightLowered, opLowered, rfl⟩ :=
        Expr.lower_binary lowered
      have leftNow := Expr.lower_extends left
        (fun name named => known name (List.mem_append_left _ named)) leftLowered
      have rightNow := Expr.lower_extends right
        (fun name named => known name (List.mem_append_right _ named)) rightLowered
      simp only [Expr.lower]
      rw [Lowering.bind_eq leftNow, Lowering.bind_eq rightNow, opLowered]
      rfl
  | call callee args =>
      obtain ⟨id, argCode, values, bound, argsLowered, rfl, rfl⟩ := Expr.lower_call lowered
      have argsNow := lowerArgs_extends args
        (fun name named => known name (List.mem_cons_of_mem _ named)) argsLowered
      simp only [Expr.lower, known callee List.mem_cons_self _ bound, if_true]
      rw [Lowering.bind_eq argsNow]
      rfl
termination_by sizeOf e

theorem lowerArgs_extends (args : List Expr) {next : Nat} {code : List Instr}
    {values : List Value}
    (known : ∀ name ∈ argNames args, ∀ signature, callee? name = some signature →
      callee?' name = some signature)
    (lowered : lowerArgs callee? scope args next = .ok (code, values)) :
    lowerArgs callee?' scope args next = .ok (code, values) := by
  cases args with
  | nil => exact lowered
  | cons arg args =>
      obtain ⟨argCode, first, restCode, rest, argLowered, restLowered, rfl, rfl⟩ :=
        lowerArgs_cons lowered
      have argNow := Expr.lower_extends arg
        (fun name named => known name (List.mem_append_left _ named)) argLowered
      have restNow := lowerArgs_extends args
        (fun name named => known name (List.mem_append_right _ named)) restLowered
      simp only [lowerArgs]
      rw [Lowering.bind_eq argNow, Lowering.bind_eq restNow]
      simp only [pure, Except.map, List.append_nil]
termination_by sizeOf args
end

end Extends

/-- The function has the definition's parameters and the code that its body lowers to. -/
def Ir.Function.Implements (f : Function) (callee? : String → Option (FunctionId × Nat))
    (d : Definition) : Prop :=
  ∃ code value, d.body.lower callee? (Scope.ofParams d.prototype.params
      ((List.range d.prototype.params.length).map .param)) 0 = .ok (code, value) ∧
    f = f.defined d.prototype.params code value

/-- The module's named bodies are those of the definitions. -/
structure Ir.Module.Represents (m : Module) (definitions : List Definition) : Prop
    extends Integral m where
  spelled : ∀ d ∈ definitions, isIdentifier d.prototype.name = true ∧ d.body.isSpelled = true
  implemented : ∀ d ∈ definitions,
    ∃ f ∈ m.functions, f.name = d.prototype.name ∧ f.Implements m.callee? d
  covered : ∀ f ∈ m.functions, f.name ≠ anonymousSymbol → f.body ≠ none →
    ∃ d ∈ definitions, d.prototype.name = f.name

namespace Ir.Module.Represents

variable {m m' : Module} {definitions : List Definition}

theorem empty (name : String) : (Module.empty name).Represents [] where
  toIntegral := .empty name
  spelled := by simp
  implemented := by simp
  covered := by simp [Module.empty]

/-- Where named functions and their bodies stay and no more come than new definitions have, the
    module stands for the new definitions as well. -/
theorem grow (h : m.Represents definitions) (h' : m'.Integral) (retains : m.Retains m')
    (stays : ∀ f ∈ m.functions, f.name ≠ anonymousSymbol → f.body ≠ none → f ∈ m'.functions)
    (new : List Definition)
    (spelled : ∀ d ∈ new, isIdentifier d.prototype.name = true ∧ d.body.isSpelled = true)
    (implemented : ∀ d ∈ new,
      ∃ f ∈ m'.functions, f.name = d.prototype.name ∧ f.Implements m'.callee? d)
    (covered : ∀ f ∈ m'.functions, f.name ≠ anonymousSymbol → f.body ≠ none →
      f ∈ m.functions ∨ ∃ d ∈ new, d.prototype.name = f.name) :
    m'.Represents (definitions ++ new) := by
  refine ⟨h', ?_, ?_, ?_⟩
  · intro d hd
    exact (List.mem_append.mp hd).elim (h.spelled d) (spelled d)
  · intro d hd
    rcases List.mem_append.mp hd with old | added
    · obtain ⟨nameSpelled, bodySpelled⟩ := h.spelled d old
      obtain ⟨f, hf, named, code, value, lowered, isDefined⟩ := h.implemented d old
      have hasBody : f.body ≠ none := by
        rw [isDefined]
        exact Option.some_ne_none _
      -- The old code is what the body lowers to now as well, though more names are known now.
      refine ⟨f, stays f hf (named ▸ ne_anonymousSymbol nameSpelled) hasBody, named, code, value,
        d.body.lower_extends (fun name used signature => ?_) lowered, isDefined⟩
      have nameSpelled := List.all_eq_true.mp bodySpelled name used
      exact retains.callee? h.toOrderly h' (ne_anonymousSymbol nameSpelled)
    · exact implemented d added
  · intro f hf named hasBody
    rcases covered f hf named hasBody with old | ⟨d, added, sameName⟩
    · obtain ⟨d, hd, sameName⟩ := h.covered f old named hasBody
      exact ⟨d, List.mem_append_left _ hd, sameName⟩
    · exact ⟨d, List.mem_append_right _ added, sameName⟩

theorem keep (h : m.Represents definitions) (h' : m'.Integral) (retains : m.Retains m')
    (stays : ∀ f ∈ m.functions, f.name ≠ anonymousSymbol → f.body ≠ none → f ∈ m'.functions)
    (covered : ∀ f ∈ m'.functions, f.name ≠ anonymousSymbol → f.body ≠ none → f ∈ m.functions) :
    m'.Represents definitions := by
  have grown := h.grow h' retains stays [] (by simp) (by simp) fun f hf named hasBody =>
    .inl (covered f hf named hasBody)
  rwa [List.append_nil] at grown

theorem sameFunctions (h : m.Represents definitions) (same : m.SameFunctions m') :
    m'.Represents definitions := by
  refine h.keep (h.toIntegral.sameFunctions same) (.of_functions_eq same.functions) ?_ ?_
  · intro f hf _ _
    exact same.functions ▸ hf
  · intro f hf _ _
    exact same.functions ▸ hf

theorem declared (h : m.Represents definitions) (name : String) (params : List String) :
    (m.declared name params).2.Represents definitions := by
  refine h.keep (h.toIntegral.declared name params) (.declared m name params) ?_ ?_
  · intro f hf _ _
    cases lookup : m.lookup? name with
    | none =>
        rw [declared_of_none lookup]
        exact List.mem_append_left _ hf
    | some id => rwa [declared_of_some lookup]
  · intro f hf _ hasBody
    cases lookup : m.lookup? name with
    | none =>
        rw [declared_of_none lookup] at hf
        rcases List.mem_append.mp hf with old | added
        · exact old
        · rw [List.mem_singleton.mp added] at hasBody
          contradiction
    | some id => rwa [declared_of_some lookup] at hf

theorem deleteFunction (h : m.Represents definitions) {id : FunctionId}
    (anonymous : m.lookup? anonymousSymbol = some id) :
    (m.deleteFunction id).Represents definitions := by
  have orderly := h.toOrderly
  refine h.keep (h.toIntegral.deleteFunction anonymous) (.deleteFunction orderly anonymous) ?_ ?_
  · intro f hf named _
    rw [functions_deleteFunction]
    exact List.mem_filter.mpr ⟨hf, by simpa using orderly.id_ne_of_named anonymous hf named⟩
  · intro f hf _ _
    rw [functions_deleteFunction] at hf
    exact List.mem_of_mem_filter hf

section Defines

variable {d : Definition} {m₁ : Module} {id : FunctionId} {code : List Instr} {value : Value}

theorem implements (h : m.Represents definitions) (defines : d.Defines m m₁ m' id code value)
    (spelled : d.body.isSpelled = true) :
    ∃ f, m'.function? id = some f ∧ f.name = d.prototype.symbol ∧
      f.params = d.prototype.params ∧ f.Implements m'.callee? d := by
  have orderly := h.toOrderly
  obtain ⟨f, found, named, arity⟩ := defines.found orderly
  refine ⟨_, defines.function?_defined orderly found, named, rfl, code, value, ?_, rfl⟩
  have lowered := defines.lowered
  simp only [Definition.lowered, paramValues, defines.arity] at lowered
  refine d.body.lower_extends (fun name used signature => ?_) lowered
  have nameSpelled := List.all_eq_true.mp spelled name used
  exact (defines.retains orderly).callee? (defines.orderly orderly)
    (defines.integral h.toIntegral spelled) (ne_anonymousSymbol nameSpelled)

/-- A definition with a name is one more that the module stands for. -/
theorem define (h : m.Represents definitions) (defines : d.Defines m m₁ m' id code value)
    (named : isIdentifier d.prototype.name = true) (spelled : d.body.isSpelled = true) :
    m'.Represents (definitions ++ [d]) := by
  have orderly := h.toOrderly
  have h₁ := h.declared d.prototype.symbol d.prototype.params
  rw [defines.declared] at h₁
  refine h₁.grow (defines.integral h.toIntegral spelled) (defines.retains orderly)
    (fun g hg _ => defines.body_stays orderly hg) [d] ?_ ?_ ?_
  · intro d' new
    rw [List.mem_singleton.mp new]
    exact ⟨named, spelled⟩
  · intro d' new
    rw [List.mem_singleton.mp new]
    obtain ⟨f, found, symbol, -, implements⟩ := h.implements defines spelled
    rw [Prototype.symbol_of_identifier named] at symbol
    exact ⟨f, mem_of_function? found, symbol, implements⟩
  · intro g hg _ _
    obtain ⟨f, found, symbol, -⟩ := defines.found orderly
    rw [Prototype.symbol_of_identifier named] at symbol
    rcases defines.mem_functions orderly found hg with old | rfl
    · exact .inl old
    · exact .inr ⟨d, List.mem_singleton.mpr rfl, symbol.symm⟩

theorem define_bare (h : m.Represents definitions) (defines : d.Defines m m₁ m' id code value)
    (bare : d.prototype.isAnonymous = true) (spelled : d.body.isSpelled = true) :
    m'.Represents definitions := by
  have orderly := h.toOrderly
  have h₁ := h.declared d.prototype.symbol d.prototype.params
  rw [defines.declared] at h₁
  refine h₁.keep (defines.integral h.toIntegral spelled) (defines.retains orderly)
    (fun g hg _ => defines.body_stays orderly hg) ?_
  intro g hg named _
  obtain ⟨f, found, symbol, -⟩ := defines.found orderly
  rw [Prototype.symbol_of_anonymous bare] at symbol
  rcases defines.mem_functions orderly found hg with old | rfl
  · exact old
  · exact absurd symbol named

end Defines

end Ir.Module.Represents

end Reckon
