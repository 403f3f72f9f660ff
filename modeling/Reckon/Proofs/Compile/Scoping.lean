import Reckon.Proofs.Compile.Integrity
import Reckon.Proofs.Compile.Operations

/-! # Well-scoped definitions

Unless a fault is planned, a definition compiles just if it is well-scoped: its name has no body
yet and is declared, if at all, with as many parameters; and its body reads its parameters alone,
knows its operators, and calls functions with as many arguments as they have parameters. What else
there is, is listed in the order in which compiling comes to it, and the first of it is the error.
-/

namespace Reckon

open Ir

/-- The function that goes by this name: the first one that has it. -/
def Ir.Module.named? (m : Module) (name : String) : Option Function :=
  m.functions.find? (·.name = name)

/-- The operators that there is code for. -/
def codedOperators : List Char := ['+', '-', '*', '<']

mutual

/-- The expression and all that it is made of. -/
def Expr.parts : Expr → List Expr
  | .number value => [.number value]
  | .var name => [.var name]
  | .binary op left right => .binary op left right :: (left.parts ++ right.parts)
  | .call callee args => .call callee args :: argParts args

def argParts : List Expr → List Expr
  | [] => []
  | arg :: args => arg.parts ++ argParts args

end

section Violations

variable (arity? : String → Option Nat) (params : List String)

/-- What is wrong with an expression itself, whatever its operands and arguments are. -/
def Expr.flaws : Expr → List CompileError
  | .number _ => []
  | .var name => if name ∈ params then [] else [.unknownVariable name]
  | .binary op _ _ => if op ∈ codedOperators then [] else [.unknownOperator op]
  | .call callee args =>
    match arity? callee with
    | none => [.unknownFunction callee]
    | some expected =>
      if expected = args.length then [] else [.invalidCall callee expected args.length]

mutual

/-- All that is wrong with an expression: with operands, the left one first, before their operator,
    and with a call before its arguments. -/
def Expr.violations : Expr → List CompileError
  | .number value => (Expr.number value).flaws arity? params
  | .var name => (Expr.var name).flaws arity? params
  | .binary op left right =>
    left.violations ++ (right.violations ++ (Expr.binary op left right).flaws arity? params)
  | .call callee args => (Expr.call callee args).flaws arity? params ++ argViolations args

def argViolations : List Expr → List CompileError
  | [] => []
  | arg :: args => arg.violations ++ argViolations args

end

mutual
/-- The violations are the flaws of the parts. -/
theorem Expr.mem_violations (e : Expr) (error : CompileError) :
    error ∈ e.violations arity? params ↔ ∃ p ∈ e.parts, error ∈ p.flaws arity? params := by
  cases e with
  | number value => simp only [Expr.violations, Expr.parts, List.mem_singleton, exists_eq_left]
  | var name => simp only [Expr.violations, Expr.parts, List.mem_singleton, exists_eq_left]
  | binary op left right =>
      have inLeft := Expr.mem_violations left error
      have inRight := Expr.mem_violations right error
      simp only [Expr.violations, Expr.parts, List.mem_append, List.exists_mem_cons_iff,
        or_and_right, exists_or, inLeft, inRight]
      rw [← or_assoc, or_comm]
  | call callee args =>
      have inArgs := mem_argViolations args error
      simp only [Expr.violations, Expr.parts, List.mem_append, List.exists_mem_cons_iff, inArgs]
termination_by sizeOf e

theorem mem_argViolations (args : List Expr) (error : CompileError) :
    error ∈ argViolations arity? params args ↔
      ∃ p ∈ argParts args, error ∈ p.flaws arity? params := by
  cases args with
  | nil => simp [argViolations, argParts]
  | cons arg args =>
      have inArg := Expr.mem_violations arg error
      have inArgs := mem_argViolations args error
      simp only [argViolations, argParts, List.mem_append, or_and_right, exists_or, inArg, inArgs]
termination_by sizeOf args
end

end Violations

namespace Expr

variable {arity? : String → Option Nat} {params : List String}

theorem flaws_var {name : String} : (Expr.var name).flaws arity? params = [] ↔ name ∈ params := by
  simp [flaws]

theorem flaws_binary {op : Char} {left right : Expr} :
    (Expr.binary op left right).flaws arity? params = [] ↔ op ∈ codedOperators := by
  simp [flaws]

theorem flaws_call {callee : String} {args : List Expr} :
    (Expr.call callee args).flaws arity? params = [] ↔ arity? callee = some args.length := by
  cases known : arity? callee <;> simp [flaws, known]

theorem ne_of_mem_flaws {p : Expr} {e : CompileError} (mem : e ∈ p.flaws arity? params) :
    (∀ name, e ≠ .invalidFunction name) ∧ ∀ error, e ≠ .backend error := by
  unfold flaws at mem
  split at mem
  · cases mem
  · rw [List.mem_ite_nil_left, List.mem_singleton] at mem
    simp [mem.2]
  · rw [List.mem_ite_nil_left, List.mem_singleton] at mem
    simp [mem.2]
  · split at mem
    · simp [List.mem_singleton.mp mem]
    · rw [List.mem_ite_nil_left, List.mem_singleton] at mem
      simp [mem.2]

end Expr

/-- The outcome is the first of these errors, and it is good if there are none. -/
def StopsAtFirst (errors : List CompileError) : Except CompileError α → Prop
  | .ok _ => errors = []
  | .error e => errors.head? = some e

namespace Lowering

theorem stops_pure (a : α) (next : Nat) : StopsAtFirst [] ((pure a : Lowering α) next) := rfl

theorem stops_emit (make : Nat → Instr) (next : Nat) : StopsAtFirst [] (emit make next) := rfl

theorem stops_fail (e : CompileError) (errors : List CompileError) (next : Nat) :
    StopsAtFirst (e :: errors) ((fail e : Lowering α) next) := rfl

theorem stops_bind {first : Lowering α} {rest : α → Lowering β} {errors more : List CompileError}
    (stops : ∀ next, StopsAtFirst errors (first next))
    (stopsRest : ∀ a next, StopsAtFirst more (rest a next)) (next : Nat) :
    StopsAtFirst (errors ++ more) ((first >>= rest) next) := by
  have here := stops next
  cases start : first next with
  | error e =>
      rw [start] at here
      have first : errors.head? = some e := here
      rw [bind_eq_error start, StopsAtFirst, List.head?_append, first, Option.some_or]
  | ok result =>
      rw [start] at here
      have none : errors = [] := here
      rw [bind_eq start, none, List.nil_append]
      have further := stopsRest result.2 (next + result.1.length)
      cases goesOn : rest result.2 (next + result.1.length) <;> rw [goesOn] at further <;>
        exact further

end Lowering

theorem lowerOperator_stops (arity? : String → Option Nat) (params : List String) (op : Char)
    (left right : Expr) (l r : Value) (next : Nat) :
    StopsAtFirst ((Expr.binary op left right).flaws arity? params) (lowerOperator op l r next) := by
  unfold lowerOperator
  split
  · rfl
  · rfl
  · rfl
  · rfl
  · next plus minus times less =>
    have unknown : op ∉ codedOperators := by
      simp only [codedOperators, List.mem_cons, List.not_mem_nil, or_false, not_or]
      exact ⟨plus, minus, times, less⟩
    simp only [Expr.flaws, if_neg unknown]
    rfl

/-- Callees have the arities that are known of them, and the scope binds the parameters. -/
structure Scope.Binds (scope : Scope) (callee? : String → Option (FunctionId × Nat))
    (arity? : String → Option Nat) (params : List String) : Prop where
  arity : ∀ name, (callee? name).map (·.2) = arity? name
  bound : ∀ name, (scope.lookup name).isSome = true ↔ name ∈ params

section Lowered

variable {arity? : String → Option Nat} {params : List String}
  {callee? : String → Option (FunctionId × Nat)} {scope : Scope}

mutual
theorem Expr.lower_stops (binds : scope.Binds callee? arity? params) (e : Expr) (next : Nat) :
    StopsAtFirst (e.violations arity? params) (e.lower callee? scope next) := by
  cases e with
  | number value => rfl
  | var name =>
      have isBound := binds.bound name
      simp only [Expr.violations, Expr.flaws, Expr.lower]
      cases found : scope.lookup name with
      | none =>
          rw [found] at isBound
          rw [if_neg fun mem => absurd (isBound.mpr mem) Bool.false_ne_true]
          rfl
      | some value =>
          rw [found] at isBound
          rw [if_pos (isBound.mp rfl)]
          rfl
  | binary op left right =>
      simp only [Expr.violations, Expr.lower]
      refine Lowering.stops_bind (Expr.lower_stops binds left) (fun l => ?_) next
      exact Lowering.stops_bind (Expr.lower_stops binds right) fun r =>
        lowerOperator_stops arity? params op left right l r
  | call callee args =>
      have signature := binds.arity callee
      simp only [Expr.violations, Expr.flaws, Expr.lower]
      cases found : callee? callee with
      | none =>
          rw [found] at signature
          simp only [← signature]
          exact Lowering.stops_fail _ _ next
      | some target =>
          rw [found] at signature
          simp only [← signature, Option.map_some]
          split
          · rw [List.nil_append, ← List.append_nil (argViolations arity? params args)]
            exact Lowering.stops_bind (lowerArgs_stops binds args)
              (fun values => Lowering.stops_emit _) next
          · exact Lowering.stops_fail _ _ next
termination_by sizeOf e

theorem lowerArgs_stops (binds : scope.Binds callee? arity? params) (args : List Expr)
    (next : Nat) :
    StopsAtFirst (argViolations arity? params args) (lowerArgs callee? scope args next) := by
  cases args with
  | nil => rfl
  | cons arg args =>
      simp only [argViolations, lowerArgs]
      refine Lowering.stops_bind (Expr.lower_stops binds arg) (fun value => ?_) next
      rw [← List.append_nil (argViolations arity? params args)]
      exact Lowering.stops_bind (lowerArgs_stops binds args) fun values => Lowering.stops_pure _
termination_by sizeOf args
end

end Lowered

namespace Ir.Module

variable {m : Module} {f : Function} {name : String}

theorem lookup?_eq_named? (m : Module) (name : String) :
    m.lookup? name = (m.named? name).map (·.id) := rfl

theorem named?_of_nodup (distinct : m.functionNames.Nodup) (hf : f ∈ m.functions) :
    m.named? f.name = some f := by
  obtain ⟨g, named⟩ : ∃ g, m.named? f.name = some g := by
    apply Option.isSome_iff_exists.mp
    rw [named?, List.find?_isSome]
    exact ⟨f, hf, by simp only [decide_true]⟩
  have sameName : g.name = f.name := by simpa using List.find?_some named
  have hg := List.mem_of_find?_eq_some named
  rw [named, List.inj_on_of_nodup_map distinct hg hf sameName]

theorem Orderly.paramCount_of_named? (h : m.Orderly) (named : m.named? name = some f) :
    m.paramCount f.id = f.params.length := by
  rw [paramCount, h.function?_of_mem (List.mem_of_find?_eq_some named)]

theorem Orderly.hasBody_of_named? (h : m.Orderly) (named : m.named? name = some f) :
    m.hasBody f.id = f.body.isSome := by
  rw [hasBody, h.function?_of_mem (List.mem_of_find?_eq_some named)]
  rfl

theorem Orderly.arity_of_callee? (h : m.Orderly) (name : String) :
    (m.callee? name).map (·.2) = (m.named? name).map (·.params.length) := by
  rw [callee?, lookup?_eq_named?, Option.map_map, Option.map_map]
  cases named : m.named? name with
  | none => rfl
  | some f => exact congrArg some (h.paramCount_of_named? named)

theorem named?_addFunction (m : Module) (added : String) (params : List String) :
    (m.addFunction added params).2.named? name =
      (m.named? name).or
        (if added = name then some ⟨⟨m.nextId⟩, added, params, none, 0⟩ else none) := by
  simp only [named?, addFunction, List.find?_append, List.find?_singleton, decide_eq_true_eq]

end Ir.Module

theorem Scope.lookup_ofParams {names : List String} {values : List Value}
    (enough : names.length ≤ values.length) (name : String) :
    ((Scope.ofParams names values).lookup name).isSome = true ↔ name ∈ names := by
  have firsts : (names.zip values).map (·.1) = names := List.map_fst_zip enough
  rw [← not_iff_not, Option.not_isSome_iff_eq_none, Scope.ofParams, List.lookup_eq_none_iff]
  constructor
  · intro other mem
    obtain ⟨p, paired, rfl⟩ := List.mem_map.mp (firsts ▸ mem)
    simpa using other p (List.mem_reverse.mpr paired)
  · intro absent p paired
    have first : p.1 ∈ (names.zip values).map (·.1) :=
      List.mem_map_of_mem (List.mem_reverse.mp paired)
    rw [firsts] at first
    simpa using fun same : name = p.1 => absent (same ▸ first)

namespace Definition

/-- How many parameters a function has that the body may call: the definition's own, or one of the
    module. -/
def arity? (d : Definition) (m : Module) (name : String) : Option Nat :=
  if name = d.prototype.symbol then some d.prototype.params.length
  else (m.named? name).map (·.params.length)

/-- What keeps the name from being defined. -/
def conflicts (d : Definition) (m : Module) : List CompileError :=
  let name := d.prototype.symbol
  let count := d.prototype.params.length
  match m.named? name with
  | none => []
  | some f =>
    (if f.body.isSome then [.redefinition name] else []) ++
      if f.params.length = count then [] else [.arityMismatch name f.params.length count]

/-- All that is wrong with a definition, in the order in which compiling comes to it. -/
def violations (d : Definition) (m : Module) : List CompileError :=
  d.conflicts m ++ d.body.violations (d.arity? m) d.prototype.params

/-- What a definition needs to compile. -/
structure WellScoped (d : Definition) (m : Module) : Prop where
  /-- No function of its name has a body. -/
  free : ∀ f, m.named? d.prototype.symbol = some f → f.body = none
  /-- A declared one has as many parameters. -/
  agrees : ∀ f, m.named? d.prototype.symbol = some f →
    f.params.length = d.prototype.params.length
  reads : ∀ name, .var name ∈ d.body.parts → name ∈ d.prototype.params
  operators : ∀ op left right, .binary op left right ∈ d.body.parts → op ∈ codedOperators
  /-- Calls go to the function itself or to one of the module, with as many arguments as it has
      parameters. -/
  callees : ∀ callee args, .call callee args ∈ d.body.parts →
    callee = d.prototype.symbol ∧ d.prototype.params.length = args.length ∨
      ∃ f, m.named? callee = some f ∧ f.params.length = args.length

theorem conflicts_eq_nil {d : Definition} {m : Module} :
    d.conflicts m = [] ↔ ∀ f, m.named? d.prototype.symbol = some f →
      f.body = none ∧ f.params.length = d.prototype.params.length := by
  cases named : m.named? d.prototype.symbol with
  | none => simp [conflicts, named]
  | some f => simp [conflicts, named]

theorem arity?_eq_some {d : Definition} {m : Module}
    (agrees : ∀ f, m.named? d.prototype.symbol = some f →
      f.params.length = d.prototype.params.length) {callee : String} {count : Nat} :
    d.arity? m callee = some count ↔
      callee = d.prototype.symbol ∧ d.prototype.params.length = count ∨
        ∃ f, m.named? callee = some f ∧ f.params.length = count := by
  by_cases self : callee = d.prototype.symbol
  · subst self
    simp only [arity?, if_true, Option.some_inj, true_and, iff_self_or]
    rintro ⟨f, named, rfl⟩
    exact (agrees f named).symm
  · simp [arity?, self]

theorem violations_eq_nil {d : Definition} {m : Module} :
    d.violations m = [] ↔ d.WellScoped m := by
  have body : d.body.violations (d.arity? m) d.prototype.params = [] ↔
      ∀ p ∈ d.body.parts, p.flaws (d.arity? m) d.prototype.params = [] := by
    simp only [List.eq_nil_iff_forall_not_mem, Expr.mem_violations, not_exists, not_and]
    exact ⟨fun none p mem e => none e p mem, fun none e p mem => none p mem e⟩
  rw [violations, List.append_eq_nil_iff, conflicts_eq_nil, body]
  constructor
  · rintro ⟨conflictFree, flawless⟩
    have agrees := fun f named => (conflictFree f named).2
    exact {
      free := fun f named => (conflictFree f named).1
      agrees := agrees
      reads := fun name mem => Expr.flaws_var.mp (flawless _ mem)
      operators := fun op left right mem => Expr.flaws_binary.mp (flawless _ mem)
      callees := fun callee args mem =>
        (arity?_eq_some agrees).mp (Expr.flaws_call.mp (flawless _ mem)) }
  · intro h
    refine ⟨fun f named => ⟨h.free f named, h.agrees f named⟩, fun p mem => ?_⟩
    cases p with
    | number value => rfl
    | var name => exact Expr.flaws_var.mpr (h.reads name mem)
    | binary op left right => exact Expr.flaws_binary.mpr (h.operators op left right mem)
    | call callee args =>
        exact Expr.flaws_call.mpr ((arity?_eq_some h.agrees).mpr (h.callees callee args mem))

/-- What is wrong with a definition never is its code or the backend. -/
theorem ne_of_mem_violations {d : Definition} {m : Module} {e : CompileError}
    (mem : e ∈ d.violations m) :
    (∀ name, e ≠ .invalidFunction name) ∧ ∀ error, e ≠ .backend error := by
  rcases List.mem_append.mp mem with conflict | violation
  · cases named : m.named? d.prototype.symbol with
    | none => simp [conflicts, named] at conflict
    | some f =>
        simp only [conflicts, named, List.mem_append, List.mem_ite_nil_right,
          List.mem_ite_nil_left, List.mem_singleton] at conflict
        rcases conflict with ⟨-, rfl⟩ | ⟨-, rfl⟩ <;> simp
  · obtain ⟨p, -, flaw⟩ := (d.body.mem_violations _ _ e).mp violation
    exact Expr.ne_of_mem_flaws flaw

/-- Where nothing is wrong with the name, it is the body that decides. -/
theorem verdict_stops_of_free (d : Definition) {m m₁ : Module} (h : m.Orderly) {id : FunctionId}
    (conflictFree : d.conflicts m = [])
    (declared : m.declared d.prototype.symbol d.prototype.params = (id, m₁))
    (declaration : m₁.hasBody id = false) (count : m₁.paramCount id = d.prototype.params.length)
    (arity : ∀ name, (m₁.named? name).map (·.params.length) = d.arity? m name) :
    StopsAtFirst (d.violations m) (d.verdict m) := by
  have orderly : m₁.Orderly := by
    have kept := h.declared d.prototype.symbol d.prototype.params
    rwa [declared] at kept
  rw [violations, conflictFree, List.nil_append, verdict_of_declaration declared declaration count]
  refine Expr.lower_stops ⟨fun name => ?_, fun name => ?_⟩ d.body 0
  · exact (orderly.arity_of_callee? name).trans (arity name)
  · exact Scope.lookup_ofParams (by simp [Module.paramValues, count]) name

theorem verdict_stops_new (d : Definition) {m : Module} (h : m.Orderly)
    (named : m.named? d.prototype.symbol = none) :
    StopsAtFirst (d.violations m) (d.verdict m) := by
  have absent : m.lookup? d.prototype.symbol = none := congrArg (Option.map _) named
  have declared : m.declared d.prototype.symbol d.prototype.params =
      (⟨m.nextId⟩, (m.addFunction d.prototype.symbol d.prototype.params).2) :=
    Module.declared_of_none absent
  have found := h.function?_new d.prototype.symbol d.prototype.params
  refine verdict_stops_of_free d h (by simp only [conflicts, named]) declared ?_ ?_ fun name => ?_
  · rw [Module.hasBody, found]
    rfl
  · rw [Module.paramCount, found]
  · rw [Module.named?_addFunction, arity?]
    by_cases self : name = d.prototype.symbol
    · simp [self, named]
    · simp [self, Ne.symm self]

theorem verdict_stops_declared (d : Definition) {m : Module} (h : m.Orderly) {f : Function}
    (named : m.named? d.prototype.symbol = some f) :
    StopsAtFirst (d.violations m) (d.verdict m) := by
  have present : m.lookup? d.prototype.symbol = some f.id := congrArg (Option.map _) named
  have declared : m.declared d.prototype.symbol d.prototype.params = (f.id, m) :=
    Module.declared_of_some present
  have hasBody := h.hasBody_of_named? named
  have count := h.paramCount_of_named? named
  by_cases isDefined : f.body.isSome = true
  · simp only [verdict, violations, conflicts, declared, hasBody, named, if_pos isDefined]
    rfl
  by_cases agrees : f.params.length = d.prototype.params.length
  · refine verdict_stops_of_free d h ?_ declared ?_ (count.trans agrees) fun name => ?_
    · simp only [conflicts, named, if_neg isDefined, if_pos agrees, List.nil_append]
    · exact hasBody.trans (Bool.not_eq_true _ ▸ isDefined)
    · by_cases self : name = d.prototype.symbol
      · simp [arity?, self, named, agrees]
      · simp [arity?, self]
  · simp only [verdict, violations, conflicts, declared, hasBody, named, count, if_neg isDefined,
      if_neg agrees]
    rfl

/-- What a definition comes to is the first of its violations. -/
theorem verdict_stops (d : Definition) {m : Module} (h : m.Orderly) :
    StopsAtFirst (d.violations m) (d.verdict m) := by
  cases named : m.named? d.prototype.symbol with
  | none => exact d.verdict_stops_new h named
  | some f => exact d.verdict_stops_declared h named

end Definition

/-- Without planned faults a definition compiles just if it is well-scoped, and then the verifier
    accepts its function. Else the error is the first of its violations, and neither the verifier
    nor the backend has any part in it. A name stands for the first function that has it, which is
    the only one as long as none was added twice. -/
theorem definition_compiles_iff_wellScoped {b : Backend} (reachable : b.Reachable)
    (noFaults : b.faults = {}) (d : Definition) :
    ((∃ id b', d.compile b = .ok id b') ↔ d.WellScoped b.target) ∧
      (∀ id b', d.compile b = .ok id b' → b'.target.verify id = true) ∧
      (∀ e b', d.compile b = .error e b' → (d.violations b.target).head? = some e ∧
        (∀ name, e ≠ .invalidFunction name) ∧ ∀ error, e ≠ .backend error) ∧
      (b.target.functionNames.Nodup →
        ∀ f ∈ b.target.functions, b.target.named? f.name = some f) := by
  have orderly := reachable.orderly
  have outcome := d.compile_clean noFaults orderly
  have stops := d.verdict_stops orderly
  refine ⟨⟨?_, ?_⟩, ?_, ?_, fun distinct f hf => Module.named?_of_nodup distinct hf⟩
  · rintro ⟨id, b', run⟩
    obtain ⟨m₁, code, value, -, verdict⟩ := outcome.of_ok run
    rw [verdict] at stops
    exact Definition.violations_eq_nil.mp stops
  · intro wellScoped
    cases run : d.compile b with
    | ok id b' => exact ⟨id, b', rfl⟩
    | error e b' =>
        rw [outcome.of_error run] at stops
        have first : (d.violations b.target).head? = some e := stops
        rw [Definition.violations_eq_nil.mpr wellScoped] at first
        cases first
  · intro id b' run
    obtain ⟨m₁, code, value, defines, -⟩ := outcome.of_ok run
    obtain ⟨f, found, -⟩ := defines.found orderly
    exact Module.verify_eq_true.mpr
      ⟨_, defines.function?_defined orderly found, defines.check_defined orderly found⟩
  · intro e b' run
    rw [outcome.of_error run] at stops
    exact ⟨stops, Definition.ne_of_mem_violations (List.mem_of_mem_head? stops)⟩

/-- Behind the declaration of `f(a)` a definition of `f(x)` may call itself, and of all that is
    wrong with another one the call with too many arguments comes first. -/
theorem definition_compiles_iff_wellScoped_declared :
    ∃ b, b = leaves (Form.declaration ⟨"f", ["a"]⟩).compile (.empty "m") ∧
      (Definition.mk ⟨"f", ["x"]⟩
        (.binary '<' (.call "f" [.var "x"]) (.var "x"))).WellScoped b.target ∧
      (Definition.mk ⟨"f", ["x"]⟩
        (.binary '^' (.call "f" [.var "z", .var "x"]) (.var "y"))).violations b.target =
          [.invalidCall "f" 1 2, .unknownVariable "z", .unknownVariable "y",
            .unknownOperator '^'] ∧
      ∃ e b', (Definition.mk ⟨"f", ["x"]⟩
        (.binary '^' (.call "f" [.var "z", .var "x"]) (.var "y"))).compile b = .error e b' ∧
          e = .invalidCall "f" 1 2 := by
  have reachable := Backend.Reachable.compile (Form.declaration ⟨"f", ["a"]⟩) (.empty "m" true)
  refine ⟨_, rfl, (definition_compiles_iff_wellScoped reachable rfl _).1.mp ⟨_, _, rfl⟩, rfl, ?_⟩
  obtain ⟨e, b', refused⟩ : ∃ e b', (Definition.mk ⟨"f", ["x"]⟩
      (.binary '^' (.call "f" [.var "z", .var "x"]) (.var "y"))).compile
        (leaves (Form.declaration ⟨"f", ["a"]⟩).compile (.empty "m")) = .error e b' :=
    ⟨_, _, rfl⟩
  have first := ((definition_compiles_iff_wellScoped reachable rfl _).2.2.1 e b' refused).1
  exact ⟨e, b', refused, (Option.some.inj first).symm⟩

end Reckon
