import Reckon.Proofs.Compile.Lowering
import Reckon.Proofs.Ir.Checking

/-! # Lowered code is well-formed

The verifier has nothing to find in lowered code: its operands are parameters of the function, or
temporaries that were assigned a number before, its callees are there and get as many arguments as
they have parameters, and each instruction assigns a temporary of its own.
-/

namespace Reckon

open Ir

namespace Ir

/-- No temporary from `next` on is assigned. -/
def Kinds.FreshFrom (kinds : Kinds) (next : Nat) : Prop := ∀ t, next ≤ t → kinds.lookup t = none

/-- Checking the code leads from kinds to others that agree below the code's first temporary. -/
structure Module.ChecksTo (m : Module) (paramCount next : Nat) (code : List Instr)
    (kinds kinds' : Kinds) : Prop where
  goesOn : ∀ rest, m.checkInstrs paramCount kinds (code ++ rest) =
    m.checkInstrs paramCount kinds' rest
  below : ∀ t < next, kinds'.lookup t = kinds.lookup t
  fresh : kinds'.FreshFrom (next + code.length)

section

variable {m : Module} {paramCount next : Nat} {code more : List Instr}
  {kinds kinds' kinds'' : Kinds}

theorem Kinds.kindOf_stays (fresh : kinds.FreshFrom next)
    (below : ∀ t < next, kinds'.lookup t = kinds.lookup t) {value : Value} {kind : Kind}
    (known : kinds.kindOf paramCount value = .ok kind) :
    kinds'.kindOf paramCount value = .ok kind := by
  cases value with
  | const | param => exact known
  | temp t =>
      have assigned : t < next := by
        refine Nat.lt_of_not_le fun later => ?_
        simp only [kindOf, fresh t later] at known
        contradiction
      simpa only [kindOf, below t assigned] using known

theorem Kinds.operand_of_kindOf {value : Value} {kind : Kind}
    (known : kinds.kindOf paramCount value = .ok kind) :
    kinds.operand paramCount kind value = .ok () := by
  simp only [operand, known]
  exact if_pos rfl

namespace Module.ChecksTo

theorem refl (fresh : kinds.FreshFrom next) : m.ChecksTo paramCount next [] kinds kinds :=
  ⟨fun _ => rfl, fun _ _ => rfl, fresh⟩

theorem append (first : m.ChecksTo paramCount next code kinds kinds')
    (second : m.ChecksTo paramCount (next + code.length) more kinds' kinds'') :
    m.ChecksTo paramCount next (code ++ more) kinds kinds'' where
  goesOn rest := by rw [List.append_assoc, first.goesOn, second.goesOn]
  below t h := (second.below t (Nat.lt_add_right _ h)).trans (first.below t h)
  fresh := by simpa only [List.length_append, Nat.add_assoc] using second.fresh

/-- An instruction without a defect assigns the next temporary. -/
theorem instr (kind : Kind) (fresh : kinds.FreshFrom next) {instr : Instr}
    (passes : ∀ rest, m.checkInstrs paramCount kinds (instr :: rest) = do
      m.checkInstrs paramCount (← kinds.assign next kind) rest) :
    m.ChecksTo paramCount next [instr] kinds ((next, kind) :: kinds) where
  goesOn rest := by
    rw [List.singleton_append, passes, Kinds.assign, fresh next (Nat.le_refl _)]
    rfl
  below t h := by
    have other : (t == next) = false := beq_eq_false_iff_ne.mpr (Nat.ne_of_lt h)
    simp only [List.lookup_cons, other]
  fresh t h := by
    have later : next < t := h
    have other : (t == next) = false := beq_eq_false_iff_ne.mpr (Nat.ne_of_gt later)
    simp only [List.lookup_cons, other, fresh t (Nat.le_of_lt later)]

end Module.ChecksTo

end

end Ir

/-- Every variable in scope stands for one of so many parameters. -/
def Scope.Within (scope : Scope) (paramCount : Nat) : Prop :=
  ∀ name value, scope.lookup name = some value → ∃ i < paramCount, value = .param i

theorem Scope.ofParams_within (names : List String) (paramCount : Nat) :
    (Scope.ofParams names ((List.range paramCount).map .param)).Within paramCount := by
  intro name value known
  have mem : (name, value) ∈ names.zip ((List.range paramCount).map Value.param) := by
    obtain ⟨before, after, split, -⟩ := List.lookup_eq_some_iff.mp known
    rw [← List.mem_reverse]
    change (name, value) ∈ Scope.ofParams names _
    rw [split]
    exact List.mem_append_right before List.mem_cons_self
  obtain ⟨i, inRange, rfl⟩ := List.mem_map.mp (List.of_mem_zip mem).2
  exact ⟨i, List.mem_range.mp inRange, rfl⟩

section Lowered

variable {m : Module} {callee? : String → Option (FunctionId × Nat)} {scope : Scope}
  {paramCount next : Nat} {code : List Instr} {value : Value} {kinds : Kinds}

theorem lowerOperator_checks {op : Char} {l r : Value} (fresh : kinds.FreshFrom next)
    (lowered : lowerOperator op l r next = .ok (code, value))
    (left : kinds.kindOf paramCount l = .ok .float)
    (right : kinds.kindOf paramCount r = .ok .float) :
    ∃ kinds', m.ChecksTo paramCount next code kinds kinds' ∧
      kinds'.kindOf paramCount value = .ok .float := by
  have leftOk := Kinds.operand_of_kindOf left
  have rightOk := Kinds.operand_of_kindOf right
  have arith : ∀ op, ∃ kinds', m.ChecksTo paramCount next [.arith op l r next] kinds kinds' ∧
      kinds'.kindOf paramCount (.temp next) = .ok .float := by
    intro op
    refine ⟨_, .instr .float fresh fun rest => ?_, ?_⟩
    · simp only [Module.checkInstrs, leftOk, rightOk]
      rfl
    · simp [Kinds.kindOf]
  unfold lowerOperator at lowered
  split at lowered
  · cases lowered
    exact arith .add
  · cases lowered
    exact arith .sub
  · cases lowered
    exact arith .mul
  · cases lowered
    have compared : m.ChecksTo paramCount next [.lessThan l r next] kinds
        ((next, .bool) :: kinds) := by
      refine .instr .bool fresh fun rest => ?_
      simp only [Module.checkInstrs, leftOk, rightOk]
      rfl
    refine ⟨_, compared.append (.instr .float compared.fresh fun rest => ?_), ?_⟩
    · have truth : Kinds.kindOf ((next, .bool) :: kinds) paramCount (.temp next) = .ok .bool := by
        simp [Kinds.kindOf]
      simp only [Module.checkInstrs, Kinds.operand_of_kindOf truth]
      rfl
    · simp [Kinds.kindOf]
  · contradiction

/-- The signatures are those of the module's functions. -/
def Ir.Module.Knows (m : Module) (callee? : String → Option (FunctionId × Nat)) : Prop :=
  ∀ name id n, callee? name = some (id, n) →
    ∃ f, m.function? id = some f ∧ f.params.length = n

mutual
/-- The verifier goes through the code of an expression, and finds a number in its operand. -/
theorem Expr.lower_checks (within : scope.Within paramCount) (knows : m.Knows callee?) (e : Expr)
    {next : Nat} {code : List Instr} {value : Value}
    {kinds : Kinds} (fresh : kinds.FreshFrom next)
    (lowered : e.lower callee? scope next = .ok (code, value)) :
    ∃ kinds', m.ChecksTo paramCount next code kinds kinds' ∧
      kinds'.kindOf paramCount value = .ok .float := by
  cases e with
  | number number =>
      obtain ⟨rfl, rfl⟩ := Expr.lower_number lowered
      exact ⟨kinds, .refl fresh, rfl⟩
  | var name =>
      obtain ⟨rfl, bound⟩ := Expr.lower_var lowered
      obtain ⟨i, inRange, rfl⟩ := within name value bound
      exact ⟨kinds, .refl fresh, if_pos inRange⟩
  | binary op left right =>
      obtain ⟨leftCode, l, rightCode, r, opCode, leftLowered, rightLowered, opLowered, rfl⟩ :=
        Expr.lower_binary lowered
      obtain ⟨kinds₁, checks₁, leftKind⟩ := Expr.lower_checks within knows left fresh leftLowered
      obtain ⟨kinds₂, checks₂, rightKind⟩ :=
        Expr.lower_checks within knows right checks₁.fresh rightLowered
      have leftKindNow := Kinds.kindOf_stays checks₁.fresh checks₂.below leftKind
      obtain ⟨kinds₃, checks₃, kind⟩ :=
        lowerOperator_checks checks₂.fresh opLowered leftKindNow rightKind
      exact ⟨kinds₃, checks₁.append (checks₂.append checks₃), kind⟩
  | call callee args =>
      obtain ⟨id, argCode, values, bound, argsLowered, rfl, rfl⟩ := Expr.lower_call lowered
      obtain ⟨kinds₁, checks₁, sameCount, argKinds⟩ :=
        lowerArgs_checks within knows args fresh argsLowered
      obtain ⟨f, found, arity⟩ := knows callee id args.length bound
      have calleeOk : m.checkCallee id values = .ok () := by
        simp only [Module.checkCallee, found, arity, sameCount, if_true]
      refine ⟨_, checks₁.append (.instr .float checks₁.fresh fun rest => ?_), ?_⟩
      · simp only [Module.checkInstrs, calleeOk, argKinds]
        rfl
      · simp [Kinds.kindOf]
termination_by sizeOf e

theorem lowerArgs_checks (within : scope.Within paramCount) (knows : m.Knows callee?)
    (args : List Expr) {next : Nat} {code : List Instr}
    {values : List Value} {kinds : Kinds} (fresh : kinds.FreshFrom next)
    (lowered : lowerArgs callee? scope args next = .ok (code, values)) :
    ∃ kinds', m.ChecksTo paramCount next code kinds kinds' ∧ values.length = args.length ∧
      values.forM (kinds'.operand paramCount .float) = .ok () := by
  cases args with
  | nil =>
      cases lowered
      exact ⟨kinds, .refl fresh, rfl, rfl⟩
  | cons arg args =>
      obtain ⟨argCode, first, restCode, rest, argLowered, restLowered, rfl, rfl⟩ :=
        lowerArgs_cons lowered
      obtain ⟨kinds₁, checks₁, kind⟩ := Expr.lower_checks within knows arg fresh argLowered
      obtain ⟨kinds₂, checks₂, sameCount, restOk⟩ :=
        lowerArgs_checks within knows args checks₁.fresh restLowered
      refine ⟨kinds₂, checks₁.append checks₂, congrArg (· + 1) sameCount, ?_⟩
      have kindNow := Kinds.kindOf_stays checks₁.fresh checks₂.below kind
      change (do kinds₂.operand paramCount .float first; rest.forM _ : Except Defect Unit) = .ok ()
      rw [Kinds.operand_of_kindOf kindNow]
      exact restOk
termination_by sizeOf args
end

/-- A function with a lowered body passes the check. -/
theorem Ir.Module.check_lowered {e : Expr} {f : Function} (knows : m.Knows callee?)
    (within : scope.Within f.params.length) (lowered : e.lower callee? scope 0 = .ok (code, value))
    (body : f.body = some (code ++ [.ret value])) : m.check f = .ok () := by
  have fresh : Kinds.FreshFrom [] 0 := fun _ _ => rfl
  obtain ⟨kinds, checks, kind⟩ := Expr.lower_checks within knows e fresh lowered
  have terminated : (code ++ [Instr.ret value]).getLast?.any Instr.isRet = true := by
    simp [Instr.isRet]
  simp only [check, body, terminated, if_true, checks.goesOn]
  exact Kinds.operand_of_kindOf kind

end Lowered

end Reckon
