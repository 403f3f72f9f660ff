import Mathlib.Data.List.Forall2
import Reckon.Proofs.Compile.Lowering
import Reckon.Proofs.Meaning.Interpreter
import Reckon.Proofs.Spelling

/-! # Running lowered code

The code of an expression, run at any place of a body, gives what the expression means: it stops
with the same error, or goes on with the value in its operand. It assigns temporaries from its own
first one on, so what was computed before stays, and an operand can be read when it is needed.
-/

namespace Reckon

open Ir

section Runs

variable {call : FunctionId → List Double → Except Error Double} {malformed : Error}
  {args : List Double} {temps temps' temps'' : Array Double} {code more : List Instr}
  {next : Nat}

/-- Running the code leads from temporaries to others that agree below the code's first one. -/
structure Leads (call : FunctionId → List Double → Except Error Double) (malformed : Error)
    (args : List Double) (next : Nat) (code : List Instr) (temps temps' : Array Double) : Prop where
  size : temps'.size = temps.size
  below : ∀ i < next, temps'[i]? = temps[i]?
  goesOn : ∀ rest, runInstrs call malformed args temps (code ++ rest) =
    runInstrs call malformed args temps' rest

theorem Leads.refl : Leads call malformed args next [] temps temps :=
  ⟨rfl, fun _ _ => rfl, fun _ => rfl⟩

theorem Leads.append (first : Leads call malformed args next code temps temps')
    (second : Leads call malformed args (next + code.length) more temps' temps'') :
    Leads call malformed args next (code ++ more) temps temps'' where
  size := second.size.trans first.size
  below i h := (second.below i (Nat.lt_add_right _ h)).trans (first.below i h)
  goesOn rest := by rw [List.append_assoc, first.goesOn, second.goesOn]

/-- Running the code stops with the outcome's error, or goes on where its result holds. -/
def Runs (call : FunctionId → List Double → Except Error Double) (malformed : Error)
    (args : List Double) (next : Nat) (code : List Instr) (temps : Array Double)
    (outcome : Except Error α) (result : α → Array Double → Prop) : Prop :=
  match outcome with
  | .ok a => ∃ temps', Leads call malformed args next code temps temps' ∧ result a temps'
  | .error e => ∀ rest, runInstrs call malformed args temps (code ++ rest) = .error e

namespace Runs

variable {outcome : Except Error α} {result : α → Array Double → Prop}

theorem pure {a : α} (h : result a temps) :
    Runs call malformed args next [] temps (.ok a) result :=
  ⟨temps, .refl, h⟩

theorem bind {rest : α → Except Error β} {result' : β → Array Double → Prop}
    (first : Runs call malformed args next code temps outcome result)
    (goesOn : ∀ a temps', Leads call malformed args next code temps temps' → result a temps' →
      Runs call malformed args (next + code.length) more temps' (rest a) result') :
    Runs call malformed args next (code ++ more) temps (outcome >>= rest) result' := by
  cases outcome with
  | error e =>
      intro after
      rw [List.append_assoc]
      exact first (more ++ after)
  | ok a =>
      obtain ⟨temps', leads, holds⟩ := first
      have second := goesOn a temps' leads holds
      change Runs _ _ _ _ _ _ (rest a) _
      cases outcome' : rest a with
      | error e =>
          rw [outcome'] at second
          intro after
          rw [List.append_assoc, leads.goesOn]
          exact second after
      | ok b =>
          rw [outcome'] at second
          obtain ⟨temps'', leads', holds'⟩ := second
          exact ⟨temps'', leads.append leads', holds'⟩

theorem instr {instr : Instr} {value : Except Error Double} (dest : instr.dest? = some next)
    (room : next < temps.size) (run : instr.result call malformed args temps = value) :
    Runs call malformed args next [instr] temps value fun x temps' => temps'[next]? = some x := by
  cases value with
  | error e =>
      intro rest
      simp only [List.singleton_append, runInstrs, run]
  | ok x =>
      refine ⟨temps.setIfInBounds next x, ⟨?_, ?_, ?_⟩, ?_⟩
      · simp only [Array.size_setIfInBounds]
      · intro i before
        exact Array.getElem?_setIfInBounds_ne (Nat.ne_of_gt before)
      · intro rest
        simp only [List.singleton_append, runInstrs, run, dest, if_pos room]
      · simp only [Array.getElem?_setIfInBounds_self_of_lt room]

end Runs

theorem runInstrs_ret {outcome : Except Error Double} {value : Value}
    (runs : Runs call malformed args next code temps outcome fun x temps' =>
      value.read args temps' = some x) :
    runInstrs call malformed args temps (code ++ [.ret value]) = outcome := by
  cases outcome with
  | error e => exact runs [.ret value]
  | ok x =>
      obtain ⟨temps', leads, holds⟩ := runs
      rw [leads.goesOn]
      simp only [runInstrs, Instr.result, holds, Instr.dest?]

end Runs

def Ir.Value.Below (n : Nat) : Value → Prop
  | temp index => index < n
  | _ => True

theorem Ir.Value.Below.read_eq {n : Nat} {value : Value} {args : List Double}
    {temps temps' : Array Double} (h : value.Below n)
    (agree : ∀ i < n, temps'[i]? = temps[i]?) : value.read args temps' = value.read args temps := by
  cases value with
  | const | param => rfl
  | temp index => exact agree index h

/-- Every variable in scope stands for a parameter, and has the value of that argument. -/
def Scope.Holds (scope : Scope) (args : List Double) (env : List (String × Double)) : Prop :=
  ∀ name value, scope.lookup name = some value →
    ∃ i x, value = .param i ∧ args[i]? = some x ∧ env.lookup name = some x

theorem Scope.holds_of_forall₂ {scope : Scope} {args : List Double} {env : List (String × Double)}
    (corresponds : List.Forall₂
      (fun p q => p.1 = q.1 ∧ ∃ i, p.2 = .param i ∧ args[i]? = some q.2) scope env) :
    scope.Holds args env := by
  intro name value known
  induction corresponds with
  | nil => contradiction
  | @cons p q scope env first _ ih =>
      obtain ⟨pName, pValue⟩ := p
      obtain ⟨qName, qValue⟩ := q
      obtain ⟨rfl, i, rfl, inArgs⟩ := first
      simp only [List.lookup_cons] at known ⊢
      split at known
      · cases known
        exact ⟨i, qValue, rfl, inArgs, rfl⟩
      · exact ih known

theorem Scope.ofParams_holds {params : List String} {args : List Double}
    (arity : args.length = params.length) :
    (Scope.ofParams params ((List.range params.length).map .param)).Holds args
      (boundTo params args) := by
  refine Scope.holds_of_forall₂ (List.forall₂_reverse_iff.mpr ?_)
  refine List.forall₂_iff_get.mpr ⟨by simp [arity], fun i inScope inEnv => ?_⟩
  simp only [List.get_eq_getElem, List.getElem_zip, List.getElem_map, List.getElem_range]
  exact ⟨trivial, i, rfl, List.getElem?_eq_getElem _⟩

theorem Double.ofBool_lessOrUnordered (a b : Double) : Double.ofBool (a.lessOrUnordered b) =
    if a.toFloat < b.toFloat ∨ a.isNaN ∨ b.isNaN then .one else .zero := by
  simp only [Double.ofBool, Double.lessOrUnordered, Bool.or_eq_true, decide_eq_true_eq, or_assoc]

/-- A pattern for each of the host's functions, or a table for each number of arguments. -/
theorem Ir.callHost_eq (name : String) (args : List Double) :
    callHost name args = evalHost name args := by
  unfold callHost
  split
  case h_11 unknown =>
    unfold evalHost
    split
    · have notUnary : hostUnary.lookup name = none := by
        simp only [hostUnary, List.lookup_eq_none_iff, List.mem_cons]
        grind
      rw [notUnary]
    · have notBinary : hostBinary.lookup name = none := by
        simp only [hostBinary, List.lookup_eq_none_iff, List.mem_cons]
        grind
      rw [notBinary]
    · rfl
  all_goals rfl

section Simulation

variable {callee? : String → Option (FunctionId × Nat)} {scope : Scope} {next : Nat}
  {code : List Instr} {value : Value} {call : FunctionId → List Double → Except Error Double}
  {byName : String → List Double → Except Error Double} {malformed : Error} {args : List Double}
  {env : List (String × Double)} {temps : Array Double}

theorem lowerOperator_below {op : Char} {l r : Value}
    (lowered : lowerOperator op l r next = .ok (code, value)) :
    value.Below (next + code.length) := by
  unfold lowerOperator at lowered
  split at lowered <;> cases lowered <;> simp [Value.Below]

theorem Expr.lower_below (holds : scope.Holds args env) {e : Expr}
    (lowered : e.lower callee? scope next = .ok (code, value)) :
    value.Below (next + code.length) := by
  cases e with
  | number number =>
      obtain ⟨-, rfl⟩ := Expr.lower_number lowered
      trivial
  | var name =>
      obtain ⟨-, known⟩ := Expr.lower_var lowered
      obtain ⟨i, x, rfl, -, -⟩ := holds name value known
      trivial
  | binary op left right =>
      obtain ⟨leftCode, l, rightCode, r, opCode, -, -, opLowered, rfl⟩ := Expr.lower_binary lowered
      simpa only [List.length_append, Nat.add_assoc] using lowerOperator_below opLowered
  | call callee exprs =>
      obtain ⟨id, argCode, values, -, -, rfl, rfl⟩ := Expr.lower_call lowered
      simp [Value.Below]

theorem lowerOperator_runs {op : Char} {l r : Value} {a b : Double}
    (lowered : lowerOperator op l r next = .ok (code, value))
    (room : next + code.length ≤ temps.size) (left : l.read args temps = some a)
    (right : r.read args temps = some b) :
    Runs call malformed args next code temps (evalOperator op a b) fun x temps' =>
      value.read args temps' = some x := by
  unfold lowerOperator at lowered
  split at lowered
  · cases lowered
    refine .instr rfl room ?_
    simp only [Instr.result, left, right]
    rfl
  · cases lowered
    refine .instr rfl room ?_
    simp only [Instr.result, left, right]
    rfl
  · cases lowered
    refine .instr rfl room ?_
    simp only [Instr.result, left, right]
    rfl
  · cases lowered
    have compared : Runs call malformed args next [.lessThan l r next] temps
        (evalOperator '<' a b) fun x temps' => temps'[next]? = some x := by
      refine .instr rfl (Nat.lt_of_succ_lt room) ?_
      simp only [Instr.result, left, right, Double.ofBool_lessOrUnordered, evalOperator]
    rw [← bind_pure (evalOperator '<' a b)]
    change Runs call malformed args next
      ([.lessThan l r next] ++ [.widen (.temp next) (next + 1)]) temps _ _
    apply compared.bind
    intro x temps' leads truth
    refine .instr rfl (leads.size ▸ room) ?_
    simp only [Instr.result, Value.read, truth]
    rfl
  · contradiction

mutual
/-- The code of an expression gives what the expression means, if calls by id give what calls by
    name give. -/
theorem Expr.lower_runs (holds : scope.Holds args env) (e : Expr) (temps : Array Double)
    {next : Nat} {code : List Instr} {value : Value}
    (lowered : e.lower callee? scope next = .ok (code, value))
    (room : next + code.length ≤ temps.size)
    (answers : ∀ name ∈ e.names, ∀ id values, callee? name = some (id, values.length) →
      call id values = byName name values) :
    Runs call malformed args next code temps (e.eval byName env) fun x temps' =>
      value.read args temps' = some x := by
  cases e with
  | number number =>
      obtain ⟨rfl, rfl⟩ := Expr.lower_number lowered
      exact .pure rfl
  | var name =>
      obtain ⟨rfl, known⟩ := Expr.lower_var lowered
      obtain ⟨i, x, rfl, inArgs, bound⟩ := holds name value known
      simp only [Expr.eval, bound]
      exact .pure inArgs
  | binary op left right =>
      obtain ⟨leftCode, l, rightCode, r, opCode, leftLowered, rightLowered, opLowered, rfl⟩ :=
        Expr.lower_binary lowered
      simp only [List.length_append] at room
      have leftRuns := Expr.lower_runs holds left temps leftLowered (by omega)
        fun name named => answers name (List.mem_append_left _ named)
      simp only [Expr.eval]
      apply leftRuns.bind
      intro a temps₁ leads₁ readLeft
      have rightRuns := Expr.lower_runs holds right temps₁ rightLowered
        (by rw [leads₁.size]; omega) fun name named => answers name (List.mem_append_right _ named)
      apply rightRuns.bind
      intro b temps₂ leads₂ readRight
      refine lowerOperator_runs opLowered (by rw [leads₂.size, leads₁.size]; omega) ?_ readRight
      -- The right operand's code ran since, but it assigns no temporary of the left one.
      exact ((Expr.lower_below holds leftLowered).read_eq leads₂.below).trans readLeft
  | call callee exprs =>
      obtain ⟨id, argCode, values, known, argsLowered, rfl, rfl⟩ := Expr.lower_call lowered
      simp only [List.length_append, List.length_singleton] at room
      have argsRun := lowerArgs_runs holds exprs temps argsLowered (by omega)
        fun name named => answers name (List.mem_cons_of_mem _ named)
      simp only [Expr.eval]
      apply argsRun.bind
      intro xs temps₁ leads₁ evaluated
      refine .instr rfl (by rw [leads₁.size]; omega) ?_
      simp only [Instr.result, evaluated.1]
      exact answers callee List.mem_cons_self id xs (by rw [known, evaluated.2])
termination_by sizeOf e

theorem lowerArgs_runs (holds : scope.Holds args env) (exprs : List Expr)
    (temps : Array Double) {next : Nat} {code : List Instr} {values : List Value}
    (lowered : lowerArgs callee? scope exprs next = .ok (code, values))
    (room : next + code.length ≤ temps.size)
    (answers : ∀ name ∈ argNames exprs, ∀ id values, callee? name = some (id, values.length) →
      call id values = byName name values) :
    Runs call malformed args next code temps (evalArgs byName env exprs) fun xs temps' =>
      values.mapM (·.read args temps') = some xs ∧ xs.length = exprs.length := by
  cases exprs with
  | nil =>
      cases lowered
      exact .pure ⟨rfl, rfl⟩
  | cons arg exprs =>
      obtain ⟨argCode, first, restCode, rest, argLowered, restLowered, rfl, rfl⟩ :=
        lowerArgs_cons lowered
      simp only [List.length_append] at room
      have argRuns := Expr.lower_runs holds arg temps argLowered (by omega)
        fun name named => answers name (List.mem_append_left _ named)
      simp only [evalArgs]
      apply argRuns.bind
      intro x temps₁ leads₁ readFirst
      have restRun := lowerArgs_runs holds exprs temps₁ restLowered
        (by rw [leads₁.size]; omega) fun name named => answers name (List.mem_append_right _ named)
      rw [← List.append_nil restCode]
      refine restRun.bind fun xs temps₂ leads₂ readRest => .pure ⟨?_, by simp [readRest.2]⟩
      have readNow := ((Expr.lower_below holds argLowered).read_eq leads₂.below).trans readFirst
      simp [readNow, readRest.1]
termination_by sizeOf exprs
end

end Simulation

end Reckon
