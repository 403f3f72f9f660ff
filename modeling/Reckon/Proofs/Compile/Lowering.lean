import Reckon.Compile
import Reckon.Proofs.Ir.Building
import Reckon.Proofs.Steps

/-! # Lowered expressions

`Expr.lower` says without any state what an expression becomes: instructions and the operand that
holds its value, or the first thing that is wrong with it. Compiling into an open function appends
just these instructions, unless a planned fault is met first; where it stops early, nothing but the
open body has changed.
-/

namespace Reckon

open Ir

/-- Code that assigns temporaries from a given one on, with a result; or what is wrong. -/
def Lowering (α : Type) := Nat → Except CompileError (List Instr × α)

namespace Lowering

instance : Monad Lowering where
  pure a _ := .ok ([], a)
  bind first rest next := do
    let (code, a) ← first next
    let (more, b) ← rest a (next + code.length)
    .ok (code ++ more, b)

def fail (e : CompileError) : Lowering α := fun _ => .error e

def emit (make : Nat → Instr) : Lowering Value := fun next => .ok ([make next], .temp next)

theorem bind_eq_error {first : Lowering α} {rest : α → Lowering β} {next : Nat}
    {e : CompileError} (stops : first next = .error e) : (first >>= rest) next = .error e := by
  simp only [bind, Except.bind, stops]

theorem bind_eq {first : Lowering α} {rest : α → Lowering β} {next : Nat} {code : List Instr}
    {a : α} (goesOn : first next = .ok (code, a)) :
    (first >>= rest) next =
      (rest a (next + code.length)).map fun (more, b) => (code ++ more, b) := by
  simp only [bind, Except.bind, goesOn]
  cases rest a (next + code.length) <;> rfl

theorem of_bind_eq_ok {first : Lowering α} {rest : α → Lowering β} {next : Nat}
    {code : List Instr} {b : β} (lowered : (first >>= rest) next = .ok (code, b)) :
    ∃ begun a more, first next = .ok (begun, a) ∧
      rest a (next + begun.length) = .ok (more, b) ∧ code = begun ++ more := by
  cases start : first next with
  | error e =>
      rw [bind_eq_error start] at lowered
      contradiction
  | ok result =>
      obtain ⟨begun, a⟩ := result
      rw [bind_eq start] at lowered
      cases more : rest a (next + begun.length) with
      | error e =>
          rw [more] at lowered
          contradiction
      | ok result =>
          rw [more] at lowered
          cases lowered
          exact ⟨begun, a, _, rfl, more, rfl⟩

end Lowering

def lowerOperator (op : Char) (left right : Value) : Lowering Value :=
  match op with
  | '+' => .emit (.arith .add left right)
  | '-' => .emit (.arith .sub left right)
  | '*' => .emit (.arith .mul left right)
  | '<' => do
    let truth ← .emit (.lessThan left right)
    .emit (.widen truth)
  | _ => .fail (.unknownOperator op)

mutual

/-- The code of an expression, and the operand for its value. Callees are known by their ids and
    by how many parameters they have. -/
def Expr.lower (callee? : String → Option (FunctionId × Nat)) (scope : Scope) :
    Expr → Lowering Value
  | .number value => pure (.const value)
  | .var name =>
    match scope.lookup name with
    | some value => pure value
    | none => .fail (.unknownVariable name)
  | .binary op left right => do
    let left ← left.lower callee? scope
    let right ← right.lower callee? scope
    lowerOperator op left right
  | .call callee args =>
    match callee? callee with
    | none => .fail (.unknownFunction callee)
    | some (id, expected) =>
      if expected = args.length then do
        let values ← lowerArgs callee? scope args
        .emit (.call id values)
      else .fail (.invalidCall callee expected args.length)

def lowerArgs (callee? : String → Option (FunctionId × Nat)) (scope : Scope) :
    List Expr → Lowering (List Value)
  | [] => pure []
  | arg :: args => do
    let value ← arg.lower callee? scope
    let values ← lowerArgs callee? scope args
    pure (value :: values)

end

section Lowered

variable {callee? : String → Option (FunctionId × Nat)} {scope : Scope} {next : Nat}
  {code : List Instr} {value : Value}

theorem Expr.lower_number {number : Double}
    (lowered : (Expr.number number).lower callee? scope next = .ok (code, value)) :
    code = [] ∧ value = .const number := by
  cases lowered
  exact ⟨rfl, rfl⟩

theorem Expr.lower_var {name : String}
    (lowered : (Expr.var name).lower callee? scope next = .ok (code, value)) :
    code = [] ∧ scope.lookup name = some value := by
  simp only [Expr.lower] at lowered
  cases known : scope.lookup name with
  | none =>
      rw [known] at lowered
      contradiction
  | some found =>
      rw [known] at lowered
      cases lowered
      exact ⟨rfl, rfl⟩

theorem Expr.lower_binary {op : Char} {left right : Expr}
    (lowered : (Expr.binary op left right).lower callee? scope next = .ok (code, value)) :
    ∃ leftCode l rightCode r opCode,
      left.lower callee? scope next = .ok (leftCode, l) ∧
      right.lower callee? scope (next + leftCode.length) = .ok (rightCode, r) ∧
      lowerOperator op l r (next + leftCode.length + rightCode.length) = .ok (opCode, value) ∧
      code = leftCode ++ (rightCode ++ opCode) := by
  simp only [Expr.lower] at lowered
  obtain ⟨leftCode, l, _, leftLowered, goesOn, rfl⟩ := Lowering.of_bind_eq_ok lowered
  obtain ⟨rightCode, r, opCode, rightLowered, opLowered, rfl⟩ := Lowering.of_bind_eq_ok goesOn
  exact ⟨leftCode, l, rightCode, r, opCode, leftLowered, rightLowered, opLowered, rfl⟩

theorem Expr.lower_call {callee : String} {args : List Expr}
    (lowered : (Expr.call callee args).lower callee? scope next = .ok (code, value)) :
    ∃ id argCode values, callee? callee = some (id, args.length) ∧
      lowerArgs callee? scope args next = .ok (argCode, values) ∧
      code = argCode ++ [.call id values (next + argCode.length)] ∧
      value = .temp (next + argCode.length) := by
  simp only [Expr.lower] at lowered
  cases known : callee? callee with
  | none =>
      rw [known] at lowered
      contradiction
  | some target =>
      obtain ⟨id, expected⟩ := target
      rw [known] at lowered
      by_cases arity : expected = args.length
      · simp only [if_pos arity] at lowered
        obtain ⟨argCode, values, _, argsLowered, emitted, rfl⟩ := Lowering.of_bind_eq_ok lowered
        cases emitted
        exact ⟨id, argCode, values, by rw [arity], argsLowered, rfl, rfl⟩
      · simp only [if_neg arity] at lowered
        contradiction

theorem lowerArgs_cons {arg : Expr} {args : List Expr} {values : List Value}
    (lowered : lowerArgs callee? scope (arg :: args) next = .ok (code, values)) :
    ∃ argCode first restCode rest, arg.lower callee? scope next = .ok (argCode, first) ∧
      lowerArgs callee? scope args (next + argCode.length) = .ok (restCode, rest) ∧
      code = argCode ++ restCode ∧ values = first :: rest := by
  simp only [lowerArgs] at lowered
  obtain ⟨argCode, first, _, argLowered, goesOn, rfl⟩ := Lowering.of_bind_eq_ok lowered
  obtain ⟨restCode, rest, _, restLowered, done, rfl⟩ := Lowering.of_bind_eq_ok goesOn
  cases done
  exact ⟨argCode, first, restCode, rest, argLowered, restLowered, by rw [List.append_nil], rfl⟩

end Lowered

def FaultPlan.Causes (faults : FaultPlan) : CompileError → Prop
  | .backend (.faultAtBuild call) => faults.build = some call
  | .backend .faultAtEntry => faults.entry = true
  | .invalidFunction _ => faults.verify = true
  | _ => False

/-- Function `id` of `m` is open in the backend, with this much of its body built. -/
structure Backend.Inside (m : Module) (id : FunctionId) (faults : FaultPlan) (body : List Instr)
    (next : Nat) (b : Backend) : Prop where
  target : b.target = m.withBody id body next
  faults : b.faults = faults

theorem Compile.ensures_query {ask : Module → α} {rest : α → Compile β} {b : Backend}
    {ok : β → Backend → Prop} {err : CompileError → Backend → Prop}
    (h : Ensures (rest (ask b.target)) b ok err) :
    Ensures (Compile.query ask >>= rest) b ok err := h

/-- A build call works, or is the one that the plan lets fail. -/
theorem Backend.Inside.build {m : Module} {id : FunctionId} {faults : FaultPlan}
    {body body' : List Instr} {next next' : Nat} {b : Backend} {build : Build α} {a : α}
    (inside : b.Inside m id faults body next)
    (works : build (m.withBody id body next) = .ok a (m.withBody id body' next')) :
    Ensures (Compile.lift (Backend.build build)) b
      (fun a' b' => a' = a ∧ b'.Inside m id faults body' next')
      fun e b' => faults.Causes e ∧ b'.Inside m id faults body next := by
  simp only [Ensures, Compile.lift, Backend.build]
  by_cases planned : b.faults.build = some (b.builds + 1)
  · simp only [if_pos planned]
    refine ⟨?_, inside.target, inside.faults⟩
    simpa only [FaultPlan.Causes, ← inside.faults] using planned
  · simp only [if_neg planned, Backend.lift, inside.target, works]
    exact ⟨trivial, rfl, inside.faults⟩

/-- The step appends to the open body what was lowered. If it fails, it does so for what is wrong
    with the expression or for a planned fault, and the function is still the open one. -/
def Builds (m : Module) (id : FunctionId) (step : Compile α) (lowering : Lowering α) : Prop :=
  ∀ faults body next b, Backend.Inside m id faults body next b →
    Ensures step b
      (fun a b' => ∃ code, lowering next = .ok (code, a) ∧
        b'.Inside m id faults (body ++ code) (next + code.length))
      fun e b' => (lowering next = .error e ∨ faults.Causes e) ∧
        ∃ body next, b'.Inside m id faults body next

namespace Builds

variable {m : Module} {id : FunctionId} {f : Function}

theorem pure (a : α) : Builds m id (Pure.pure a) (Pure.pure a) := fun _ _ _ _ inside =>
  ⟨[], rfl, by simpa only [List.append_nil, List.length_nil, Nat.add_zero] using inside⟩

theorem fail (e : CompileError) : Builds m id (throw e : Compile α) (.fail e) :=
  fun _ _ _ _ inside => ⟨.inl rfl, _, _, inside⟩

theorem bind {step : Compile α} {rest : α → Compile β} {lowering : Lowering α}
    {lowerRest : α → Lowering β} (first : Builds m id step lowering)
    (goesOn : ∀ a, Builds m id (rest a) (lowerRest a)) :
    Builds m id (step >>= rest) (lowering >>= lowerRest) := by
  intro faults body next b inside
  refine ((first _ _ _ _ inside).mono (fun _ _ good => good) ?_).bind ?_
  · intro e b' outcome
    obtain ⟨cause, left⟩ := outcome
    exact ⟨cause.imp_left Lowering.bind_eq_error, left⟩
  · intro a b' outcome
    obtain ⟨code, lowered, inside⟩ := outcome
    refine (goesOn a _ _ _ _ inside).mono ?_ ?_
    · intro c b'' outcome
      obtain ⟨more, loweredRest, inside⟩ := outcome
      refine ⟨code ++ more, ?_, ?_⟩
      · rw [Lowering.bind_eq lowered, loweredRest]
        rfl
      · simpa only [List.append_assoc, List.length_append, Nat.add_assoc] using inside
    · intro e b'' outcome
      obtain ⟨cause, left⟩ := outcome
      refine ⟨cause.imp_left fun stops => ?_, left⟩
      rw [Lowering.bind_eq lowered, stops]
      rfl

/-- Asking the module does not see the open body, if the answer depends on signatures alone. -/
theorem query {β : Type} {ask : Module → α} {rest : α → Compile β} {lowering : Lowering β}
    (blind : ∀ body next, ask (m.withBody id body next) = ask m)
    (goesOn : Builds m id (rest (ask m)) lowering) :
    Builds m id (Compile.query ask >>= rest) lowering := by
  intro faults body next b inside
  apply Compile.ensures_query
  rw [inside.target, blind]
  exact goesOn _ _ _ _ inside

theorem build {build : Build α} {lowering : Lowering α}
    (appends : ∀ body next, ∃ code a, lowering next = .ok (code, a) ∧
      build (m.withBody id body next) =
        .ok a (m.withBody id (body ++ code) (next + code.length))) :
    Builds m id (Compile.lift (Backend.build build)) lowering := by
  intro faults body next b inside
  obtain ⟨code, a, lowered, works⟩ := appends body next
  refine (inside.build works).mono ?_ ?_
  · intro _ b' outcome
    obtain ⟨rfl, inside⟩ := outcome
    exact ⟨code, lowered, inside⟩
  · intro e b' outcome
    obtain ⟨planned, inside⟩ := outcome
    exact ⟨.inr planned, body, next, inside⟩

theorem emit (found : m.function? id = some f) (make : Nat → Instr) :
    Builds m id (Compile.lift (Backend.build (Build.emit make))) (.emit make) :=
  build fun _ next => ⟨[make next], .temp next, rfl, Build.emit_withBody found make⟩

theorem operator (found : m.function? id = some f) (op : Char) (left right : Value) :
    Builds m id
      (match buildOperator op left right with
        | some build => Compile.lift (Backend.build build)
        | none => throw (.unknownOperator op))
      (lowerOperator op left right) := by
  by_cases plus : op = '+'
  · exact plus ▸ emit found _
  by_cases minus : op = '-'
  · exact minus ▸ emit found _
  by_cases times : op = '*'
  · exact times ▸ emit found _
  by_cases less : op = '<'
  · exact less ▸ build fun _ next => ⟨[.lessThan left right next, .widen (.temp next) (next + 1)],
      .temp (next + 1), rfl, Build.lessThan_withBody found left right⟩
  have noCall : buildOperator op left right = none := by
    unfold buildOperator
    split <;> first | contradiction | rfl
  have noCode : lowerOperator op left right = .fail (.unknownOperator op) := by
    unfold lowerOperator
    split <;> first | contradiction | rfl
  rw [noCall, noCode]
  exact fail _

end Builds

mutual
/-- Compiling an expression into an open function builds what it lowers to. -/
theorem Expr.compile_builds {m : Module} {id : FunctionId} {f : Function}
    (found : m.function? id = some f) (scope : Scope) (e : Expr) :
    Builds m id (e.compile scope) (e.lower m.callee? scope) := by
  cases e with
  | number value => exact .pure _
  | var name =>
      simp only [Expr.compile, Expr.lower]
      cases scope.lookup name with
      | none => exact .fail _
      | some value => exact .pure _
  | binary op left right =>
      simp only [Expr.compile, Expr.lower]
      apply (Expr.compile_builds found scope left).bind
      intro l
      apply (Expr.compile_builds found scope right).bind
      intro r
      exact .operator found op l r
  | call callee args =>
      simp only [Expr.compile, Expr.lower, Module.callee?]
      refine .query (fun _ _ => Module.lookup?_withBody) ?_
      cases m.lookup? callee with
      | none => exact .fail _
      | some target =>
          refine .query (fun _ _ => Module.paramCount_withBody) ?_
          simp only [Option.map_some]
          split
          · apply (compileArgs_builds found scope args).bind
            intro values
            exact .emit found _
          · exact .fail _
termination_by sizeOf e

theorem compileArgs_builds {m : Module} {id : FunctionId} {f : Function}
    (found : m.function? id = some f) (scope : Scope) (args : List Expr) :
    Builds m id (compileArgs scope args) (lowerArgs m.callee? scope args) := by
  cases args with
  | nil => exact .pure _
  | cons arg args =>
      simp only [compileArgs, lowerArgs]
      apply (Expr.compile_builds found scope arg).bind
      intro value
      exact (compileArgs_builds found scope args).bind fun values => .pure _
termination_by sizeOf args
end

end Reckon
