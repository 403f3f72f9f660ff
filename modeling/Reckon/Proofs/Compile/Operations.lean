import Reckon.Compile
import Reckon.Proofs.Ir.Reachable

/-! # Compiling by operations

Whatever form is compiled, whatever plan of faults is in force and wherever compiling stops, the
module changes by operations alone. So what operations keep, compiling keeps; and a module into
which forms were compiled is reachable, and all that holds of reachable modules holds of it.
-/

namespace Reckon

namespace Compile

/-- A property of steps that the steps of a compiler have, and whatever is put together from steps
    that have it. -/
structure Closed (P : (α : Type) → Compile α → Prop) : Prop where
  pure (a : α) : P α (pure a)
  throw (e : CompileError) : P α (throw e)
  bind {x : Compile α} {f : α → Compile β} : P α x → (∀ a, P β (f a)) → P β (x >>= f)
  query (ask : Ir.Module → α) : P α (query ask)
  addFunction (name : String) (params : List String) : P _ (addFunction name params)
  onTarget (operation : Ir.Operation) : P _ (onTarget operation.apply)
  undoing (undo : Ir.Operation) {step : Compile α} : P α step → P α (undoing undo.apply step)
  openBody (id : Ir.FunctionId) : P _ (lift (Backend.openBody id))
  build (operation : Ir.Operation) {build : Ir.Build α} :
    (∀ m, leaves build m = operation.apply m) → P α (lift (Backend.build build))
  verify (id : Ir.FunctionId) {good bad : Compile α} : P α good → P α bad →
    P α (do if (← get).verify id then good else bad)

/-- A property of steps that those have by which a body is built, and whatever is put together from
    steps that have it. -/
structure Generating (P : (α : Type) → Compile α → Prop) : Prop where
  pure (a : α) : P α (pure a)
  throw (e : CompileError) : P α (throw e)
  bind {x : Compile α} {f : α → Compile β} : P α x → (∀ a, P β (f a)) → P β (x >>= f)
  lookup (name : String) : P _ (query (·.lookup? name))
  paramCount (id : Ir.FunctionId) : P _ (query (·.paramCount id))
  paramValues (id : Ir.FunctionId) : P _ (query (·.paramValues id))
  openBody (id : Ir.FunctionId) : P _ (lift (Backend.openBody id))
  arith (op : Ir.Arith) (left right : Ir.Value) : P _ (lift (Backend.build (.arith op left right)))
  lessThan (left right : Ir.Value) : P _ (lift (Backend.build (.lessThan left right)))
  call (callee : Ir.FunctionId) (args : List Ir.Value) :
    P _ (lift (Backend.build (.call callee args)))
  ret (value : Ir.Value) : P _ (lift (Backend.build (.ret value)))
  verify (id : Ir.FunctionId) {good bad : Compile α} : P α good → P α bad →
    P α (do if (← get).verify id then good else bad)

theorem Closed.generating {P : (α : Type) → Compile α → Prop} (closed : Closed P) :
    Generating P where
  pure := closed.pure
  throw := closed.throw
  bind := closed.bind
  lookup _ := closed.query _
  paramCount _ := closed.query _
  paramValues _ := closed.query _
  openBody := closed.openBody
  arith op left right := closed.build (.arith op left right) fun _ => rfl
  lessThan left right := closed.build (.lessThan left right) fun _ => rfl
  call callee args := closed.build (.call callee args) fun _ => rfl
  ret value := closed.build (.ret value) fun _ => rfl
  verify := closed.verify

theorem Generating.buildOperator {P : (α : Type) → Compile α → Prop} (generating : Generating P)
    {op : Char} {left right : Ir.Value} {build : Ir.Build Ir.Value}
    (known : buildOperator op left right = some build) :
    P _ (lift (Backend.build build)) := by
  unfold Reckon.buildOperator at known
  split at known
  · cases known
    exact generating.arith .add left right
  · cases known
    exact generating.arith .sub left right
  · cases known
    exact generating.arith .mul left right
  · cases known
    exact generating.lessThan left right
  · cases known

end Compile

section Generating

variable {P : (α : Type) → Compile α → Prop} (generating : Compile.Generating P)
include generating

mutual
theorem Expr.compile_generates (scope : Scope) (e : Expr) : P _ (e.compile scope) := by
  cases e with
  | number value => exact generating.pure _
  | var name =>
      simp only [Expr.compile]
      cases scope.lookup name with
      | none => exact generating.throw _
      | some value => exact generating.pure _
  | binary op left right =>
      simp only [Expr.compile]
      apply generating.bind (Expr.compile_generates scope left)
      intro l
      apply generating.bind (Expr.compile_generates scope right)
      intro r
      cases known : buildOperator op l r with
      | none => exact generating.throw _
      | some build => exact generating.buildOperator known
  | call callee args =>
      simp only [Expr.compile]
      apply generating.bind (generating.lookup callee)
      intro found
      cases found with
      | none => exact generating.throw _
      | some id =>
          apply generating.bind (generating.paramCount id)
          intro expected
          split
          · apply generating.bind (compileArgs_generates scope args)
            intro values
            exact generating.call id values
          · exact generating.throw _
termination_by sizeOf e

theorem compileArgs_generates (scope : Scope) (args : List Expr) :
    P _ (compileArgs scope args) := by
  cases args with
  | nil => exact generating.pure _
  | cons arg args =>
      simp only [compileArgs]
      apply generating.bind (Expr.compile_generates scope arg)
      intro value
      exact generating.bind (compileArgs_generates scope args) fun values => generating.pure _
termination_by sizeOf args
end

/-- Compiling a body has every property that the steps have by which it is built. -/
theorem Definition.compileBody_generates (d : Definition) (id : Ir.FunctionId) :
    P _ (d.compileBody id) := by
  apply generating.bind (generating.openBody id)
  intro _
  apply generating.bind (generating.paramValues id)
  intro params
  apply generating.bind (Expr.compile_generates generating _ d.body)
  intro value
  apply generating.bind (generating.ret value)
  intro _
  exact generating.verify id (generating.pure _) (generating.throw _)

end Generating

section Closed

variable {P : (α : Type) → Compile α → Prop} (closed : Compile.Closed P)
include closed

theorem Prototype.declare_closed (p : Prototype) : P _ p.declare := by
  apply closed.bind (closed.query _)
  intro found
  cases found with
  | none => exact closed.addFunction _ _
  | some id => exact closed.pure _

namespace Definition

theorem compile_closed (d : Definition) : P _ d.compile := by
  apply closed.bind (closed.query _)
  intro found
  cases found with
  | none =>
      apply closed.bind (closed.addFunction _ _)
      intro id
      have body := d.compileBody_generates closed.generating id
      exact closed.bind (closed.undoing (.deleteFunction id) body) fun _ => closed.pure _
  | some id =>
      apply closed.bind (closed.query _)
      intro defined
      split
      · exact closed.throw _
      · apply closed.bind (closed.query _)
        intro declared
        split
        · have body := d.compileBody_generates closed.generating id
          refine closed.bind (closed.undoing (.clearBody id) body) fun _ => ?_
          exact closed.bind (closed.onTarget (.setParamNames id _)) fun _ => closed.pure _
        · exact closed.throw _

end Definition

/-- Compiling a form has every property that its steps have. -/
theorem Form.compile_closed (form : Form) : P _ form.compile := by
  cases form with
  | declaration p => exact p.declare_closed closed
  | definition d => exact d.compile_closed closed

end Closed

/-- What operations on the module keep, and counting build calls keeps. -/
structure Backend.Stable (P : Backend → Prop) : Prop where
  operate : ∀ b (operation : Ir.Operation), P b → P (b.onTarget operation.apply)
  count : ∀ b, P b → P { b with builds := b.builds + 1 }

namespace Backend.Stable

variable {P : Backend → Prop}

theorem lift (stable : Stable P) {build : Ir.Build α} (operation : Ir.Operation)
    (applies : ∀ m, leaves build m = operation.apply m) :
    Keeps P (Compile.lift (Backend.lift build)) := by
  intro b h
  have operated := stable.operate b operation h
  rw [Backend.onTarget, ← applies] at operated
  simp only [Ensures, Compile.lift, Backend.lift]
  cases run : build b.target with
  | ok a target => exact leaves_of_ok run ▸ operated
  | error e target => exact leaves_of_error run ▸ operated

theorem openBody (stable : Stable P) (id : Ir.FunctionId) :
    Keeps P (Compile.lift (Backend.openBody id)) := by
  intro b h
  by_cases planned : b.faults.entry = true
  · simpa only [Ensures, Compile.lift, Backend.openBody, planned, if_true] using h
  · have opened := stable.lift (.openBody id) (fun _ => rfl) b h
    simpa only [Ensures, Compile.lift, Backend.openBody, if_neg planned] using opened

theorem build (stable : Stable P) (operation : Ir.Operation) {build : Ir.Build α}
    (applies : ∀ m, leaves build m = operation.apply m) :
    Keeps P (Compile.lift (Backend.build build)) := by
  intro b h
  have counted := stable.count b h
  by_cases planned : b.faults.build = some (b.builds + 1)
  · simp only [Ensures, Compile.lift, Backend.build, if_pos planned]
    exact counted
  · have built := stable.lift operation applies { b with builds := b.builds + 1 } counted
    simpa only [Ensures, Compile.lift, Backend.build, if_neg planned] using built

theorem undoing (stable : Stable P) (undo : Ir.Operation) {step : Compile α}
    (keeps : Keeps P step) : Keeps P (Compile.undoing undo.apply step) := by
  intro b h
  simp only [Ensures, Compile.undoing]
  cases run : step b with
  | ok a b' => exact (keeps b h).of_ok run
  | error e b' => exact stable.operate b' undo ((keeps b h).of_error run)

theorem closed (stable : Stable P) : Compile.Closed fun _ => Keeps P where
  pure := .pure
  throw := .throw
  bind := .bind
  query _ _ h := h
  addFunction name params b h := stable.operate b (.addFunction name params) h
  onTarget operation b h := stable.operate b operation h
  undoing := stable.undoing
  openBody := stable.openBody
  build := stable.build
  verify _ _ _ good bad := by
    refine Keeps.bind (fun _ h => h) fun b => ?_
    split
    · exact good
    · exact bad

end Backend.Stable

theorem Form.keeps_compile (form : Form) {P : Backend → Prop} (stable : Backend.Stable P) :
    Keeps P form.compile := form.compile_closed stable.closed

/-- A compiler leads to the backend from an empty module. Forms are compiled, plans of faults take
    turns, and the module may be operated on directly, as when a function is removed. -/
inductive Backend.Reachable : Backend → Prop where
  | empty (name : String) (canEvaluate : Bool) :
      Reachable { target := .empty name, canEvaluate }
  | setFaults {b : Backend} (faults : FaultPlan) : Reachable b → Reachable (b.setFaults faults)
  | operate {b : Backend} (operation : Ir.Operation) :
      Reachable b → Reachable (b.onTarget operation.apply)
  | compile {b : Backend} (form : Form) : Reachable b → Reachable (leaves form.compile b)

/-- Whatever the compiler did, it was operations on the module. -/
theorem Backend.Reachable.target_reachable {b : Backend} (h : b.Reachable) :
    b.target.Reachable := by
  have stable : Backend.Stable fun b => b.target.Reachable :=
    ⟨fun _ operation h => .apply operation h, fun _ h => h⟩
  induction h with
  | empty name canEvaluate => exact .empty name
  | setFaults faults _ ih => exact ih
  | operate operation _ ih => exact .apply operation ih
  | compile form _ ih => exact (form.keeps_compile stable).holds_leaves ih

theorem Backend.Reachable.orderly {b : Backend} (h : b.Reachable) : b.target.Orderly :=
  Ir.Module.Reachable.orderly h.target_reachable

/-- No form changes the plan of faults, nor whether the backend can evaluate. -/
theorem Form.compile_keeps_plan (form : Form) (b : Backend) :
    Ensures form.compile b (fun _ b' => b'.faults = b.faults ∧ b'.canEvaluate = b.canEvaluate)
      fun _ b' => b'.faults = b.faults ∧ b'.canEvaluate = b.canEvaluate := by
  have stable : Backend.Stable fun b' => b'.faults = b.faults ∧ b'.canEvaluate = b.canEvaluate :=
    ⟨fun _ _ h => h, fun _ h => h⟩
  exact form.keeps_compile stable b ⟨rfl, rfl⟩

end Reckon
