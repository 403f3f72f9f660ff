import Reckon.Ir.Check
import Reckon.Proofs.Ir.Lookup
import Reckon.Proofs.Steps

/-! # What a check depends on

Checking a function looks at other functions only where the body calls them, and then at how many
parameters they have. So a function that was well-formed stays so in every module whose functions
take the same calls, whatever else became of them.
-/

namespace Reckon.Ir

def Instr.callee? : Instr → Option FunctionId
  | call callee _ _ => some callee
  | _ => none

def Function.callees (f : Function) : List FunctionId :=
  (f.body.getD []).filterMap Instr.callee?

theorem Function.callees_of_body {f : Function} {body : List Instr} (hasBody : f.body = some body) :
    f.callees = body.filterMap Instr.callee? := by
  simp only [callees, hasBody, Option.getD_some]

theorem Function.callees_of_declared {f : Function} (isDeclared : f.body = none) :
    f.callees = [] := by
  simp only [callees, isDeclared, Option.getD_none, List.filterMap_nil]

def Instr.kind : Instr → Kind
  | lessThan _ _ _ => .bool
  | _ => .float

theorem Instr.dest?_eq_none {instr : Instr} (ends : instr.dest? = none) :
    ∃ value, instr = .ret value := by
  cases instr with
  | ret value => exact ⟨value, rfl⟩
  | _ => cases ends

namespace Module

variable {m m' : Module}

/-- Refuses an instruction that reads what it does not have, or that calls what does not answer. -/
def checkInstr (m : Module) (paramCount : Nat) (kinds : Kinds) : Instr → Except Defect Unit
  | .arith _ left right _ | .lessThan left right _ => do
    kinds.operand paramCount .float left
    kinds.operand paramCount .float right
  | .widen source _ => kinds.operand paramCount .bool source
  | .call callee args _ => do
    m.checkCallee callee args
    args.forM (kinds.operand paramCount .float)
  | .ret value => kinds.operand paramCount .float value

/-- Checking goes on behind an instruction that assigns a temporary. -/
theorem checkInstrs_cons {paramCount dest : Nat} {kinds : Kinds} {instr : Instr}
    (assigns : instr.dest? = some dest) (rest : List Instr) :
    m.checkInstrs paramCount kinds (instr :: rest) = (do
      m.checkInstr paramCount kinds instr
      m.checkInstrs paramCount (← kinds.assign dest instr.kind) rest) := by
  cases instr with
  | ret value => cases assigns
  | _ =>
      cases assigns
      simp only [checkInstrs, checkInstr, Instr.kind, bind_assoc]

theorem checkInstrs_ret {paramCount : Nat} {kinds : Kinds} {value : Value} {rest : List Instr}
    (checked : m.checkInstrs paramCount kinds (.ret value :: rest) = .ok ()) :
    rest = [] ∧ m.checkInstr paramCount kinds (.ret value) = .ok () := by
  cases rest with
  | nil => exact ⟨rfl, checked⟩
  | cons next rest => cases checked

/-- A well-formed body ends with a return. -/
theorem check_eq_ok_iff {f : Function} : m.check f = .ok () ↔
    ∃ body, f.body = some body ∧ body.getLast?.any Instr.isRet = true ∧
      m.checkInstrs f.params.length [] body = .ok () := by
  cases hasBody : f.body with
  | none => simp [check, hasBody]
  | some body =>
      by_cases ends : body.getLast?.any Instr.isRet = true
      · simp [check, hasBody, ends]
      · simp [check, hasBody, ends]

section Induction

-- What is to be shown of instructions behind others that left temporaries of these kinds.
variable {paramCount : Nat} {motive : Kinds → List Instr → Prop}
  (nil : ∀ kinds, motive kinds [])
  (ret : ∀ kinds value, m.checkInstr paramCount kinds (.ret value) = .ok () →
    motive kinds [.ret value])
  (assign : ∀ kinds assigned instr rest dest, instr.dest? = some dest →
    m.checkInstr paramCount kinds instr = .ok () →
    kinds.assign dest instr.kind = .ok assigned → motive assigned rest →
    motive kinds (instr :: rest))
include nil ret assign

/-- Induction over checked instructions: all but a return at the end assign a temporary. -/
theorem checkInstrs_induction {kinds : Kinds} {instrs : List Instr}
    (checked : m.checkInstrs paramCount kinds instrs = .ok ()) : motive kinds instrs := by
  induction instrs generalizing kinds with
  | nil => exact nil kinds
  | cons instr rest ih =>
      cases assigns : instr.dest? with
      | none =>
          obtain ⟨value, rfl⟩ := Instr.dest?_eq_none assigns
          obtain ⟨rfl, here⟩ := checkInstrs_ret checked
          exact ret kinds value here
      | some dest =>
          rw [checkInstrs_cons assigns] at checked
          obtain ⟨_, here, checked⟩ := bind_eq_ok_iff.mp checked
          obtain ⟨assigned, fresh, checkedRest⟩ := bind_eq_ok_iff.mp checked
          exact assign kinds assigned instr rest dest assigns here fresh (ih checkedRest)

end Induction

/-- Where `m` has this function, `m'` has one with as many parameters. -/
def Answers (m m' : Module) (id : FunctionId) : Prop :=
  ∀ f, m.function? id = some f → ∃ g, m'.function? id = some g ∧ g.params.length = f.params.length

theorem checkCallee_of_answers {id : FunctionId} {args : List Value} (answers : m.Answers m' id)
    (checked : m.checkCallee id args = .ok ()) : m'.checkCallee id args = .ok () := by
  unfold checkCallee at checked
  cases found : m.function? id with
  | none =>
      simp only [found] at checked
      contradiction
  | some f =>
      simp only [found] at checked
      obtain ⟨g, foundNow, arity⟩ := answers f found
      simp only [checkCallee, foundNow, arity]
      split at checked
      · next sameLength => rw [if_pos sameLength]
      · contradiction

theorem checkInstr_of_answers {paramCount : Nat} {kinds : Kinds} {instr : Instr}
    (answers : ∀ id, instr.callee? = some id → m.Answers m' id)
    (checked : m.checkInstr paramCount kinds instr = .ok ()) :
    m'.checkInstr paramCount kinds instr = .ok () := by
  cases instr with
  | call callee args dest =>
      obtain ⟨_, calleeOk, argsOk⟩ := bind_eq_ok_iff.mp checked
      have answered := checkCallee_of_answers (answers callee rfl) calleeOk
      exact bind_eq_ok_iff.mpr ⟨_, answered, argsOk⟩
  | _ => exact checked

theorem checkInstrs_of_answers {paramCount : Nat} {kinds : Kinds} {instrs : List Instr}
    (answers : ∀ id ∈ instrs.filterMap Instr.callee?, m.Answers m' id)
    (checked : m.checkInstrs paramCount kinds instrs = .ok ()) :
    m'.checkInstrs paramCount kinds instrs = .ok () := by
  refine checkInstrs_induction (motive := fun kinds instrs =>
    (∀ id ∈ instrs.filterMap Instr.callee?, m.Answers m' id) →
      m'.checkInstrs paramCount kinds instrs = .ok ()) ?_ ?_ ?_ checked answers
  · exact fun _ _ => rfl
  · exact fun _ _ here _ => here
  · intro kinds assigned instr rest dest assigns here fresh ih answers
    have answersRest : ∀ id ∈ rest.filterMap Instr.callee?, m.Answers m' id :=
      fun id called => answers id (((List.sublist_cons_self instr rest).filterMap _).subset called)
    have answersHere : ∀ id, instr.callee? = some id → m.Answers m' id :=
      fun id calls => answers id (List.mem_filterMap.mpr ⟨instr, List.mem_cons_self, calls⟩)
    simp only [checkInstrs_cons assigns, bind_eq_ok_iff]
    exact ⟨_, checkInstr_of_answers answersHere here, assigned, fresh, ih answersRest⟩

/-- A well-formed function stays so where its calls are taken as before. Its own name and the names
    of its parameters do not matter. -/
theorem check_of_answers {f g : Function} (answers : ∀ id ∈ f.callees, m.Answers m' id)
    (sameBody : g.body = f.body) (sameArity : g.params.length = f.params.length)
    (checked : m.check f = .ok ()) : m'.check g = .ok () := by
  obtain ⟨body, hasBody, ends, checked⟩ := check_eq_ok_iff.mp checked
  rw [Function.callees_of_body hasBody] at answers
  have checkedToo := checkInstrs_of_answers answers checked
  exact check_eq_ok_iff.mpr ⟨body, sameBody.trans hasBody, ends, sameArity ▸ checkedToo⟩

theorem verify_eq_true {id : FunctionId} :
    m.verify id = true ↔ ∃ f, m.function? id = some f ∧ m.check f = .ok () := by
  cases found : m.function? id with
  | none => simp [verify, found]
  | some f =>
      cases checked : m.check f with
      | ok => simp [verify, found, checked, Except.isOk, Except.toBool]
      | error defect => simp [verify, found, checked, Except.isOk, Except.toBool]

end Module

end Reckon.Ir
