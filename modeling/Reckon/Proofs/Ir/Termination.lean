import Reckon.Ir.Eval

/-! # Evaluation ends

Evaluation again, as a relation between a call and what it comes to. Nothing bounds its derivations:
depth is counted upwards from the outermost call and only looked at when a call is entered, and
instructions are run one at a time. Still every call has one result, cycles of calls or not, and it
is the one that `Module.evaluate` computes.
-/

namespace Reckon.Ir

namespace Module

mutual

/-- A call that is entered at this depth ends with this result. -/
inductive CallEnds (m : Module) :
    Nat → FunctionId → List Double → Except Error Double → Prop where
  | tooDeep : maxCallDepth < depth →
    CallEnds m depth callee args (.error (.recursionLimit maxCallDepth))
  | gone : depth ≤ maxCallDepth → m.function? callee = none →
    CallEnds m depth callee args (.error (.danglingFunction callee))
  | host : depth ≤ maxCallDepth → m.function? callee = some f → f.body = none →
    CallEnds m depth callee args (callHost f.name args)
  | body : depth ≤ maxCallDepth → m.function? callee = some f → f.body = some instrs →
    RunEnds m depth (.malformed f.name) args (.replicate f.nextTemp .zero) instrs result →
    CallEnds m depth callee args result

/-- Instructions that run in a call at this depth end it with this result. -/
inductive RunEnds (m : Module) :
    Nat → Error → List Double → Array Double → List Instr → Except Error Double → Prop where
  | nil : RunEnds m depth malformed args temps [] (.error malformed)
  | fail : InstrEnds m depth malformed args temps instr (.error e) →
    RunEnds m depth malformed args temps (instr :: rest) (.error e)
  | ret : InstrEnds m depth malformed args temps instr (.ok value) → instr.dest? = none →
    RunEnds m depth malformed args temps (instr :: rest) (.ok value)
  | assign : InstrEnds m depth malformed args temps instr (.ok value) →
    instr.dest? = some dest → dest < temps.size →
    RunEnds m depth malformed args (temps.setIfInBounds dest value) rest result →
    RunEnds m depth malformed args temps (instr :: rest) result
  | noRoom : InstrEnds m depth malformed args temps instr (.ok value) →
    instr.dest? = some dest → ¬ dest < temps.size →
    RunEnds m depth malformed args temps (instr :: rest) (.error malformed)

/-- One instruction in a call at this depth ends with this result. A call is entered one deeper. -/
inductive InstrEnds (m : Module) :
    Nat → Error → List Double → Array Double → Instr → Except Error Double → Prop where
  | noCall : (∀ call, instr.result call malformed args temps = result) →
    InstrEnds m depth malformed args temps instr result
  | call : (∀ call, instr.result call malformed args temps = call callee values) →
    CallEnds m (depth + 1) callee values result →
    InstrEnds m depth malformed args temps instr result

end

/-- Evaluation of a function ends with this result, or with nothing where the function is gone. -/
inductive Evaluates (m : Module) (id : FunctionId) : Option (Except Error Double) → Prop where
  | gone : m.function? id = none → Evaluates m id none
  | notNullary : m.function? id = some f → f.params ≠ [] →
    Evaluates m id (some (.error (.notNullary f.name f.params.length)))
  | call : m.function? id = some f → f.params = [] →
    m.CallEnds 0 id [] result → Evaluates m id (some result)

end Module

/-- An instruction has a result of its own, or the one of a call. -/
theorem Instr.result_cases (instr : Instr) (malformed : Error) (args : List Double)
    (temps : Array Double) :
    (∃ result, ∀ call, instr.result call malformed args temps = result) ∨
      ∃ callee values, ∀ call, instr.result call malformed args temps = call callee values := by
  cases instr with
  | call callee operands dest =>
      cases reads : operands.mapM (·.read args temps) with
      | none => exact .inl ⟨.error malformed, fun call => by simp only [result, reads]⟩
      | some values => exact .inr ⟨callee, values, fun call => by simp only [result, reads]⟩
  | _ => exact .inl ⟨_, fun _ => rfl⟩

namespace Module

variable {m : Module}

section Runs

variable {call : FunctionId → List Double → Except Error Double} {depth : Nat} {malformed : Error}
  {args : List Double} {temps : Array Double} {result : Except Error Double}
  (calls : ∀ callee values result,
    m.CallEnds (depth + 1) callee values result ↔ result = call callee values)
include calls

theorem instrEnds_iff {instr : Instr} : m.InstrEnds depth malformed args temps instr result ↔
    result = instr.result call malformed args temps := by
  constructor
  · intro ends
    cases ends with
    | noCall same => exact (same call).symm
    | call same ends => exact ((calls _ _ _).mp ends).trans (same call).symm
  · rintro rfl
    rcases instr.result_cases malformed args temps with ⟨result, same⟩ | ⟨callee, values, same⟩
    · exact .noCall fun other => (same other).trans (same call).symm
    · exact .call same ((calls _ _ _).mpr (same call))

theorem runEnds_iff {instrs : List Instr} : m.RunEnds depth malformed args temps instrs result ↔
    result = runInstrs call malformed args temps instrs := by
  induction instrs generalizing temps result with
  | nil =>
      constructor
      · rintro ⟨⟩
        rfl
      · rintro rfl
        exact .nil
  | cons instr rest ih =>
      have here : ∀ result, m.InstrEnds depth malformed args temps instr result ↔
          result = instr.result call malformed args temps := fun _ => instrEnds_iff calls
      constructor
      · intro ends
        cases ends with
        | fail ends => simp only [runInstrs, ← (here _).mp ends]
        | ret ends returns => simp only [runInstrs, ← (here _).mp ends, returns]
        | assign ends assigns room goesOn =>
            simp only [runInstrs, ← (here _).mp ends, assigns, if_pos room]
            exact ih.mp goesOn
        | noRoom ends assigns noRoom =>
            simp only [runInstrs, ← (here _).mp ends, assigns, if_neg noRoom]
      · rintro rfl
        cases made : instr.result call malformed args temps with
        | error e =>
            simp only [runInstrs, made]
            exact .fail ((here _).mpr made.symm)
        | ok value =>
            have ends := (here _).mpr made.symm
            cases assigns : instr.dest? with
            | none =>
                simp only [runInstrs, made, assigns]
                exact .ret ends assigns
            | some dest =>
                by_cases room : dest < temps.size
                · simp only [runInstrs, made, assigns, if_pos room]
                  exact .assign ends assigns room (ih.mpr rfl)
                · simp only [runInstrs, made, assigns, if_neg room]
                  exact .noRoom ends assigns room

end Runs

/-- At every depth a call ends, and with what it gives for the frames that are left there. -/
theorem callEnds_iff {depth frames : Nat} (left : frames = maxCallDepth + 1 - depth)
    {id : FunctionId} {args : List Double} {result : Except Error Double} :
    m.CallEnds depth id args result ↔ result = m.call frames id args := by
  induction frames generalizing depth id args result with
  | zero =>
      have tooDeep : maxCallDepth < depth := by omega
      constructor
      · intro ends
        cases ends with
        | tooDeep => rfl
        | gone shallow | host shallow | body shallow =>
            exact absurd tooDeep (Nat.not_lt.mpr shallow)
      · rintro rfl
        exact .tooDeep tooDeep
  | succ frames ih =>
      have shallow : depth ≤ maxCallDepth := by omega
      have calls : ∀ callee values result, m.CallEnds (depth + 1) callee values result ↔
          result = m.call frames callee values := fun _ _ _ => ih (by omega)
      constructor
      · intro ends
        cases ends with
        | tooDeep tooDeep => exact absurd tooDeep (Nat.not_lt.mpr shallow)
        | gone _ missing => simp only [call, missing]
        | host _ found isDeclared => simp only [call, found, isDeclared]
        | body _ found hasBody ends =>
            simp only [call, found, hasBody]
            exact (runEnds_iff calls).mp ends
      · rintro rfl
        cases found : m.function? id with
        | none =>
            simp only [call, found]
            exact .gone shallow found
        | some f =>
            cases hasBody : f.body with
            | none =>
                simp only [call, found, hasBody]
                exact .host shallow found hasBody
            | some body =>
                simp only [call, found, hasBody]
                exact .body shallow found hasBody ((runEnds_iff calls).mpr rfl)

theorem evaluates_iff {id : FunctionId} {result : Option (Except Error Double)} :
    m.Evaluates id result ↔ result = m.evaluate id := by
  constructor
  · intro ends
    cases ends with
    | gone missing => simp only [evaluate, missing, Option.map_none]
    | notNullary found takesParams => simp [evaluate, found, takesParams]
    | call found noParams ends =>
        simp [evaluate, found, noParams, (callEnds_iff rfl).mp ends]
  · rintro rfl
    cases found : m.function? id with
    | none =>
        simp only [evaluate, found, Option.map_none]
        exact .gone found
    | some f =>
        by_cases noParams : f.params = []
        · have ends : m.CallEnds 0 id [] (m.call (maxCallDepth + 1) id []) :=
            (callEnds_iff rfl).mpr rfl
          simpa [evaluate, found, noParams] using Evaluates.call found noParams ends
        · simpa [evaluate, found, noParams] using Evaluates.notNullary found noParams

end Module

end Reckon.Ir
