import Reckon.Ir.Eval
import Reckon.Proofs.Ir.Checking
import Reckon.Proofs.Ir.Numbering

/-! # Checked code does not go wrong

In a module whose bodies are all well-formed, evaluation never meets a body that is malformed or a
function that is gone: what is left are values, names that the host has no function for, and calls
that go too deep. Evaluation makes room for all temporaries of a call at once, so an unassigned one
would read as zero and not be noticed; that none is read shows against an evaluator that has only
the assigned ones.
-/

namespace Reckon.Ir

/-- Runs instructions over the temporaries assigned so far. One that is not among them cannot be
    read, and only the next one can be assigned. -/
def runAssigned (call : FunctionId → List Double → Except Error Double) (malformed : Error)
    (args : List Double) : Array Double → List Instr → Except Error Double
  | _, [] => .error malformed
  | temps, instr :: rest =>
    match instr.result call malformed args temps with
    | .error e => .error e
    | .ok value =>
      match instr.dest? with
      | none => .ok value
      | some dest =>
        if dest = temps.size then runAssigned call malformed args (temps.push value) rest
        else .error malformed

namespace Module

/-- Calls a function with so many frames left, and with no temporary assigned. -/
def callAssigned (m : Module) : Nat → FunctionId → List Double → Except Error Double
  | 0, _, _ => .error (.recursionLimit maxCallDepth)
  | frames + 1, id, args =>
    match m.function? id with
    | none => .error (.danglingFunction id)
    | some f =>
      match f.body with
      | none => callHost f.name args
      | some body => runAssigned (m.callAssigned frames) (.malformed f.name) args #[] body

/-- The value of a function without parameters, where no temporary is read before it is
    assigned. -/
def evaluateAssigned (m : Module) (id : FunctionId) : Option (Except Error Double) :=
  (m.function? id).map fun f =>
    if f.params.isEmpty then m.callAssigned (maxCallDepth + 1) id []
    else .error (.notNullary f.name f.params.length)

end Module

/-- A value, or an error that no check of the code can rule out. -/
inductive Proper : Except Error Double → Prop where
  | value (value : Double) : Proper (.ok value)
  | unresolved (name : String) : Proper (.error (.unresolvedSymbol name))
  | tooDeep : Proper (.error (.recursionLimit maxCallDepth))

theorem Proper.cases {result : Except Error Double} (h : Proper result) :
    (∃ value, result = .ok value) ∨ (∃ name, result = .error (.unresolvedSymbol name)) ∨
      result = .error (.recursionLimit maxCallDepth) := by
  cases h with
  | value v => exact .inl ⟨v, rfl⟩
  | unresolved name => exact .inr (.inl ⟨name, rfl⟩)
  | tooDeep => exact .inr (.inr rfl)

theorem callHost_proper (name : String) (args : List Double) : Proper (callHost name args) := by
  unfold callHost
  split
  all_goals constructor

def Kinds.Assigned (kinds : Kinds) (temps : Array Double) : Prop :=
  ∀ index kind, kinds.lookup index = some kind → index < temps.size

theorem Kinds.Assigned.push {kinds : Kinds} {temps : Array Double} (h : kinds.Assigned temps)
    (kind : Kind) (value : Double) : Kinds.Assigned ((temps.size, kind) :: kinds)
      (temps.push value) := by
  intro index other known
  rw [Array.size_push]
  rw [List.lookup_cons] at known
  split at known
  · next same =>
    obtain rfl := beq_iff_eq.mp same
    exact Nat.lt_succ_self _
  · exact Nat.lt_succ_of_lt (h index other known)

/-- The room has the assigned temporaries, and possibly others. -/
def Holds (room temps : Array Double) : Prop :=
  ∀ index (inside : index < temps.size), room[index]? = some temps[index]

theorem Holds.assign {room temps : Array Double} (h : Holds room temps)
    (inRoom : temps.size < room.size) (value : Double) :
    Holds (room.setIfInBounds temps.size value) (temps.push value) := by
  intro index inside
  rw [Array.size_push] at inside
  rw [Array.getElem?_setIfInBounds, Array.getElem_push]
  split
  · next same =>
    subst same
    rw [dif_neg (Nat.lt_irrefl _)]
  · next other =>
    have before : index < temps.size := by omega
    rw [dif_pos before]
    exact h index before

theorem Kinds.operand_reads {kinds : Kinds} {room temps : Array Double} {args : List Double}
    {expected : Kind} {value : Value} (assigned : kinds.Assigned temps) (holds : Holds room temps)
    (checked : kinds.operand args.length expected value = .ok ()) :
    ∃ v, value.read args temps = some v ∧ value.read args room = some v := by
  obtain ⟨kind, known, -⟩ := bind_eq_ok_iff.mp checked
  cases value with
  | const v => exact ⟨v, rfl, rfl⟩
  | param index =>
      have inside : index < args.length := by
        by_contra outside
        simp only [kindOf, if_neg outside] at known
        contradiction
      exact ⟨args[index], List.getElem?_eq_getElem inside, List.getElem?_eq_getElem inside⟩
  | temp index =>
      cases found : kinds.lookup index with
      | none =>
          simp only [kindOf, found] at known
          contradiction
      | some kind =>
          have inside := assigned index kind found
          exact ⟨temps[index], Array.getElem?_eq_getElem inside, holds index inside⟩

theorem Kinds.operands_read {kinds : Kinds} {room temps : Array Double} {args : List Double}
    {expected : Kind} {operands : List Value} (assigned : kinds.Assigned temps)
    (holds : Holds room temps)
    (checked : operands.forM (kinds.operand args.length expected) = .ok ()) :
    ∃ values, values.length = operands.length ∧
      operands.mapM (·.read args temps) = some values ∧
      operands.mapM (·.read args room) = some values := by
  induction operands with
  | nil => exact ⟨[], rfl, rfl, rfl⟩
  | cons operand operands ih =>
      obtain ⟨_, first, others⟩ := bind_eq_ok_iff.mp checked
      obtain ⟨v, inTemps, inRoom⟩ := operand_reads assigned holds first
      obtain ⟨values, sameLength, allTemps, allRoom⟩ := ih others
      refine ⟨v :: values, congrArg (· + 1) sameLength, ?_, ?_⟩
      · simp [List.mapM_cons, inTemps, allTemps]
      · simp [List.mapM_cons, inRoom, allRoom]

theorem Kinds.assign_eq {kinds assigned : Kinds} {temp : Nat} {kind : Kind}
    (fresh : kinds.assign temp kind = .ok assigned) : assigned = (temp, kind) :: kinds := by
  unfold Kinds.assign at fresh
  split at fresh
  · contradiction
  · exact (Except.ok.inj fresh).symm

theorem Module.function?_of_checkCallee {m : Module} {callee : FunctionId} {args : List Value}
    (checked : m.checkCallee callee args = .ok ()) :
    ∃ f, m.function? callee = some f ∧ f.params.length = args.length := by
  cases found : m.function? callee with
  | none =>
      simp only [checkCallee, found] at checked
      contradiction
  | some f =>
      refine ⟨f, rfl, ?_⟩
      by_contra other
      simp only [checkCallee, found, if_neg other] at checked
      contradiction

/-- What a checked instruction comes to over the assigned temporaries and over all the room: the
    value that it makes of its operands, or what the function that it calls comes to. -/
inductive Instr.Reads (m : Module) (args : List Double) (room temps : Array Double)
    (instr : Instr) : Prop where
  | value (v : Double) : instr.callee? = none →
    (∀ call malformed, instr.result call malformed args temps = .ok v) →
    (∀ call malformed, instr.result call malformed args room = .ok v) →
    Reads m args room temps instr
  | call (id : FunctionId) (f : Function) (values : List Double) : instr.callee? = some id →
    m.function? id = some f → values.length = f.params.length →
    (∀ call malformed, instr.result call malformed args temps = call id values) →
    (∀ call malformed, instr.result call malformed args room = call id values) →
    Reads m args room temps instr

section Runs

variable {m : Module} {args : List Double} {room temps : Array Double}

theorem Instr.reads_of_checkInstr {kinds : Kinds} {instr : Instr} (assigned : kinds.Assigned temps)
    (holds : Holds room temps) (checked : m.checkInstr args.length kinds instr = .ok ()) :
    instr.Reads m args room temps := by
  cases instr with
  | arith op left right dest =>
      obtain ⟨_, leftOk, rightOk⟩ := bind_eq_ok_iff.mp checked
      obtain ⟨a, a₁, a₂⟩ := Kinds.operand_reads assigned holds leftOk
      obtain ⟨b, b₁, b₂⟩ := Kinds.operand_reads assigned holds rightOk
      refine .value (op.apply a b) rfl (fun _ _ => ?_) fun _ _ => ?_
      · simp only [Instr.result, a₁, b₁]
      · simp only [Instr.result, a₂, b₂]
  | lessThan left right dest =>
      obtain ⟨_, leftOk, rightOk⟩ := bind_eq_ok_iff.mp checked
      obtain ⟨a, a₁, a₂⟩ := Kinds.operand_reads assigned holds leftOk
      obtain ⟨b, b₁, b₂⟩ := Kinds.operand_reads assigned holds rightOk
      refine .value (.ofBool (a.lessOrUnordered b)) rfl (fun _ _ => ?_) fun _ _ => ?_
      · simp only [Instr.result, a₁, b₁]
      · simp only [Instr.result, a₂, b₂]
  | widen source dest =>
      obtain ⟨a, a₁, a₂⟩ := Kinds.operand_reads assigned holds checked
      refine .value a rfl (fun _ _ => ?_) fun _ _ => ?_
      · simp only [Instr.result, a₁]
      · simp only [Instr.result, a₂]
  | call callee operands dest =>
      obtain ⟨_, calleeOk, operandsOk⟩ := bind_eq_ok_iff.mp checked
      obtain ⟨f, found, arity⟩ := Module.function?_of_checkCallee calleeOk
      obtain ⟨values, sameLength, v₁, v₂⟩ := Kinds.operands_read assigned holds operandsOk
      refine .call callee f values rfl found (sameLength.trans arity.symm) (fun _ _ => ?_)
        fun _ _ => ?_
      · simp only [Instr.result, v₁]
      · simp only [Instr.result, v₂]
  | ret value =>
      obtain ⟨a, a₁, a₂⟩ := Kinds.operand_reads assigned holds checked
      refine .value a rfl (fun _ _ => ?_) fun _ _ => ?_
      · simp only [Instr.result, a₁]
      · simp only [Instr.result, a₂]

theorem getLast?_isRet_of_cons {instr : Instr} {rest : List Instr} (noRet : instr.isRet = false)
    (ends : (instr :: rest).getLast?.any Instr.isRet = true) :
    rest.getLast?.any Instr.isRet = true := by
  cases rest with
  | nil => simp [noRet] at ends
  | cons next rest => simpa using ends

section Induction

-- What is to be shown of a run of instructions over all the room, with these assigned.
variable {motive : Array Double → Array Double → List Instr → Prop}
  (ret : ∀ room temps value, (Instr.ret value).Reads m args room temps →
    motive room temps [.ret value])
  (step : ∀ room temps instr rest, instr.Reads m args room temps →
    instr.dest? = some temps.size → temps.size < room.size →
    (∀ value, motive (room.setIfInBounds temps.size value) (temps.push value) rest) →
    motive room temps (instr :: rest))
include ret step

/-- Induction over checked instructions: each but the return assigns the next temporary and leaves
    the rest to the induction, with one temporary more. -/
theorem checked_instrs_induction {kinds : Kinds} {instrs : List Instr} (count : Nat)
    (checked : m.checkInstrs args.length kinds instrs = .ok ())
    (ends : instrs.getLast?.any Instr.isRet = true) (assigned : kinds.Assigned temps)
    (holds : Holds room temps) (numbered : destsOf instrs = List.range' temps.size count)
    (inRoom : temps.size + count ≤ room.size) : motive room temps instrs := by
  refine Module.checkInstrs_induction (motive := fun kinds instrs => ∀ room temps count,
    instrs.getLast?.any Instr.isRet = true → kinds.Assigned temps → Holds room temps →
    destsOf instrs = List.range' temps.size count → temps.size + count ≤ room.size →
    motive room temps instrs) ?_ ?_ ?_ checked room temps count ends assigned holds numbered inRoom
  · exact fun _ _ _ _ => nofun
  · intro kinds value here room temps _ _ assigned holds _ _
    exact ret room temps value (Instr.reads_of_checkInstr assigned holds here)
  · intro kinds assigned' instr rest dest assigns here fresh ih room temps count ends assigned holds
      numbered inRoom
    obtain rfl := Kinds.assign_eq fresh
    obtain ⟨count, rfl⟩ : ∃ k, count = k + 1 := by
      cases count with
      | zero => simp [destsOf, assigns] at numbered
      | succ k => exact ⟨k, rfl⟩
    simp only [destsOf, List.filterMap_cons, assigns, List.range'_succ, List.cons.injEq]
      at numbered
    obtain ⟨rfl, numberedRest⟩ := numbered
    have next : temps.size < room.size := by omega
    have noRet : instr.isRet = false := by
      cases instr with
      | ret value => cases assigns
      | _ => rfl
    refine step room temps instr rest (Instr.reads_of_checkInstr assigned holds here) assigns
      next fun value => ?_
    refine ih _ _ count (getLast?_isRet_of_cons noRet ends) (assigned.push instr.kind value)
      (holds.assign next value) ?_ ?_
    · rw [Array.size_push]
      exact numberedRest
    · rw [Array.size_push, Array.size_setIfInBounds]
      omega

/-- Induction over the body of a checked function, from where a call of it begins. -/
theorem checked_body_induction {f : Function} {body : List Instr} (hasBody : f.body = some body)
    (numbered : f.Numbered) (checked : m.check f = .ok ()) (arity : args.length = f.params.length) :
    motive (.replicate f.nextTemp .zero) #[] body := by
  have inOrder : destsOf body = List.range f.nextTemp := by
    simpa only [Function.Numbered, hasBody, Option.getD_some] using numbered
  obtain ⟨body', hasBody', ends, checked⟩ := Module.check_eq_ok_iff.mp checked
  cases hasBody.symm.trans hasBody'
  refine checked_instrs_induction ret step f.nextTemp (arity ▸ checked) ends ?_ ?_ ?_ ?_
  · intro index kind known
    contradiction
  · intro index inside
    contradiction
  · rw [inOrder, List.range_eq_range']
    rfl
  · simp

end Induction

end Runs

section Calls

variable {strict free : FunctionId → List Double → Except Error Double} {malformed : Error}

/-- The run over all the room does what the run over the assigned temporaries does, and ends
    properly. -/
def RunsAlike (strict free : FunctionId → List Double → Except Error Double) (malformed : Error)
    (args : List Double) (room temps : Array Double) (instrs : List Instr) : Prop :=
  runInstrs free malformed args room instrs = runAssigned strict malformed args temps instrs ∧
    Proper (runInstrs free malformed args room instrs)

/-- Calls that the check lets through end properly. -/
def CallsAlike (m : Module) (strict free : FunctionId → List Double → Except Error Double) :
    Prop :=
  ∀ id f values, m.function? id = some f → values.length = f.params.length →
    free id values = strict id values ∧ Proper (free id values)

theorem RunsAlike.cons {args : List Double} {room temps : Array Double} {instr : Instr}
    {rest : List Instr} (result : Except Error Double)
    (strictly : instr.result strict malformed args temps = result)
    (freely : instr.result free malformed args room = result) (proper : Proper result)
    (dest : instr.dest? = some temps.size) (inRoom : temps.size < room.size)
    (goesOn : ∀ value, RunsAlike strict free malformed args
      (room.setIfInBounds temps.size value) (temps.push value) rest) :
    RunsAlike strict free malformed args room temps (instr :: rest) := by
  cases result with
  | error e =>
      simp only [RunsAlike, runInstrs, runAssigned, strictly, freely]
      exact ⟨trivial, proper⟩
  | ok value =>
      simp only [RunsAlike, runInstrs, runAssigned, strictly, freely, dest, if_pos inRoom, if_true]
      exact goesOn value

end Calls

namespace Module

variable {m : Module}

theorem calls_alike (numbered : m.Numbered)
    (checked : ∀ f ∈ m.functions, f.body ≠ none → m.check f = .ok ()) (frames : Nat) :
    CallsAlike m (m.callAssigned frames) (m.call frames) := by
  induction frames with
  | zero => exact fun _ _ _ _ _ => ⟨rfl, .tooDeep⟩
  | succ frames ih =>
      intro id f values found arity
      have hf := mem_of_function? found
      cases hasBody : f.body with
      | none =>
          simp only [call, callAssigned, found, hasBody]
          exact ⟨trivial, callHost_proper _ _⟩
      | some body =>
          have isChecked := checked f hf (by simp [hasBody])
          simp only [call, callAssigned, found, hasBody]
          refine checked_body_induction
            (motive := RunsAlike (m.callAssigned frames) (m.call frames) (.malformed f.name) values)
            ?_ ?_ hasBody (numbered.numbered f hf) isChecked arity
          · intro room temps value reads
            cases reads with
            | value v _ strictly freely =>
                simp only [RunsAlike, runInstrs, runAssigned, strictly, freely, Instr.dest?]
                exact ⟨trivial, .value v⟩
            | call _ _ _ calls => cases calls
          · intro room temps instr rest reads dest inRoom goesOn
            cases reads with
            | value v _ strictly freely =>
                exact .cons (.ok v) (strictly _ _) (freely _ _) (.value v) dest inRoom goesOn
            | call callee g operands _ foundCallee sameLength strictly freely =>
                obtain ⟨same, proper⟩ := ih callee g operands foundCallee sameLength
                exact .cons _ ((strictly _ _).trans same.symm) (freely _ _) proper dest inRoom
                  goesOn

/-- Where operations led to a module in which every body is well-formed, no evaluation goes wrong:
    a function with parameters is refused, and any other gives a value, the name of a function that
    the host does not have, or too deep a call, with no temporary read before it was assigned. -/
theorem checked_functions_evaluate (reachable : m.Reachable)
    (checked : ∀ f ∈ m.functions, f.body ≠ none → m.check f = .ok ()) {f : Function}
    (hf : f ∈ m.functions) :
    (f.params ≠ [] →
      m.evaluate f.id = some (.error (.notNullary f.name f.params.length))) ∧
    (f.params = [] → ∃ result, m.evaluate f.id = some result ∧
      m.evaluateAssigned f.id = some result ∧
      ((∃ value, result = .ok value) ∨ (∃ name, result = .error (.unresolvedSymbol name)) ∨
        result = .error (.recursionLimit maxCallDepth))) := by
  have numbered := reachable.numbered
  have found := numbered.function?_of_mem hf
  refine ⟨fun takesParams => ?_, fun noParams => ?_⟩
  · simp [evaluate, found, takesParams]
  · obtain ⟨same, proper⟩ := calls_alike numbered checked (maxCallDepth + 1) f.id f [] found
      (congrArg List.length noParams.symm)
    refine ⟨m.call (maxCallDepth + 1) f.id [], ?_, ?_, proper.cases⟩
    · simp [evaluate, found, noParams]
    · simp [evaluateAssigned, found, noParams, same]

/-- Builds `square` and a function that compares a square with zero. -/
def callingModule : Module :=
  List.foldl Operation.apply (.empty "m") [.addFunction "square" ["x"], .openBody ⟨0⟩,
    .arith .mul (.param 0) (.param 0), .ret (.temp 0), .addFunction "main" [], .openBody ⟨1⟩,
    .call ⟨0⟩ [.const .one], .lessThan (.temp 0) (.const .zero), .ret (.temp 2)]

/-- The comparison makes two temporaries, behind the one of the call. -/
theorem checked_functions_evaluate_calling :
    ∃ f ∈ callingModule.functions, f.callees = [⟨0⟩] ∧ f.params = [] ∧
      ∃ result, callingModule.evaluate f.id = some result ∧
        callingModule.evaluateAssigned f.id = some result ∧
        ((∃ value, result = .ok value) ∨ (∃ name, result = .error (.unresolvedSymbol name)) ∨
          result = .error (.recursionLimit maxCallDepth)) := by
  have reachable : callingModule.Reachable := (Reachable.empty "m").applyAll _
  obtain ⟨f, hf, calls, noParams⟩ :
      ∃ f ∈ callingModule.functions, f.callees = [⟨0⟩] ∧ f.params = [] := by decide
  exact ⟨f, hf, calls, noParams, (checked_functions_evaluate reachable (by decide) hf).2 noParams⟩

end Module

end Reckon.Ir
