import Reckon.Proofs.Ir.Building
import Reckon.Proofs.Ir.Numbering
import Reckon.Proofs.Ir.Wellformedness

/-! # Modules are coherent

Operations may be called in any order, with ids of functions that are gone, on bodies that have
ended, and in the middle of one another. What they cannot break is that the function which receives
instructions is there and has a body. So a build call goes through just if a function is open, and
a comparison never stops between its two instructions.
-/

namespace Reckon.Ir

namespace Module

variable {m : Module} {id other : FunctionId}

theorem hasBody_eq_true : m.hasBody id = true ↔
    ∃ f body, m.function? id = some f ∧ f.body = some body := by
  cases found : m.function? id with
  | none => simp [hasBody, found]
  | some f => simp [hasBody, found, Option.isSome_iff_exists]

/-- A change that takes no body away leaves a body to every function that has one. -/
theorem hasBody_update (change : Function → Function) (keepsId : ∀ f, (change f).id = f.id)
    (keepsBody : ∀ f, f.body.isSome = true → (change f).body.isSome = true)
    (hasBody : m.hasBody other = true) : (m.update id change).hasBody other = true := by
  obtain ⟨f, body, found, bodied⟩ := hasBody_eq_true.mp hasBody
  have some : f.body.isSome = true := by rw [bodied, Option.isSome_some]
  rw [Module.hasBody, function?_update change keepsId, found, Option.map_some, Option.any_some]
  split
  · exact keepsBody f some
  · exact some

theorem hasBody_update_of_ne (change : Function → Function)
    (keepsId : ∀ f, (change f).id = f.id) (different : other ≠ id) :
    (m.update id change).hasBody other = m.hasBody other := by
  rw [Module.hasBody, function?_update change keepsId, Module.hasBody]
  cases found : m.function? other with
  | none => rfl
  | some f => rw [Option.map_some, if_neg (id_of_function? found ▸ different)]

/-- The function that receives instructions, if there is one, is in the module and has a body. -/
def OpensBody (m : Module) : Prop := ∀ id, m.insertion = some id → m.hasBody id = true

namespace OpensBody

theorem update (h : m.OpensBody) {change : Function → Function}
    (keepsId : ∀ f, (change f).id = f.id)
    (keepsBody : ∀ f, f.body.isSome = true → (change f).body.isSome = true) :
    (m.update id change).OpensBody :=
  fun other opened => hasBody_update change keepsId keepsBody (h other opened)

theorem leave {m' : Module} (h : m.OpensBody) (sameInsertion : m'.insertion = m.insertion)
    (others : ∀ other, other ≠ id → m.hasBody other = true → m'.hasBody other = true) :
    (m'.leave id).OpensBody := by
  intro other opened
  have body : (m'.leave id).hasBody other = m'.hasBody other := by
    simp only [Module.hasBody, function?, functions_leave]
  rw [body]
  unfold Module.leave at opened
  split at opened
  · cases opened
  · next notOpen =>
    have different : other ≠ id := fun same => notOpen (same ▸ opened)
    exact others other different (h other (sameInsertion ▸ opened))

theorem addFunction (h : m.OpensBody) (name : String) (params : List String) :
    (m.addFunction name params).2.OpensBody := by
  intro id opened
  obtain ⟨f, body, found, bodied⟩ := hasBody_eq_true.mp (h id opened)
  have foundToo : (m.addFunction name params).2.function? id = some f := by
    simp only [function?, Module.addFunction, List.find?_append]
    rw [← function?, found, Option.some_or]
  exact hasBody_eq_true.mpr ⟨f, body, foundToo, bodied⟩

theorem setParamNames (h : m.OpensBody) (id : FunctionId) (names : List String) :
    (m.setParamNames id names).OpensBody := by
  refine h.update (fun f => ?_) fun f some => ?_
  · split <;> rfl
  · split <;> exact some

theorem openBody (h : m.OpensBody) (id : FunctionId) :
    (leaves (Build.openBody id) m).OpensBody := by
  cases found : m.function? id with
  | none => simpa only [leaves, Build.openBody, found] using h
  | some f =>
      rw [leaves_of_ok (Build.openBody_eq found)]
      intro other opened
      obtain rfl : id = other := Option.some.inj opened
      exact hasBody_eq_true.mpr ⟨_, [], function?_withBody_self found, rfl⟩

theorem emit (h : m.OpensBody) (make : Nat → Instr) : (leaves (Build.emit make) m).OpensBody := by
  rcases Build.leaves_target_bind _ m with same | ⟨f, body, -, -, emitted⟩
  · rw [Build.emit, same]
    exact h
  · rw [Build.emit, emitted]
    exact h.update (fun _ => rfl) fun _ _ => rfl

theorem ret (h : m.OpensBody) (value : Value) : (leaves (Build.ret value) m).OpensBody := by
  rcases Build.leaves_target_bind _ m with same | ⟨f, body, -, -, returned⟩
  · rw [Build.ret, same]
    exact h
  · rw [Build.ret, returned]
    exact h.update (fun _ => rfl) fun _ _ => rfl

theorem lessThan (h : m.OpensBody) (left right : Value) :
    (leaves (Build.lessThan left right) m).OpensBody := by
  have keeps : Keeps OpensBody (Build.lessThan left right) :=
    .bind (.of_leaves fun _ h => h.emit _) fun _ => .of_leaves fun _ h => h.emit _
  exact keeps.holds_leaves h

theorem clearBody (h : m.OpensBody) (id : FunctionId) : (m.clearBody id).OpensBody := by
  refine h.leave rfl fun other different hasBody => ?_
  let cleared : Function → Function := fun f => { f with body := none, nextTemp := 0 }
  have same : (m.update id cleared).hasBody other = m.hasBody other :=
    hasBody_update_of_ne cleared (fun _ => rfl) different
  exact same.trans hasBody

theorem deleteFunction (h : m.OpensBody) (id : FunctionId) : (m.deleteFunction id).OpensBody := by
  refine h.leave rfl fun other different hasBody => ?_
  obtain ⟨f, body, found, bodied⟩ := hasBody_eq_true.mp hasBody
  refine hasBody_eq_true.mpr ⟨f, body, ?_, bodied⟩
  rw [function?, List.find?_filter, ← found, function?]
  congr 1
  funext g
  by_cases same : g.id = other
  · simp [same, different]
  · simp [same]

end OpensBody

end Module

theorem Operation.opensBody {m : Module} (operation : Operation) (h : m.OpensBody) :
    (operation.apply m).OpensBody := by
  cases operation with
  | addFunction name params => exact h.addFunction name params
  | setParamNames id names => exact h.setParamNames id names
  | openBody id => exact h.openBody id
  | arith op left right => exact h.emit _
  | lessThan left right => exact h.lessThan left right
  | call callee args => exact h.emit _
  | ret value => exact h.ret value
  | clearBody id => exact h.clearBody id
  | deleteFunction id => exact h.deleteFunction id

namespace Module

/-- What every module is like, whatever operations led to it. -/
structure Coherent (m : Module) : Prop extends m.Numbered where
  opensBody : m.OpensBody

theorem Reachable.coherent {m : Module} (h : m.Reachable) : m.Coherent := by
  refine ⟨h.numbered, ?_⟩
  induction h with
  | empty name => exact fun id opened => nomatch opened
  | apply operation _ ih => exact operation.opensBody ih

end Module

namespace Build

/-- Where a function is open, the call adds this code to its body, as from the counter on, and gives
    this result. Elsewhere it fails and changes nothing. -/
def Adds (call : Build α) (code : Nat → List Instr) (result : Nat → α) (m : Module) : Prop :=
  match m.insertion with
  | none => call m = .error .noInsertionPoint m
  | some id => ∃ f body, m.function? id = some f ∧ f.body = some body ∧
      call m = .ok (result f.nextTemp) (m.withBody id (body ++ code f.nextTemp)
        (f.nextTemp + (destsOf (code f.nextTemp)).length))

variable {m : Module} {call : Build α} {code : Nat → List Instr} {result : Nat → α}

/-- What a build call adds is known from what it does where no function is open, and on a module
    whose open function has got a body. -/
theorem Adds.intro (h : m.Coherent)
    (closed : m.insertion = none → call m = .error .noInsertionPoint m)
    (opened : ∀ id f body next, m.function? id = some f →
      call (m.withBody id body next) = .ok (result next) (m.withBody id (body ++ code next)
        (next + (destsOf (code next)).length))) : call.Adds code result m := by
  unfold Adds
  cases insertion : m.insertion with
  | none => exact closed insertion
  | some id =>
      obtain ⟨f, body, found, bodied⟩ := Module.hasBody_eq_true.mp (h.opensBody id insertion)
      have unchanged : m.update id (·.begun body f.nextTemp) = m := by
        apply Module.update_eq_self (·.begun body f.nextTemp)
        intro g hg same
        obtain rfl := h.eq_of_function? found hg same
        simp only [Function.begun, ← bodied]
      have asOpened : m = m.withBody id body f.nextTemp := by
        rw [Module.withBody, unchanged, ← insertion]
      refine ⟨f, body, found, bodied, ?_⟩
      conv_lhs => rw [asOpened]
      exact opened id f body f.nextTemp found

theorem target_bind_of_closed (closed : m.insertion = none)
    (rest : Function × List Instr → Build α) :
    (target >>= rest) m = .error .noInsertionPoint m := by
  apply bind_of_error
  simp only [target, closed, Option.bind_none]

theorem emit_adds (h : m.Coherent) {make : Nat → Instr} (assigns : ∀ n, (make n).dest? = some n) :
    (emit make).Adds (fun n => [make n]) .temp m := by
  refine .intro h (fun closed => target_bind_of_closed closed _) fun id f body next found => ?_
  simp only [emit_withBody found, destsOf, List.filterMap_cons, assigns, List.filterMap_nil,
    List.length_singleton]

theorem lessThan_adds (h : m.Coherent) (left right : Value) :
    (lessThan left right).Adds
      (fun n => [.lessThan left right n, .widen (.temp n) (n + 1)]) (fun n => .temp (n + 1)) m := by
  refine .intro h (fun closed => ?_) fun id f body next found => lessThan_withBody found left right
  exact bind_of_error (target_bind_of_closed closed _)

theorem ret_adds (h : m.Coherent) (value : Value) :
    (ret value).Adds (fun _ => [.ret value]) (fun _ => ()) m := by
  refine .intro h (fun closed => target_bind_of_closed closed _) fun id f body next found => ?_
  exact ret_withBody found value

end Build

namespace Module

variable {m : Module} {paramCount temp : Nat}

theorem mem_defectsBehind {defect : Defect} {before instrs : List Instr}
    (mem : defect ∈ m.defectsBehind paramCount before instrs) :
    ∃ first instr after, instrs = first ++ instr :: after ∧
      defect ∈ m.instrDefects paramCount (before ++ first) instr after := by
  induction instrs generalizing before with
  | nil => exact absurd mem List.not_mem_nil
  | cons instr rest ih =>
      rw [defectsBehind, List.mem_append] at mem
      rcases mem with here | later
      · exact ⟨[], instr, rest, rfl, by rwa [List.append_nil]⟩
      · obtain ⟨first, other, after, rfl, mem⟩ := ih later
        exact ⟨instr :: first, other, after, rfl, by rwa [List.append_cons]⟩

/-- Nothing that an instruction reads is at fault for a temporary that is assigned twice. -/
theorem assignedTwice_not_mem_readDefects (before : List Instr) (instr : Instr) :
    .assignedTwice temp ∉ m.readDefects paramCount before instr := by
  have operand : ∀ expected value,
      Defect.assignedTwice temp ∉ operandDefects paramCount before expected value := by
    intro expected value
    cases value <;> grind [operandDefects]
  have callee : ∀ callee passed, .assignedTwice temp ∉ m.calleeDefects callee passed := by
    intro callee passed
    unfold calleeDefects
    cases m.function? callee <;> grind
  cases instr <;> simp [readDefects, operand, callee]

theorem assignedTwice_not_mem {body : List Instr} (once : (body.filterMap Instr.dest?).Nodup) :
    .assignedTwice temp ∉ m.bodyDefects paramCount body := by
  intro mem
  obtain ⟨before, instr, after, split, mem⟩ := mem_defectsBehind mem
  simp only [instrDefects, List.nil_append, List.mem_append] at mem
  rcases mem with place | read | dest
  · cases instr <;> simp [placeDefects] at place
  · exact assignedTwice_not_mem_readDefects before instr read
  · have fresh := nodup_dests.mp once before instr after split
    rw [destDefects_eq_nil.mpr fresh] at dest
    contradiction

/-- The reason for which a body is refused, unless it does not end with a return, is among what is
    wrong at its positions. -/
theorem mem_bodyDefects_of_check {f : Function} {body : List Instr} {defect : Defect}
    (hasBody : f.body = some body) (refused : m.check f = .error defect) :
    defect = .notTerminated ∨ defect ∈ m.bodyDefects f.params.length body := by
  simp only [check, hasBody] at refused
  split at refused
  · rw [checkInstrs_eq .nil, ← bodyDefects] at refused
    cases listed : m.bodyDefects f.params.length body with
    | nil =>
        rw [listed] at refused
        cases refused
    | cons first more =>
        rw [listed] at refused
        cases refused
        exact .inr List.mem_cons_self
  · cases refused
    exact .inl rfl

theorem Numbered.defect?_ne (h : m.Numbered) (id : FunctionId) :
    m.defect? id ≠ some (.assignedTwice temp) := by
  intro reported
  unfold defect? at reported
  split at reported
  · next defect refused =>
    obtain rfl := Option.some.inj reported
    obtain ⟨f, found, checked⟩ := Option.map_eq_some_iff.mp refused
    have numbered := h.numbered f (mem_of_function? found)
    cases hasBody : f.body with
    | none =>
        rw [check, hasBody] at checked
        cases checked
    | some body =>
        have dests : body.filterMap Instr.dest? = List.range f.nextTemp := by
          simpa only [Function.Numbered, destsOf, hasBody, Option.getD_some] using numbered
        have once : (body.filterMap Instr.dest?).Nodup := dests ▸ List.nodup_range
        rcases mem_bodyDefects_of_check hasBody checked with unended | listed
        · cases unended
        · exact assignedTwice_not_mem once listed
  · cases reported

/-- Whatever operations were called on a new module, in any order and with any names, operands and
    ids: functions stand in the order of their ids, ids to come are new, the open function is there
    and has a body, a declaration has assigned no temporary, and a body assigns its temporaries in
    order from zero on. So every build call adds all of its instructions where a function is open,
    and nothing where none is, and no temporary is ever found to be assigned twice. -/
theorem operations_keep_coherent (name : String) (operations : List Operation) :
    let m := operations.foldl Operation.apply (.empty name)
    m.Coherent ∧
      (∀ op left right,
        (Build.arith op left right).Adds (fun n => [.arith op left right n]) .temp m) ∧
      (∀ left right, (Build.lessThan left right).Adds
        (fun n => [.lessThan left right n, .widen (.temp n) (n + 1)]) (fun n => .temp (n + 1)) m) ∧
      (∀ callee args, (Build.call callee args).Adds (fun n => [.call callee args n]) .temp m) ∧
      (∀ value, (Build.ret value).Adds (fun _ => [.ret value]) (fun _ => ()) m) ∧
      ∀ id temp, m.defect? id ≠ some (.assignedTwice temp) := by
  have coherent : (operations.foldl Operation.apply (.empty name)).Coherent :=
    ((Reachable.empty name).applyAll operations).coherent
  refine ⟨coherent, fun op left right => ?_, Build.lessThan_adds coherent, fun callee args => ?_,
    Build.ret_adds coherent, fun id temp => coherent.defect?_ne id⟩
  · exact Build.emit_adds coherent fun _ => rfl
  · exact Build.emit_adds coherent fun _ => rfl

/-- A body goes on behind its return, and a function that is gone is left alone. -/
example : [.addFunction "f" [], .openBody ⟨0⟩, .ret (.temp 7), .lessThan (.param 3) (.temp 9),
      .deleteFunction ⟨5⟩].foldl Operation.apply (.empty "m") =
    ⟨"m", [⟨⟨0⟩, "f", [], some [.ret (.temp 7), .lessThan (.param 3) (.temp 9) 0,
      .widen (.temp 0) 1], 2⟩], 1, some ⟨0⟩⟩ := by decide

end Module

end Reckon.Ir
