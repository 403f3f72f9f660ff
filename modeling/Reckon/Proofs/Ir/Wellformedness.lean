import Mathlib.Data.List.Induction
import Reckon.Proofs.Ir.Checking

/-! # Well-formed bodies

Whether a body is well-formed can be said of its positions alone: what an operand may be depends on
the instructions before it, and on nothing that would have to be kept while going through them.
What is wrong with a body is listed by instructions and, in each of them, by operands. The check
accepts a body just if it is well-formed; otherwise its reason is the first of that list, unless
the body does not end with a return.
-/

namespace Reckon.Ir

def Kind.other : Kind → Kind
  | float => bool
  | bool => float

/-- One of these instructions assigns the temporary, and makes it of this kind. -/
def Assigns (instrs : List Instr) (temp : Nat) (kind : Kind) : Prop :=
  ∃ instr ∈ instrs, instr.dest? = some temp ∧ instr.kind = kind

instance (instrs : List Instr) (temp : Nat) (kind : Kind) : Decidable (Assigns instrs temp kind) :=
  inferInstanceAs (Decidable (∃ instr ∈ instrs, instr.dest? = some temp ∧ instr.kind = kind))

def Instr.numbers : Instr → List Value
  | arith _ left right _ | lessThan left right _ => [left, right]
  | widen _ _ => []
  | call _ args _ => args
  | ret value => [value]

/-- Behind these instructions the operand is a number. -/
inductive IsNumber (paramCount : Nat) (before : List Instr) : Value → Prop where
  | const (value : Double) : IsNumber paramCount before (.const value)
  | param {index : Nat} : index < paramCount → IsNumber paramCount before (.param index)
  /-- Assigned by an instruction that is no comparison. -/
  | temp {temp : Nat} : Assigns before temp .float → IsNumber paramCount before (.temp temp)

/-- Behind these instructions the operand is a truth value: only a comparison makes one. -/
inductive IsTruth (before : List Instr) : Value → Prop where
  | temp {temp : Nat} : Assigns before temp .bool → IsTruth before (.temp temp)

namespace Module

/-- The body keeps to what the module and its own positions ask of it. -/
structure WellFormed (m : Module) (paramCount : Nat) (body : List Instr) : Prop where
  /-- The last instruction is a return, -/
  ends : ∃ value, body.getLast? = some (.ret value)
  /-- and no other one is. -/
  endsOnce : ∀ before value after, body = before ++ .ret value :: after → after = []
  numbers : ∀ before instr after, body = before ++ instr :: after →
    ∀ value ∈ instr.numbers, IsNumber paramCount before value
  truths : ∀ before source dest after, body = before ++ .widen source dest :: after →
    IsTruth before source
  callees : ∀ callee args dest, .call callee args dest ∈ body →
    ∃ g, m.function? callee = some g ∧ g.params.length = args.length
  /-- No temporary is assigned twice. -/
  assignsOnce : (body.filterMap Instr.dest?).Nodup

def operandDefects (paramCount : Nat) (before : List Instr) (expected : Kind) :
    Value → List Defect
  | .const value => if expected = .float then [] else [.wrongKind (.const value) .float expected]
  | .param index =>
    if index < paramCount then
      if expected = .float then [] else [.wrongKind (.param index) .float expected]
    else [.paramOutOfRange index]
  | .temp temp =>
    if Assigns before temp expected then []
    else if Assigns before temp expected.other then
      [.wrongKind (.temp temp) expected.other expected]
    else [.usedBeforeDefinition temp]

def calleeDefects (m : Module) (callee : FunctionId) (passed : Nat) : List Defect :=
  match m.function? callee with
  | none => [.deletedCallee callee]
  | some g => if g.params.length = passed then [] else [.wrongArity g.name passed g.params.length]

/-- What is wrong with what an instruction reads and calls: with the callee first, then with the
    operands from left to right. -/
def readDefects (m : Module) (paramCount : Nat) (before : List Instr) : Instr → List Defect
  | .arith _ left right _ | .lessThan left right _ =>
    operandDefects paramCount before .float left ++ operandDefects paramCount before .float right
  | .widen source _ => operandDefects paramCount before .bool source
  | .call callee args _ =>
    m.calleeDefects callee args.length ++ args.flatMap (operandDefects paramCount before .float)
  | .ret value => operandDefects paramCount before .float value

/-- What is wrong with the place of an instruction, where a return is to be the last one. -/
def placeDefects (after : List Instr) : Instr → List Defect
  | .ret _ => if after = [] then [] else [.afterReturn]
  | _ => []

def destDefects (before : List Instr) (instr : Instr) : List Defect :=
  match instr.dest? with
  | some dest => if dest ∈ before.filterMap Instr.dest? then [.assignedTwice dest] else []
  | none => []

/-- All that is wrong with an instruction between others. -/
def instrDefects (m : Module) (paramCount : Nat) (before : List Instr) (instr : Instr)
    (after : List Instr) : List Defect :=
  placeDefects after instr ++ (m.readDefects paramCount before instr ++ destDefects before instr)

/-- All that is wrong with instructions that come behind others, in order. -/
def defectsBehind (m : Module) (paramCount : Nat) : List Instr → List Instr → List Defect
  | _, [] => []
  | before, instr :: after =>
    m.instrDefects paramCount before instr after ++
      m.defectsBehind paramCount (before ++ [instr]) after

/-- All that is wrong with the instructions of a body, in order. -/
def bodyDefects (m : Module) (paramCount : Nat) (body : List Instr) : List Defect :=
  m.defectsBehind paramCount [] body

end Module

/-- The first of some defects as a reason; nothing is refused if there is none. -/
def firstOf : List Defect → Except Defect Unit
  | [] => .ok ()
  | defect :: _ => .error defect

theorem firstOf_append (defects more : List Defect) :
    firstOf (defects ++ more) = (do firstOf defects; firstOf more) := by
  cases defects <;> rfl

theorem firstOf_eq_ok_iff {defects : List Defect} : firstOf defects = .ok () ↔ defects = [] := by
  cases defects <;> simp [firstOf]

/-- The temporaries that a check knows are those that the instructions so far assign. -/
def Kinds.Tracks (kinds : Kinds) (before : List Instr) : Prop :=
  ∀ temp kind, kinds.lookup temp = some kind ↔ Assigns before temp kind

namespace Kinds.Tracks

variable {kinds : Kinds} {before : List Instr}

theorem nil : Kinds.Tracks [] [] := by
  intro temp kind
  simp [Assigns]

theorem lookup_eq_none (h : kinds.Tracks before) {temp : Nat} :
    kinds.lookup temp = none ↔ temp ∉ before.filterMap Instr.dest? := by
  rw [Option.eq_none_iff_forall_ne_some, List.mem_filterMap]
  constructor
  · rintro unknown ⟨instr, mem, assigns⟩
    exact unknown instr.kind ((h temp instr.kind).mpr ⟨instr, mem, assigns, rfl⟩)
  · intro free kind known
    obtain ⟨instr, mem, assigns, -⟩ := (h temp kind).mp known
    exact free ⟨instr, mem, assigns⟩

theorem push (h : kinds.Tracks before) {instr : Instr} {dest : Nat}
    (assigns : instr.dest? = some dest) (unknown : kinds.lookup dest = none) :
    Kinds.Tracks ((dest, instr.kind) :: kinds) (before ++ [instr]) := by
  intro temp kind
  have split : Assigns (before ++ [instr]) temp kind ↔
      Assigns before temp kind ∨ dest = temp ∧ instr.kind = kind := by
    simp [Assigns, or_and_right, exists_or, assigns]
  rw [split, ← h temp kind, List.lookup_cons]
  by_cases same : temp = dest
  · subst same
    simp [unknown]
  · simp [beq_eq_false_iff_ne.mpr same, Ne.symm same]

theorem kind_unique (h : kinds.Tracks before) {temp : Nat} {kind other : Kind}
    (assigned : Assigns before temp kind) (assignedToo : Assigns before temp other) :
    kind = other :=
  Option.some.inj (((h temp kind).mpr assigned).symm.trans ((h temp other).mpr assignedToo))

theorem operand_eq (h : kinds.Tracks before) (paramCount : Nat) (expected : Kind) (value : Value) :
    kinds.operand paramCount expected value =
      firstOf (Module.operandDefects paramCount before expected value) := by
  cases value with
  | const value => cases expected <;> rfl
  | param index =>
      by_cases inside : index < paramCount
      · simp only [operand, kindOf, Module.operandDefects, if_pos inside]
        cases expected <;> rfl
      · simp only [operand, kindOf, Module.operandDefects, if_neg inside]
        rfl
  | temp temp =>
      cases known : kinds.lookup temp with
      | none =>
          have free : ∀ kind, ¬Assigns before temp kind := by
            intro kind assigned
            rw [(h temp kind).mpr assigned] at known
            cases known
          simp only [operand, kindOf, Module.operandDefects, known, free, if_false]
          cases expected <;> rfl
      | some kind =>
          have assigned := (h temp kind).mp known
          by_cases same : kind = expected
          · subst same
            simp only [operand, kindOf, Module.operandDefects, known, assigned, if_true]
            cases kind <;> rfl
          · have other : ¬Assigns before temp expected :=
              fun expectedToo => same (h.kind_unique assigned expectedToo)
            obtain rfl : kind = expected.other := by
              cases kind <;> cases expected <;> first | rfl | contradiction
            simp only [operand, kindOf, Module.operandDefects, known, if_neg other, if_pos assigned]
            cases expected <;> rfl

theorem operands_eq (h : kinds.Tracks before) (paramCount : Nat) (expected : Kind)
    (values : List Value) : values.forM (kinds.operand paramCount expected) =
      firstOf (values.flatMap (Module.operandDefects paramCount before expected)) := by
  induction values with
  | nil => rfl
  | cons value values ih =>
      rw [List.flatMap_cons, firstOf_append, ← h.operand_eq, ← ih]
      rfl

theorem assign_eq (h : kinds.Tracks before) {instr : Instr} {dest : Nat}
    (assigns : instr.dest? = some dest) : kinds.assign dest instr.kind =
      (do firstOf (Module.destDefects before instr); pure ((dest, instr.kind) :: kinds)) := by
  cases known : kinds.lookup dest with
  | none =>
      have free := h.lookup_eq_none.mp known
      simp only [assign, known, Module.destDefects, assigns, if_neg free]
      rfl
  | some kind =>
      obtain ⟨assigner, mem, assignsToo, -⟩ := (h dest kind).mp known
      have taken := List.mem_filterMap.mpr ⟨assigner, mem, assignsToo⟩
      simp only [assign, known, Module.destDefects, assigns, if_pos taken]
      rfl

end Kinds.Tracks

namespace Module

variable {m : Module} {paramCount : Nat}

theorem checkCallee_eq (m : Module) (callee : FunctionId) (args : List Value) :
    m.checkCallee callee args = firstOf (m.calleeDefects callee args.length) := by
  cases found : m.function? callee with
  | none =>
      simp only [checkCallee, calleeDefects, found]
      rfl
  | some g =>
      simp only [checkCallee, calleeDefects, found]
      split <;> rfl

theorem checkInstr_eq {kinds : Kinds} {before : List Instr} (tracks : kinds.Tracks before)
    (instr : Instr) : m.checkInstr paramCount kinds instr =
      firstOf (m.readDefects paramCount before instr) := by
  cases instr with
  | arith op left right dest =>
      simp only [checkInstr, readDefects, tracks.operand_eq, firstOf_append]
  | lessThan left right dest =>
      simp only [checkInstr, readDefects, tracks.operand_eq, firstOf_append]
  | widen source dest => exact tracks.operand_eq paramCount .bool source
  | call callee args dest =>
      simp only [checkInstr, readDefects, checkCallee_eq, tracks.operands_eq, firstOf_append]
  | ret value => exact tracks.operand_eq paramCount .float value

/-- The one pass over a body, which keeps the kinds of the temporaries so far, comes to the first
    of what is wrong at its positions. -/
theorem checkInstrs_eq {kinds : Kinds} {before instrs : List Instr}
    (tracks : kinds.Tracks before) : m.checkInstrs paramCount kinds instrs =
      firstOf (m.defectsBehind paramCount before instrs) := by
  induction instrs generalizing kinds before with
  | nil => rfl
  | cons instr rest ih =>
      cases assigns : instr.dest? with
      | none =>
          obtain ⟨value, rfl⟩ := Instr.dest?_eq_none assigns
          cases rest with
          | nil =>
              have operand := tracks.operand_eq paramCount .float value
              simp [checkInstrs, defectsBehind, instrDefects, placeDefects, readDefects,
                destDefects, Instr.dest?, operand]
          | cons next rest => rfl
      | some dest =>
          have inPlace : placeDefects rest instr = [] := by
            cases instr <;> first | rfl | cases assigns
          rw [checkInstrs_cons assigns, tracks.assign_eq assigns, checkInstr_eq tracks,
            defectsBehind, instrDefects, inPlace, List.nil_append, List.append_assoc,
            firstOf_append, firstOf_append, bind_assoc]
          congr 1
          funext _
          by_cases taken : destDefects before instr = []
          · have unknown : kinds.lookup dest = none := by
              rw [tracks.lookup_eq_none]
              intro mem
              simp [destDefects, assigns, mem] at taken
            rw [taken]
            exact ih (tracks.push assigns unknown)
          · obtain ⟨defect, more, listed⟩ := List.exists_cons_of_ne_nil taken
            rw [listed]
            rfl

theorem operandDefects_float {before : List Instr} {value : Value} :
    operandDefects paramCount before .float value = [] ↔ IsNumber paramCount before value := by
  constructor
  · intro none
    cases value with
    | const value => exact .const value
    | param index =>
        by_cases inside : index < paramCount
        · exact .param inside
        · simp [operandDefects, inside] at none
    | temp temp =>
        by_cases assigned : Assigns before temp .float
        · exact .temp assigned
        · simp only [operandDefects, if_neg assigned] at none
          split at none <;> cases none
  · rintro (_ | inside | assigned)
    · rfl
    · simp [operandDefects, inside]
    · simp [operandDefects, assigned]

theorem operandDefects_bool {before : List Instr} {value : Value} :
    operandDefects paramCount before .bool value = [] ↔ IsTruth before value := by
  constructor
  · intro none
    cases value with
    | const value => cases none
    | param index =>
        simp only [operandDefects] at none
        split at none <;> cases none
    | temp temp =>
        by_cases assigned : Assigns before temp .bool
        · exact .temp assigned
        · simp only [operandDefects, if_neg assigned] at none
          split at none <;> cases none
  · rintro ⟨assigned⟩
    simp [operandDefects, assigned]

theorem calleeDefects_eq_nil {callee : FunctionId} {passed : Nat} :
    m.calleeDefects callee passed = [] ↔
      ∃ g, m.function? callee = some g ∧ g.params.length = passed := by
  unfold calleeDefects
  cases m.function? callee <;> simp

/-- At every position there is nothing wrong. -/
theorem defectsBehind_eq_nil {before instrs : List Instr} :
    m.defectsBehind paramCount before instrs = [] ↔
      ∀ first instr after, instrs = first ++ instr :: after →
        m.instrDefects paramCount (before ++ first) instr after = [] := by
  induction instrs generalizing before with
  | nil => simp [defectsBehind]
  | cons instr rest ih =>
      rw [defectsBehind, List.append_eq_nil_iff, ih]
      constructor
      · rintro ⟨here, later⟩ first other after same
        cases first with
        | nil =>
            cases same
            simpa using here
        | cons _ first =>
            cases same
            simpa using later first other after rfl
      · intro all
        refine ⟨by simpa using all [] instr rest rfl, fun first other after same => ?_⟩
        simpa using all (instr :: first) other after (by rw [same, List.cons_append])

theorem readDefects_eq_nil {before : List Instr} {instr : Instr} :
    m.readDefects paramCount before instr = [] ↔
      (∀ value ∈ instr.numbers, IsNumber paramCount before value) ∧
      (∀ source dest, instr = .widen source dest → IsTruth before source) ∧
      ∀ callee args dest, instr = .call callee args dest →
        ∃ g, m.function? callee = some g ∧ g.params.length = args.length := by
  cases instr with
  | arith op left right dest => simp [readDefects, Instr.numbers, operandDefects_float]
  | lessThan left right dest => simp [readDefects, Instr.numbers, operandDefects_float]
  | widen source dest => simp [readDefects, Instr.numbers, operandDefects_bool]
  | call callee args dest =>
      simp [readDefects, Instr.numbers, calleeDefects_eq_nil, operandDefects_float, and_comm]
  | ret value => simp [readDefects, Instr.numbers, operandDefects_float]

theorem placeDefects_eq_nil {instr : Instr} {after : List Instr} :
    placeDefects after instr = [] ↔ ∀ value, instr = .ret value → after = [] := by
  cases instr <;> simp [placeDefects]

theorem destDefects_eq_nil {before : List Instr} {instr : Instr} :
    destDefects before instr = [] ↔
      ∀ dest, instr.dest? = some dest → dest ∉ before.filterMap Instr.dest? := by
  unfold destDefects
  cases instr.dest? <;> simp

/-- Each temporary is new where it is assigned just if none is assigned twice. -/
theorem nodup_dests {body : List Instr} : (body.filterMap Instr.dest?).Nodup ↔
    ∀ before instr after, body = before ++ instr :: after →
      ∀ dest, instr.dest? = some dest → dest ∉ before.filterMap Instr.dest? := by
  constructor
  · rintro once before instr after rfl dest assigns taken
    rw [List.filterMap_append, List.filterMap_cons_some assigns, List.nodup_append] at once
    exact once.2.2 dest taken dest List.mem_cons_self rfl
  · intro fresh
    induction body using List.reverseRecOn with
    | nil => exact List.nodup_nil
    | append_singleton body instr ih =>
        have onceBefore := ih fun before other after same =>
          fresh before other (after ++ [instr]) (by simp [same])
        cases assigns : instr.dest? with
        | none => simpa [assigns] using onceBefore
        | some dest =>
            have new := fresh body instr [] rfl dest assigns
            rw [List.filterMap_append, List.filterMap_cons_some assigns, List.filterMap_nil,
              List.nodup_append]
            refine ⟨onceBefore, List.pairwise_singleton _ dest, ?_⟩
            grind

theorem wellFormed_iff {body : List Instr} : m.WellFormed paramCount body ↔
    (∃ value, body.getLast? = some (.ret value)) ∧ m.bodyDefects paramCount body = [] := by
  rw [bodyDefects, defectsBehind_eq_nil]
  simp only [List.nil_append, instrDefects, List.append_eq_nil_iff, placeDefects_eq_nil,
    readDefects_eq_nil, destDefects_eq_nil]
  constructor
  · intro h
    refine ⟨h.ends, fun before instr after same => ⟨?_, ⟨?_, ?_, ?_⟩, ?_⟩⟩
    · rintro value rfl
      exact h.endsOnce before value after same
    · exact h.numbers before instr after same
    · rintro source dest rfl
      exact h.truths before source dest after same
    · rintro callee args dest rfl
      exact h.callees callee args dest (by simp [same])
    · exact nodup_dests.mp h.assignsOnce before instr after same
  · rintro ⟨ends, fine⟩
    refine ⟨ends, ?_, ?_, ?_, ?_, ?_⟩
    · exact fun before value after same => (fine before _ after same).1 value rfl
    · exact fun before instr after same => (fine before instr after same).2.1.1
    · exact fun before source dest after same => (fine before _ after same).2.1.2.1 source dest rfl
    · intro callee args dest mem
      obtain ⟨before, after, same⟩ := List.append_of_mem mem
      exact (fine before _ after same).2.1.2.2 callee args dest rfl
    · exact nodup_dests.mpr fun before instr after same => (fine before instr after same).2.2

theorem getLast?_isRet {body : List Instr} :
    body.getLast?.any Instr.isRet = true ↔ ∃ value, body.getLast? = some (.ret value) := by
  cases body.getLast? with
  | none => simp
  | some last => cases last <;> simp [Instr.isRet]

/-- A function with a body is accepted just if its body is well-formed. Otherwise the reason is that
    the body does not end with a return, or else the first of what is wrong at its positions. -/
theorem check_decides_wellFormed {m : Module} {f : Function} {body : List Instr}
    (hasBody : f.body = some body) :
    (m.check f = .ok () ↔ m.WellFormed f.params.length body) ∧
      ((∀ value, body.getLast? ≠ some (.ret value)) → m.check f = .error .notTerminated) ∧
      ((∃ value, body.getLast? = some (.ret value)) → ¬m.WellFormed f.params.length body →
        ∃ defect, (m.bodyDefects f.params.length body).head? = some defect ∧
          m.check f = .error defect) := by
  have pass : m.checkInstrs f.params.length [] body =
      firstOf (m.defectsBehind f.params.length [] body) := checkInstrs_eq .nil
  rw [wellFormed_iff]
  by_cases ends : ∃ value, body.getLast? = some (.ret value)
  · have checked : m.check f = firstOf (m.bodyDefects f.params.length body) := by
      simp only [check, hasBody, getLast?_isRet.mpr ends, if_true, pass, bodyDefects]
    refine ⟨?_, fun unended => ?_, fun _ illFormed => ?_⟩
    · rw [checked, firstOf_eq_ok_iff, and_iff_right ends]
    · exact absurd ends.choose_spec (unended _)
    · rw [and_iff_right ends] at illFormed
      obtain ⟨defect, more, listed⟩ := List.exists_cons_of_ne_nil illFormed
      exact ⟨defect, by rw [listed]; rfl, by rw [checked, listed]; rfl⟩
  · have refused : m.check f = .error .notTerminated := by
      simp only [check, hasBody, mt getLast?_isRet.mp ends]
      rfl
    refine ⟨?_, fun _ => refused, fun ended => absurd ended ends⟩
    rw [refused]
    simp [ends]

/-- In the sum the left operand is a truth value and the right one is not assigned at all; of these
    the left one is the reason. Without the sum the body is accepted. -/
theorem check_decides_wellFormed_sum :
    ∃ f g : Function,
      f.body = some [.lessThan (.param 0) (.param 0) 0, .arith .add (.temp 0) (.temp 7) 1,
        .arith .mul (.param 1) (.temp 1) 1, .ret (.temp 1)] ∧
      g.body = some [.lessThan (.param 0) (.param 0) 0, .widen (.temp 0) 1, .ret (.temp 1)] ∧
      (empty "m").bodyDefects f.params.length (f.body.getD []) =
        [.wrongKind (.temp 0) .bool .float, .usedBeforeDefinition 7, .paramOutOfRange 1,
          .assignedTwice 1] ∧
      (empty "m").check f = .error (.wrongKind (.temp 0) .bool .float) ∧
      (empty "m").check g = .ok () := by
  refine ⟨⟨⟨0⟩, "f", ["x"], _, 2⟩, ⟨⟨1⟩, "g", ["x"], _, 2⟩, rfl, rfl, by decide, ?_, ?_⟩
  · obtain ⟨-, -, otherwise⟩ := check_decides_wellFormed (m := empty "m")
      (f := ⟨⟨0⟩, "f", ["x"], some [.lessThan (.param 0) (.param 0) 0,
        .arith .add (.temp 0) (.temp 7) 1, .arith .mul (.param 1) (.temp 1) 1,
        .ret (.temp 1)], 2⟩) rfl
    obtain ⟨defect, first, refused⟩ := otherwise ⟨_, rfl⟩
      fun wellFormed => absurd (wellFormed_iff.mp wellFormed).2 (by decide)
    rw [refused]
    exact congrArg Except.error (Option.some.inj (first.symm.trans (by decide)))
  · refine (check_decides_wellFormed rfl).1.mpr ?_
    rw [wellFormed_iff]
    exact ⟨⟨_, rfl⟩, by decide⟩

end Module

end Reckon.Ir
