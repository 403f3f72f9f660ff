import Mathlib.Data.List.Chain
import Mathlib.Logic.Relation
import Reckon.Proofs.Ir.Soundness
import Reckon.Proofs.Ir.Termination

/-! # Call graphs

Code is straight, so a call of a well-formed function runs every call in its body, whatever the
arguments are, unless one of them fails. Whether evaluation gives a value is then decided by the
graph of calls: none of its chains may go too deep, and every declaration that it reaches must be
one of the host's functions. Cycles do not keep evaluation from ending; they only make its chains
too deep.
-/

namespace Reckon.Ir

open Relation (ReflTransGen TransGen)

/-- The names that the host answers to, each with its number of arguments. -/
def hostFunctions : List (String × Nat) :=
  [("sin", 1), ("cos", 1), ("tan", 1), ("sqrt", 1), ("exp", 1), ("log", 1), ("fabs", 1),
    ("floor", 1), ("ceil", 1), ("pow", 2)]

def Function.Hosted (f : Function) : Prop := (f.name, f.params.length) ∈ hostFunctions

instance (f : Function) : Decidable f.Hosted := inferInstanceAs (Decidable (_ ∈ hostFunctions))

/-- The error that a call ended in. -/
def failureOf : Except Error Double → Option Error
  | .ok _ => none
  | .error e => some e

@[simp] theorem failureOf_ok (value : Double) : failureOf (.ok value) = none := rfl

@[simp] theorem failureOf_error (e : Error) : failureOf (.error e) = some e := rfl

theorem failureOf_eq_none {result : Except Error Double} :
    failureOf result = none ↔ ∃ value, result = .ok value := by
  cases result with
  | ok value => exact iff_of_true rfl ⟨value, rfl⟩
  | error e => exact iff_of_false nofun nofun

/-- The host answers to a declaration, or it does not, whatever the arguments are. -/
theorem failureOf_callHost {f : Function} {args : List Double}
    (arity : args.length = f.params.length) :
    failureOf (callHost f.name args) =
      if f.Hosted then none else some (.unresolvedSymbol f.name) := by
  simp only [Function.Hosted, ← arity]
  generalize f.name = name
  unfold callHost
  split
  case h_11 =>
    have isMissing : (name, args.length) ∉ hostFunctions := by
      intro hosted
      simp only [hostFunctions, List.mem_cons, List.not_mem_nil, or_false, Prod.mk.injEq,
        List.length_eq_one_iff, List.length_eq_two] at hosted
      grind
    rw [if_neg isMissing, failureOf_error]
  all_goals rfl

namespace Module

variable {m : Module} {id : FunctionId} {f : Function}

def Calls (m : Module) (id callee : FunctionId) : Prop :=
  ∃ f, m.function? id = some f ∧ callee ∈ f.callees

theorem calls_iff {callee : FunctionId} (found : m.function? id = some f) :
    m.Calls id callee ↔ callee ∈ f.callees := by
  constructor
  · rintro ⟨g, foundAlso, mem⟩
    obtain rfl := Option.some.inj (found.symm.trans foundAlso)
    exact mem
  · exact fun mem => ⟨f, found, mem⟩

/-- No chain of calls from the function takes more frames than these, its own included. -/
def FitsIn (m : Module) (frames : Nat) (id : FunctionId) : Prop :=
  ∀ chain, (id :: chain).IsChain m.Calls → chain.length < frames

/-- The host has every declaration that calls lead to from the function. -/
def IsHosted (m : Module) (id : FunctionId) : Prop :=
  ∀ g ∈ m.functions, ReflTransGen m.Calls id g.id → g.body = none → g.Hosted

theorem not_fitsIn_zero : ¬ m.FitsIn 0 id :=
  fun fits => Nat.not_lt_zero _ (fits [] (.singleton id))

theorem fitsIn_succ {frames : Nat} :
    m.FitsIn (frames + 1) id ↔ ∀ callee, m.Calls id callee → m.FitsIn frames callee := by
  constructor
  · intro fits callee calls chain isChain
    exact Nat.lt_of_succ_lt_succ (fits (callee :: chain) (.cons_cons calls isChain))
  · intro fits chain isChain
    cases chain with
    | nil => exact Nat.succ_pos frames
    | cons callee chain =>
        obtain ⟨calls, isChain⟩ := List.isChain_cons_cons.mp isChain
        exact Nat.succ_lt_succ (fits callee calls chain isChain)

theorem FitsIn.behind {frames : Nat} {other : FunctionId} (fits : m.FitsIn frames id)
    (called : TransGen m.Calls id other) : ∃ fewer < frames, m.FitsIn fewer other := by
  induction called with
  | single calls =>
      cases frames with
      | zero => exact absurd fits not_fitsIn_zero
      | succ frames => exact ⟨frames, Nat.lt_succ_self _, fitsIn_succ.mp fits _ calls⟩
  | tail _ calls ih =>
      obtain ⟨frames', fewer, fits⟩ := ih
      cases frames' with
      | zero => exact absurd fits not_fitsIn_zero
      | succ frames' => exact ⟨frames', by omega, fitsIn_succ.mp fits _ calls⟩

/-- A function that calls itself, directly or through others, fits into no number of frames. -/
theorem FitsIn.no_cycle {frames : Nat} (fits : m.FitsIn frames id) :
    ¬ TransGen m.Calls id id := by
  intro cycle
  induction frames using Nat.strong_induction_on with
  | _ frames ih =>
      obtain ⟨frames', fewer, fits⟩ := fits.behind cycle
      exact ih frames' fewer fits

theorem FitsIn.acyclic {frames : Nat} {other : FunctionId} (fits : m.FitsIn frames id)
    (reached : ReflTransGen m.Calls id other) : ¬ TransGen m.Calls other other := by
  rcases Relation.reflTransGen_iff_eq_or_transGen.mp reached with rfl | called
  · exact fits.no_cycle
  · obtain ⟨_, -, fits⟩ := fits.behind called
    exact fits.no_cycle

theorem isHosted_iff (orderly : m.Orderly) (found : m.function? id = some f) :
    m.IsHosted id ↔
      (f.body = none → f.Hosted) ∧ ∀ callee, m.Calls id callee → m.IsHosted callee := by
  constructor
  · intro hosted
    refine ⟨fun isDeclared => ?_, fun callee calls g hg reached => ?_⟩
    · exact hosted f (mem_of_function? found) (id_of_function? found ▸ .refl) isDeclared
    · exact hosted g hg (.head calls reached)
  · rintro ⟨own, behind⟩ g hg reached isDeclared
    rcases reached.cases_head with same | ⟨callee, calls, reached⟩
    · obtain rfl := orderly.eq_of_function? found hg same.symm
      exact own isDeclared
    · exact behind callee calls g hg reached isDeclared

/-- The error in which a call with so many frames left ends. No argument plays a part in it. -/
def failure? (m : Module) : Nat → FunctionId → Option Error
  | 0, _ => some (.recursionLimit maxCallDepth)
  | frames + 1, id =>
    match m.function? id with
    | none => some (.danglingFunction id)
    | some f =>
      match f.body with
      | none => if f.Hosted then none else some (.unresolvedSymbol f.name)
      | some _ => f.callees.findSome? (m.failure? frames)

theorem failureOf_call (numbered : m.Numbered)
    (checked : ∀ f ∈ m.functions, f.body ≠ none → m.check f = .ok ()) (frames : Nat)
    {values : List Double} (found : m.function? id = some f)
    (arity : values.length = f.params.length) :
    failureOf (m.call frames id values) = m.failure? frames id := by
  induction frames generalizing id f values with
  | zero => rfl
  | succ frames ih =>
      have hf := mem_of_function? found
      cases hasBody : f.body with
      | none =>
          simp only [call, failure?, found, hasBody, failureOf_callHost arity]
      | some body =>
          have isChecked := checked f hf (by simp [hasBody])
          simp only [call, failure?, found, hasBody, Function.callees_of_body hasBody]
          -- What is left of the body fails where the first of its calls does.
          refine checked_body_induction (motive := fun room _ instrs =>
            failureOf (runInstrs (m.call frames) (.malformed f.name) values room instrs) =
              (instrs.filterMap Instr.callee?).findSome? (m.failure? frames))
            ?_ ?_ hasBody (numbered.numbered f hf) isChecked arity
          · intro room temps value reads
            cases reads with
            | value v _ _ freely =>
                simp only [runInstrs, freely, Instr.dest?, failureOf_ok]
                rfl
            | call _ _ _ calls => cases calls
          · intro room temps instr rest reads dest inRoom goesOn
            cases reads with
            | value v noCallee _ freely =>
                simp only [runInstrs, freely, dest, if_pos inRoom, goesOn,
                  List.filterMap_cons, noCallee]
            | call callee g operands calls foundCallee sameLength _ freely =>
                have calleeFails := ih foundCallee sameLength
                simp only [runInstrs, freely, List.filterMap_cons, calls, List.findSome?_cons,
                  ← calleeFails]
                cases m.call frames callee operands with
                | error e => simp only [failureOf_error]
                | ok v => simp only [dest, if_pos inRoom, goesOn, failureOf_ok]

theorem failure?_succ_eq_none {frames : Nat} (found : m.function? id = some f) :
    m.failure? (frames + 1) id = none ↔
      (f.body = none → f.Hosted) ∧
        ∀ callee, m.Calls id callee → m.failure? frames callee = none := by
  simp only [calls_iff found]
  cases hasBody : f.body with
  | none => simp [failure?, found, hasBody, Function.callees_of_declared hasBody]
  | some body => simp [failure?, found, hasBody, List.findSome?_eq_none_iff]

theorem failure?_succ_eq_some {frames : Nat} {e : Error} (found : m.function? id = some f)
    (fails : m.failure? (frames + 1) id = some e) :
    (f.body = none ∧ ¬ f.Hosted ∧ e = .unresolvedSymbol f.name) ∨
      ∃ callee, m.Calls id callee ∧ m.failure? frames callee = some e := by
  cases hasBody : f.body with
  | none =>
      simp only [failure?, found, hasBody] at fails
      split at fails
      · contradiction
      · next missing => exact .inl ⟨rfl, missing, (Option.some.inj fails).symm⟩
  | some body =>
      simp only [failure?, found, hasBody] at fails
      obtain ⟨callee, called, fails⟩ := List.exists_of_findSome?_eq_some fails
      exact .inr ⟨callee, (calls_iff found).mpr called, fails⟩

theorem function?_of_checkInstrs {paramCount : Nat} {kinds : Kinds} {instrs : List Instr}
    {callee : FunctionId} (checked : m.checkInstrs paramCount kinds instrs = .ok ())
    (called : callee ∈ instrs.filterMap Instr.callee?) : ∃ g, m.function? callee = some g := by
  refine checkInstrs_induction (motive := fun _ instrs =>
    callee ∈ instrs.filterMap Instr.callee? → ∃ g, m.function? callee = some g)
    ?_ ?_ ?_ checked called
  · exact fun _ => nofun
  · exact fun _ _ _ => nofun
  · intro kinds assigned instr rest dest _ here _ ih called
    cases instr with
    | call id args dest =>
        rcases List.mem_cons.mp called with rfl | called
        · obtain ⟨_, calleeOk, -⟩ := bind_eq_ok_iff.mp here
          obtain ⟨g, found, -⟩ := function?_of_checkCallee calleeOk
          exact ⟨g, found⟩
        · exact ih called
    | _ => exact ih called

/-- Every call finds its callee. -/
def Linked (m : Module) : Prop :=
  ∀ f ∈ m.functions, ∀ callee ∈ f.callees, ∃ g, m.function? callee = some g

theorem linked_of_checked (checked : ∀ f ∈ m.functions, f.body ≠ none → m.check f = .ok ()) :
    m.Linked := by
  intro f hf callee called
  have isDefined : f.body ≠ none := by
    intro isDeclared
    rw [Function.callees_of_declared isDeclared] at called
    contradiction
  obtain ⟨body, hasBody, -, checked⟩ := check_eq_ok_iff.mp (checked f hf isDefined)
  exact function?_of_checkInstrs checked (Function.callees_of_body hasBody ▸ called)

theorem Linked.found (linked : m.Linked) {callee : FunctionId} (calls : m.Calls id callee) :
    ∃ g, m.function? callee = some g := by
  obtain ⟨f, found, called⟩ := calls
  exact linked f (mem_of_function? found) callee called

/-- A call gives a value where it has the frames and the functions that it needs. -/
theorem failure?_eq_none {frames : Nat} (orderly : m.Orderly) (linked : m.Linked)
    (found : m.function? id = some f) :
    m.failure? frames id = none ↔ m.FitsIn frames id ∧ m.IsHosted id := by
  induction frames generalizing id f with
  | zero => exact iff_of_false nofun fun ⟨fits, _⟩ => not_fitsIn_zero fits
  | succ frames ih =>
      have behind : ∀ callee, m.Calls id callee →
          (m.failure? frames callee = none ↔ m.FitsIn frames callee ∧ m.IsHosted callee) := by
        intro callee calls
        obtain ⟨g, foundCallee⟩ := linked.found calls
        exact ih foundCallee
      rw [failure?_succ_eq_none found, fitsIn_succ, isHosted_iff orderly found]
      constructor
      · rintro ⟨own, succeeds⟩
        have both := fun callee calls => (behind callee calls).mp (succeeds callee calls)
        exact ⟨fun callee calls => (both callee calls).1, own,
          fun callee calls => (both callee calls).2⟩
      · rintro ⟨fits, own, hosted⟩
        exact ⟨own, fun callee calls =>
          (behind callee calls).mpr ⟨fits callee calls, hosted callee calls⟩⟩

/-- A call that fails went too deep, or met a declaration that the host does not have. -/
theorem cause_of_failure {frames : Nat} {e : Error} (linked : m.Linked)
    (found : m.function? id = some f) (fails : m.failure? frames id = some e) :
    (e = .recursionLimit maxCallDepth ∧ ¬ m.FitsIn frames id) ∨
      ∃ g ∈ m.functions, ReflTransGen m.Calls id g.id ∧ g.body = none ∧ ¬ g.Hosted ∧
        e = .unresolvedSymbol g.name := by
  induction frames generalizing id f with
  | zero => exact .inl ⟨(Option.some.inj fails).symm, not_fitsIn_zero⟩
  | succ frames ih =>
      rcases failure?_succ_eq_some found fails with
        ⟨isDeclared, missing, rfl⟩ | ⟨callee, calls, fails⟩
      · refine .inr ⟨f, mem_of_function? found, ?_, isDeclared, missing, rfl⟩
        rw [id_of_function? found]
      · obtain ⟨g, foundCallee⟩ := linked.found calls
        rcases ih foundCallee fails with ⟨rfl, tooDeep⟩ | ⟨g, hg, reached, missing⟩
        · exact .inl ⟨rfl, fun fits => tooDeep (fitsIn_succ.mp fits callee calls)⟩
        · exact .inr ⟨g, hg, .head calls reached, missing⟩

/-- Where operations led to a module in which every body is well-formed, evaluation of a function
    without parameters gives a value exactly if no chain of calls from it is longer than the
    greatest depth, so that none comes back to where it was, and the host has every declaration
    that they lead to. Otherwise a call goes too deep or a symbol is unresolved. And whatever the
    module is, evaluation ends. -/
theorem evaluation_decided_by_calls :
    (∀ m : Module, m.Reachable →
      (∀ f ∈ m.functions, f.body ≠ none → m.check f = .ok ()) →
      ∀ f ∈ m.functions, f.params = [] → ∃ result, m.evaluate f.id = some result ∧
        ((∃ value, result = .ok value) ↔
          (∀ chain, (f.id :: chain).IsChain m.Calls → chain.length ≤ maxCallDepth) ∧
            ∀ g ∈ m.functions, ReflTransGen m.Calls f.id g.id → g.body = none →
              (g.name, g.params.length) ∈ hostFunctions) ∧
        ((∃ value, result = .ok value) →
          ∀ id, ReflTransGen m.Calls f.id id → ¬ TransGen m.Calls id id) ∧
        ∀ e, result = .error e →
          (e = .recursionLimit maxCallDepth ∧
            ∃ chain, (f.id :: chain).IsChain m.Calls ∧ maxCallDepth < chain.length) ∨
          ∃ g ∈ m.functions, ReflTransGen m.Calls f.id g.id ∧ g.body = none ∧
            (g.name, g.params.length) ∉ hostFunctions ∧ e = .unresolvedSymbol g.name) ∧
    ∀ (m : Module) (id : FunctionId) (result : Option (Except Error Double)),
      m.Evaluates id result ↔ result = m.evaluate id := by
  refine ⟨fun m reachable checked f hf noParams => ?_, fun m id result => evaluates_iff⟩
  have numbered := reachable.numbered
  have found := numbered.function?_of_mem hf
  have linked := linked_of_checked checked
  have fails : failureOf (m.call (maxCallDepth + 1) f.id []) = m.failure? (maxCallDepth + 1) f.id :=
    failureOf_call numbered checked _ found (congrArg List.length noParams.symm)
  have fits : m.FitsIn (maxCallDepth + 1) f.id ↔
      ∀ chain, (f.id :: chain).IsChain m.Calls → chain.length ≤ maxCallDepth := by
    simp only [FitsIn, Nat.lt_succ_iff]
  have succeeds : m.failure? (maxCallDepth + 1) f.id = none ↔
      m.FitsIn (maxCallDepth + 1) f.id ∧ m.IsHosted f.id :=
    failure?_eq_none reachable.orderly linked found
  refine ⟨m.call (maxCallDepth + 1) f.id [], by simp [evaluate, found, noParams], ?_, ?_, ?_⟩
  · rw [← failureOf_eq_none, fails, succeeds, fits]
    rfl
  · rw [← failureOf_eq_none, fails, succeeds]
    rintro ⟨fits, -⟩ id reached
    exact fits.acyclic reached
  · intro e failed
    rw [failed] at fails
    rcases cause_of_failure linked found fails.symm with ⟨rfl, tooDeep⟩ | missing
    · simp only [fits, not_forall, not_le, exists_prop] at tooDeep
      exact .inl ⟨rfl, tooDeep⟩
    · exact .inr missing

/-- Builds a function that calls itself. -/
def loopingModule : Module :=
  List.foldl Operation.apply (.empty "m")
    [.addFunction "loop" [], .openBody ⟨0⟩, .call ⟨0⟩ [], .ret (.temp 0)]

/-- The function passes the check, and evaluation still ends. -/
theorem evaluation_decided_by_calls_looping :
    loopingModule.evaluate ⟨0⟩ = some (.error (.recursionLimit maxCallDepth)) ∧
      loopingModule.Evaluates ⟨0⟩ (some (.error (.recursionLimit maxCallDepth))) := by
  have reachable : loopingModule.Reachable := (Reachable.empty "m").applyAll _
  obtain ⟨f, hf, sameId, noParams, callees⟩ :
      ∃ f ∈ loopingModule.functions, f.id = ⟨0⟩ ∧ f.params = [] ∧ f.callees = [⟨0⟩] := by decide
  obtain ⟨byCalls, ends⟩ := evaluation_decided_by_calls
  obtain ⟨result, evaluates, -, acyclic, causes⟩ :=
    byCalls loopingModule reachable (by decide) f hf noParams
  have calls : loopingModule.Calls f.id f.id :=
    ⟨f, reachable.orderly.function?_of_mem hf, by simp [callees, sameId]⟩
  have noDeclaration : ∀ g ∈ loopingModule.functions, g.body ≠ none := by decide
  have tooDeep : result = .error (.recursionLimit maxCallDepth) := by
    cases result with
    | ok value => exact absurd (.single calls) (acyclic ⟨value, rfl⟩ f.id .refl)
    | error e =>
        rcases causes e rfl with ⟨rfl, -⟩ | ⟨g, hg, -, isDeclared, -⟩
        · rfl
        · exact absurd isDeclared (noDeclaration g hg)
  subst tooDeep
  rw [sameId] at evaluates
  exact ⟨evaluates, (ends _ _ _).mpr evaluates.symm⟩

end Module

end Reckon.Ir
