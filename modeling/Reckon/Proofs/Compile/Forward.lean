import Reckon.Proofs.Compile.Definitions
import Reckon.Proofs.Compile.Operations

/-! # Declarations ahead of definitions

Declaring a name ahead of its definition, with as many parameters, makes no difference once it is
defined: id, body and parameters are those that the definition has without the declaration, under
the same plan of faults. If the definition fails, all that the declaration makes of it is that the
declaration is still there. For while a body is built, what its parameters were declared as is
never looked at.
-/

namespace Reckon

open Ir

namespace Ir

def Function.renamed (f : Function) (id : FunctionId) (names : List String) : Function :=
  if f.id = id then
    if f.params.length = names.length then { f with params := names } else f
  else f

section Renamed

variable {m : Module} {id other : FunctionId} {names : List String}

theorem Function.renamed_eq (f : Function) (id : FunctionId) (names : List String) :
    ∃ params : List String, params.length = f.params.length ∧
      f.renamed id names = { f with params } := by
  unfold renamed
  split
  · split
    · next same => exact ⟨names, same.symm, rfl⟩
    · exact ⟨f.params, rfl, rfl⟩
  · exact ⟨f.params, rfl, rfl⟩

@[simp] theorem Function.id_renamed (f : Function) : (f.renamed id names).id = f.id := by
  obtain ⟨params, -, same⟩ := f.renamed_eq id names
  rw [same]

@[simp] theorem Function.body_renamed (f : Function) : (f.renamed id names).body = f.body := by
  obtain ⟨params, -, same⟩ := f.renamed_eq id names
  rw [same]

@[simp] theorem Function.nextTemp_renamed (f : Function) :
    (f.renamed id names).nextTemp = f.nextTemp := by
  obtain ⟨params, -, same⟩ := f.renamed_eq id names
  rw [same]

@[simp] theorem Function.length_params_renamed (f : Function) :
    (f.renamed id names).params.length = f.params.length := by
  obtain ⟨params, sameLength, same⟩ := f.renamed_eq id names
  rw [same]
  exact sameLength

theorem Function.begun_renamed (f : Function) (body : List Instr) (next : Nat) :
    (f.renamed id names).begun body next = (f.begun body next).renamed id names := by
  by_cases same : f.id = id
  · by_cases sameLength : f.params.length = names.length
    · simp [renamed, begun, same, sameLength]
    · simp [renamed, begun, same, sameLength]
  · simp [renamed, begun, same]

namespace Module

theorem setParamNames_eq (m : Module) (id : FunctionId) (names : List String) :
    m.setParamNames id names =
      { m with functions := m.functions.map (·.renamed id names) } := rfl

theorem function?_setParamNames :
    (m.setParamNames id names).function? other = (m.function? other).map (·.renamed id names) := by
  have sameId : (fun f : Function => decide ((f.renamed id names).id = other)) =
      fun f => decide (f.id = other) := by
    funext f
    rw [f.id_renamed]
  simp only [setParamNames_eq, function?, List.find?_map, Function.comp_def, sameId]

theorem lookup?_setParamNames (name : String) :
    (m.setParamNames id names).lookup? name = m.lookup? name :=
  lookup?_update _ (fun f => by split <;> rfl) fun f => by split <;> rfl

theorem paramCount_setParamNames :
    (m.setParamNames id names).paramCount other = m.paramCount other := by
  simp only [paramCount, function?_setParamNames]
  cases m.function? other with
  | none => rfl
  | some f => exact f.length_params_renamed

theorem paramValues_setParamNames :
    (m.setParamNames id names).paramValues other = m.paramValues other := by
  simp only [paramValues, paramCount_setParamNames]

theorem verify_setParamNames : (m.setParamNames id names).verify other = m.verify other := by
  have answers : ∀ callee, m.Answers (m.setParamNames id names) callee := by
    intro callee f found
    exact ⟨_, function?_setParamNames.trans (congrArg _ found), f.length_params_renamed⟩
  have answersBack : ∀ callee, (m.setParamNames id names).Answers m callee := by
    intro callee f found
    rw [function?_setParamNames] at found
    obtain ⟨g, foundBefore, rfl⟩ := Option.map_eq_some_iff.mp found
    exact ⟨g, foundBefore, g.length_params_renamed.symm⟩
  rw [Bool.eq_iff_iff, verify_eq_true, verify_eq_true, function?_setParamNames]
  constructor
  · rintro ⟨f, found, checked⟩
    obtain ⟨g, foundBefore, rfl⟩ := Option.map_eq_some_iff.mp found
    exact ⟨g, foundBefore, check_of_answers (fun callee _ => answersBack callee)
      g.body_renamed.symm g.length_params_renamed.symm checked⟩
  · rintro ⟨f, found, checked⟩
    rw [found]
    exact ⟨_, rfl, check_of_answers (fun callee _ => answers callee)
      f.body_renamed f.length_params_renamed checked⟩

/-- A body may be given to a function before the parameters are renamed, or after. -/
theorem update_setParamNames (body : Function → List Instr) (next : Function → Nat)
    (sameBody : ∀ f : Function, body (f.renamed id names) = body f)
    (sameNext : ∀ f : Function, next (f.renamed id names) = next f) :
    (m.setParamNames id names).update other (fun f => f.begun (body f) (next f)) =
      (m.update other fun f => f.begun (body f) (next f)).setParamNames id names :=
  update_map (fun f => f.begun (body f) (next f)) (·.renamed id names) (fun f => f.id_renamed)
    fun f => by simp only [sameBody, sameNext, f.begun_renamed]

end Module

namespace Build

/-- The step does not look at the names of a function's parameters. -/
abbrev Blind (id : FunctionId) (names : List String) (step : Build α) : Prop :=
  Commutes (·.setParamNames id names) step

theorem blind_openBody (id other : FunctionId) (names : List String) :
    Blind id names (openBody other) := by
  intro m
  simp only [Ensures, openBody, Module.function?_setParamNames]
  cases m.function? other with
  | none => rfl
  | some f =>
      have opened : (m.setParamNames id names).update other (·.begun [] 0) =
          (m.update other (·.begun [] 0)).setParamNames id names :=
        Module.update_setParamNames (fun _ => []) (fun _ => 0) (fun _ => rfl) fun _ => rfl
      exact congrArg (fun m : Module => EStateM.Result.ok () { m with insertion := some other })
        opened

theorem target_setParamNames (m : Module) (id : FunctionId) (names : List String) :
    target (m.setParamNames id names) =
    match target m with
    | .ok (f, body) m => .ok (f.renamed id names, body) (m.setParamNames id names)
    | .error e m => .error e (m.setParamNames id names) := by
  have opened : (m.setParamNames id names).insertion.bind (m.setParamNames id names).function? =
      (m.insertion.bind m.function?).map (·.renamed id names) := by
    have sameInsertion : (m.setParamNames id names).insertion = m.insertion := rfl
    rw [sameInsertion]
    cases m.insertion with
    | none => rfl
    | some opened => exact Module.function?_setParamNames
  simp only [target, opened]
  cases m.insertion.bind m.function? with
  | none => rfl
  | some f =>
      simp only [Option.map_some, Function.body_renamed]
      cases f.body <;> rfl

/-- Of the open function the id, the body and the next temporary are looked at. -/
theorem blind_target {rest : Function × List Instr → Build β}
    (same : ∀ f body, rest (f.renamed id names, body) = rest (f, body))
    (blind : ∀ found, Blind id names (rest found)) : Blind id names (target >>= rest) := by
  intro m
  have renamed := target_setParamNames m id names
  cases run : target m with
  | error e m' =>
      rw [run] at renamed
      simpa only [Ensures, bind_of_error run] using bind_of_error renamed
  | ok found m' =>
      rw [run] at renamed
      have goesOn := blind found m'
      rw [← same] at goesOn
      simpa only [Ensures, bind_of_ok run, bind_of_ok renamed, same] using goesOn

theorem blind_emit (make : Nat → Instr) : Blind id names (emit make) := by
  refine blind_target (fun f body => ?_) fun found m => ?_
  · simp only [Function.id_renamed, Function.nextTemp_renamed]
  · refine congrArg (EStateM.Result.ok _) (Module.update_setParamNames
      (fun f => found.2 ++ [make f.nextTemp]) (·.nextTemp + 1) (fun f => ?_) fun f => ?_)
    · simp only [Function.nextTemp_renamed]
    · simp only [Function.nextTemp_renamed]

theorem blind_lessThan (left right : Value) : Blind id names (lessThan left right) :=
  (blind_emit _).bind fun _ => blind_emit _

theorem blind_ret (value : Value) : Blind id names (ret value) := by
  refine blind_target (fun f body => ?_) fun found m => ?_
  · simp only [Function.id_renamed]
  · exact congrArg (EStateM.Result.ok _) (Module.update_setParamNames
      (fun _ => found.2 ++ [.ret value]) (·.nextTemp) (fun _ => rfl) fun f => f.nextTemp_renamed)

end Build

end Renamed

end Ir

def Backend.renamed (id : FunctionId) (names : List String) (b : Backend) : Backend :=
  b.onTarget (·.setParamNames id names)

namespace Compile

variable {id other : FunctionId} {names : List String}

theorem blind_query {ask : Module → α}
    (blind : ∀ m : Module, ask (m.setParamNames id names) = ask m) :
    Commutes (Backend.renamed id names) (query ask) := by
  intro b
  simp only [Ensures, query, Backend.renamed, Backend.onTarget, blind]

theorem blind_lift {operation : Build α} (blind : operation.Blind id names) :
    Commutes (Backend.renamed id names) (lift (Backend.lift operation)) := by
  intro b
  have renamed := blind b.target
  simp only [Ensures, lift, Backend.lift, Backend.renamed, Backend.onTarget]
  cases run : operation b.target with
  | ok a m => simp only [renamed.of_ok run]
  | error e m => simp only [renamed.of_error run]

theorem blind_openBody : Commutes (Backend.renamed id names) (lift (Backend.openBody other)) := by
  intro b
  have plan : (b.renamed id names).faults.entry = b.faults.entry := rfl
  by_cases planned : b.faults.entry = true
  · simp only [Ensures, lift, Backend.openBody, plan, if_pos planned]
  · have opened := blind_lift (Build.blind_openBody id other names) b
    simpa only [Ensures, lift, Backend.openBody, plan, if_neg planned] using opened

theorem blind_build {operation : Build α} (blind : operation.Blind id names) :
    Commutes (Backend.renamed id names) (lift (Backend.build operation)) := by
  intro b
  have plan : (b.renamed id names).faults.build = b.faults.build := rfl
  have count : (b.renamed id names).builds = b.builds := rfl
  by_cases planned : b.faults.build = some (b.builds + 1)
  · simp only [Ensures, lift, Backend.build, plan, count, if_pos planned]
    rfl
  · have built := blind_lift blind { b with builds := b.builds + 1 }
    simp only [Ensures, lift, Backend.build, plan, count, if_neg planned]
    exact built

/-- Building a body looks at the names of no parameters but those that it is given. -/
theorem generating_blind : Generating fun _ => Commutes (Backend.renamed id names) where
  pure := .pure
  throw := .throw
  bind := .bind
  lookup name := blind_query fun _ => Module.lookup?_setParamNames name
  paramCount _ := blind_query fun _ => Module.paramCount_setParamNames
  paramValues _ := blind_query fun _ => Module.paramValues_setParamNames
  openBody _ := blind_openBody
  arith _ _ _ := blind_build (Build.blind_emit _)
  lessThan left right := blind_build (Build.blind_lessThan left right)
  call _ _ := blind_build (Build.blind_emit _)
  ret value := blind_build (Build.blind_ret value)
  verify other good bad goodToo badToo := by
    have sameVerdict : ∀ b : Backend, (b.renamed id names).verify other = b.verify other :=
      fun b => congrArg (!b.faults.verify && ·) Module.verify_setParamNames
    refine Commutes.get (fun b => by simp only [sameVerdict]) fun b => ?_
    split
    · exact goodToo
    · exact badToo

end Compile

namespace Ir.Module

/-- Behind the old functions stands one more. -/
structure EndsWith (m : Module) (old : List Function) (f : Function) : Prop where
  functions : m.functions = old ++ [f]
  others : ∀ g ∈ old, g.id ≠ f.id

namespace EndsWith

variable {m : Module} {old : List Function} {f : Function}

theorem added (h : m.Orderly) (name : String) (params : List String) :
    (m.addFunction name params).2.EndsWith m.functions ⟨⟨m.nextId⟩, name, params, none, 0⟩ :=
  ⟨rfl, fun _ hg => h.fresh hg⟩

theorem update_eq (last : m.EndsWith old f) (change : Function → Function) :
    m.update f.id change = { m with functions := old ++ [change f] } := by
  have unchanged : (old.map fun g => if g.id = f.id then change g else g) = old :=
    (List.map_congr_left fun g hg => if_neg (last.others g hg)).trans (List.map_id old)
  simp only [update, last.functions, List.map_append, unchanged, List.map_cons, if_true,
    List.map_nil]

theorem begun {m' : Module} (last : m.EndsWith old f) (begun : m.Begun f.id m') :
    ∃ body next, m'.EndsWith old { f with body, nextTemp := next } := by
  rcases begun with rfl | ⟨body, next, rfl⟩
  · exact ⟨f.body, f.nextTemp, last⟩
  · exact ⟨some body, next, congrArg Module.functions (last.update_eq (·.begun body next)),
      last.others⟩

theorem setParamNames_eq (last : m.EndsWith old f) {names : List String}
    (sameLength : f.params.length = names.length) :
    m.setParamNames f.id names = { m with functions := old ++ [{ f with params := names }] } := by
  have renamed := last.update_eq fun f =>
    if f.params.length = names.length then { f with params := names } else f
  rwa [if_pos sameLength] at renamed

theorem setParamNames (last : m.EndsWith old f) {names : List String}
    (sameLength : f.params.length = names.length) :
    (m.setParamNames f.id names).EndsWith old { f with params := names } :=
  ⟨congrArg Module.functions (last.setParamNames_eq sameLength), last.others⟩

theorem setParamNames_back (last : m.EndsWith old f) {names : List String}
    (sameLength : f.params.length = names.length) :
    (m.setParamNames f.id names).setParamNames f.id f.params = m := by
  have back := (last.setParamNames sameLength).setParamNames_eq sameLength.symm
  rw [last.setParamNames_eq sameLength] at back ⊢
  rw [back, ← last.functions]

theorem functions_deleteFunction (last : m.EndsWith old f) :
    (m.deleteFunction f.id).functions = old := by
  have kept : old.filter (·.id ≠ f.id) = old :=
    List.filter_eq_self.mpr fun g hg => by simpa using last.others g hg
  simp only [Module.functions_deleteFunction, last.functions, List.filter_append, kept]
  simp

/-- Renamed and cleared, the last function stays as a declaration; all else is as if it had been
    deleted. -/
theorem clearBody_eq (last : m.EndsWith old f) {names : List String}
    (sameLength : f.params.length = names.length) :
    (m.setParamNames f.id names).clearBody f.id = { m.deleteFunction f.id with
      functions := (m.deleteFunction f.id).functions ++
        [{ f with params := names, body := none, nextTemp := 0 }] } := by
  let cleared : Function → Function := fun f => { f with body := none, nextTemp := 0 }
  have blank : (m.setParamNames f.id names).update f.id cleared =
      { m with functions := old ++ [cleared { f with params := names }] } := by
    have updated := (last.setParamNames sameLength).update_eq cleared
    rwa [last.setParamNames_eq sameLength] at updated ⊢
  rw [last.functions_deleteFunction, clearBody, blank, deleteFunction, leave, leave]
  by_cases isOpen : m.insertion = some f.id
  · simp only [if_pos isOpen, cleared]
  · simp only [if_neg isOpen, cleared]

end EndsWith

end Ir.Module

theorem Compile.undoing_of_ok {undo : Module → Module} {step : Compile α} {b b' : Backend} {a : α}
    (run : step b = .ok a b') : undoing undo step b = .ok a b' := by
  simp only [undoing, run]

theorem Compile.undoing_of_error {undo : Module → Module} {step : Compile α} {b b' : Backend}
    {e : CompileError} (run : step b = .error e b') :
    undoing undo step b = .error e (b'.onTarget undo) := by
  simp only [undoing, run]

theorem Ir.Module.lookup?_addFunction_self {m : Module} {name : String} (params : List String)
    (absent : m.lookup? name = none) :
    (m.addFunction name params).2.lookup? name = some ⟨m.nextId⟩ := by
  rw [lookup?, Option.map_eq_none_iff] at absent
  simp [lookup?, addFunction, List.find?_append, absent]

namespace Definition

variable {b : Backend}

theorem compile_of_absent (d : Definition) (absent : b.target.lookup? d.prototype.symbol = none) :
    d.compile b = (do
      Compile.undoing (·.deleteFunction ⟨b.target.nextId⟩) (d.compileBody ⟨b.target.nextId⟩)
      return ⟨b.target.nextId⟩ : Compile FunctionId) { b with
        target := (b.target.addFunction d.prototype.symbol d.prototype.params).2 } := by
  simp only [compile, Compile.query, bind, EStateM.bind, absent]
  rfl

theorem compile_of_declared (d : Definition) {id : FunctionId}
    (present : b.target.lookup? d.prototype.symbol = some id)
    (declaration : b.target.hasBody id = false)
    (arity : b.target.paramCount id = d.prototype.params.length) :
    d.compile b = (do
      Compile.undoing (·.clearBody id) (d.compileBody id)
      Compile.onTarget (·.setParamNames id d.prototype.params)
      return id : Compile FunctionId) b := by
  simp only [compile, Compile.query, bind, EStateM.bind, present, declaration, arity, if_true,
    Bool.false_eq_true, if_false]

def added (d : Definition) (b : Backend) : Backend :=
  { b with target := (b.target.addFunction d.prototype.symbol d.prototype.params).2 }

section Ahead

variable (d : Definition) {names : List String} (h : b.target.Orderly)
  (absent : b.target.lookup? d.prototype.symbol = none)
  (sameLength : d.prototype.params.length = names.length)
include h sameLength

/-- A declaration of the name is the function that the definition adds, under other parameters. -/
theorem renamed_added : (d.added b).renamed ⟨b.target.nextId⟩ names =
    { b with target := (b.target.addFunction d.prototype.symbol names).2 } := by
  have renamed := (Module.EndsWith.added h d.prototype.symbol d.prototype.params).setParamNames_eq
    sameLength
  simp only [Backend.renamed, Backend.onTarget, added, renamed]
  rfl

include absent

theorem declare_ahead : Prototype.declare ⟨d.prototype.name, names⟩ b =
    .ok ⟨b.target.nextId⟩ ((d.added b).renamed ⟨b.target.nextId⟩ names) := by
  have declared : b.target.declared (Prototype.symbol ⟨d.prototype.name, names⟩) names =
      b.target.addFunction d.prototype.symbol names := Module.declared_of_none absent
  rw [Prototype.declare_eq, d.renamed_added h sameLength, declared]
  rfl

theorem compile_ahead : d.compile ((d.added b).renamed ⟨b.target.nextId⟩ names) = (do
    Compile.undoing (·.clearBody ⟨b.target.nextId⟩) (d.compileBody ⟨b.target.nextId⟩)
    Compile.onTarget (·.setParamNames ⟨b.target.nextId⟩ d.prototype.params)
    return ⟨b.target.nextId⟩ : Compile FunctionId)
      ((d.added b).renamed ⟨b.target.nextId⟩ names) := by
  have found := h.function?_new d.prototype.symbol names
  rw [d.renamed_added h sameLength]
  apply d.compile_of_declared
  · exact Module.lookup?_addFunction_self _ absent
  · simp only [Module.hasBody, found]
    rfl
  · simp only [Module.paramCount, found, sameLength]

end Ahead

end Definition

/-- A declaration ahead of a definition that takes as many parameters is invisible once the name is
    defined. Where the definition fails, it fails alike without the declaration, and what differs
    is that the declaration is still there. -/
theorem declaration_ahead_invisible {b : Backend} (reachable : b.Reachable) (name : String)
    (xs ys : List String) (body : Expr)
    (absent : (Prototype.mk name ys).symbol ∉ b.target.functionNames)
    (sameLength : xs.length = ys.length) :
    let definition := Form.definition ⟨⟨name, ys⟩, body⟩
    let declaredAhead : Compile FunctionId := do
      let _ ← (Form.declaration ⟨name, xs⟩).compile
      definition.compile
    (∃ id b', definition.compile b = .ok id b' ∧ declaredAhead b = .ok id b') ∨
    ∃ e b', definition.compile b = .error e b' ∧
      declaredAhead b = .error e (b'.onTarget fun m => { m with
        functions := m.functions ++
          [⟨⟨b.target.nextId⟩, (Prototype.mk name ys).symbol, xs, none, 0⟩] }) := by
  intro definition declaredAhead
  let d : Definition := ⟨⟨name, ys⟩, body⟩
  let id : FunctionId := ⟨b.target.nextId⟩
  have h := reachable.orderly
  have notFound : b.target.lookup? d.prototype.symbol = none := Module.lookup?_eq_none.mpr absent
  have last : (d.added b).target.EndsWith b.target.functions ⟨id, _, ys, none, 0⟩ :=
    .added h d.prototype.symbol ys
  have found : (d.added b).target.function? id = some ⟨id, _, ys, none, 0⟩ :=
    h.function?_new d.prototype.symbol ys
  have orderly : (d.added b).target.Orderly := h.addFunction d.prototype.symbol ys
  have alone := d.compile_of_absent notFound
  have declared := d.declare_ahead h notFound sameLength.symm
  have ahead : declaredAhead b = _ :=
    (bind_of_ok declared).trans (d.compile_ahead h notFound sameLength.symm)
  have blind : Commutes (Backend.renamed id xs) (d.compileBody id) :=
    d.compileBody_generates Compile.generating_blind id
  have outcome := d.compileBody_ensures orderly found
  cases run : d.compileBody id (d.added b) with
  | ok done b' =>
      obtain ⟨code, value, -, target, -⟩ := outcome.of_ok run
      obtain ⟨body, next, last⟩ := last.begun (.inr ⟨_, _, target⟩)
      have restored : (b'.renamed id xs).onTarget (·.setParamNames id ys) = b' :=
        congrArg (fun target => { b' with target }) (last.setParamNames_back sameLength.symm)
      refine .inl ⟨id, b', alone.trans (bind_of_ok (Compile.undoing_of_ok run)), ?_⟩
      refine ahead.trans ((bind_of_ok (Compile.undoing_of_ok ((blind _).of_ok run))).trans ?_)
      exact congrArg (EStateM.Result.ok id) restored
  | error e b' =>
      obtain ⟨begun, -, -⟩ := outcome.of_error run
      obtain ⟨body, next, last⟩ := last.begun begun
      refine .inr ⟨e, _, alone.trans (bind_of_error (Compile.undoing_of_error run)), ?_⟩
      refine ahead.trans
        ((bind_of_error (Compile.undoing_of_error ((blind _).of_error run))).trans ?_)
      exact congrArg (fun target => EStateM.Result.error e { b' with target })
        (last.clearBody_eq sameLength.symm)

/-- If the second build call fails, `def f(y) f(y) + 1` fails and `f(x)` stays declared. -/
theorem declaration_ahead_invisible_fault :
    let b := (Backend.empty "m").setFaults { build := some 2 }
    let body : Expr := .binary '+' (.call "f" [.var "y"]) (.number .one)
    let definition := Form.definition ⟨⟨"f", ["y"]⟩, body⟩
    let declaredAhead : Compile FunctionId := do
      let _ ← (Form.declaration ⟨"f", ["x"]⟩).compile
      definition.compile
    ∃ b', definition.compile b = .error (.backend (.faultAtBuild 2)) b' ∧
      declaredAhead b = .error (.backend (.faultAtBuild 2)) (b'.onTarget fun m => { m with
        functions := m.functions ++ [⟨⟨0⟩, "f", ["x"], none, 0⟩] }) := by
  intro b body definition declaredAhead
  have fails : ∃ b', definition.compile b = .error (.backend (.faultAtBuild 2)) b' := ⟨_, rfl⟩
  obtain ⟨b', failed⟩ := fails
  rcases declaration_ahead_invisible (.setFaults { build := some 2 } (.empty "m" true)) "f" ["x"]
    ["y"] body (by decide) rfl with ⟨id, b₁, succeeds, -⟩ | ⟨e, b₁, fails, ahead⟩
  · cases failed.symm.trans succeeds
  · cases failed.symm.trans fails
    exact ⟨b', failed, ahead⟩

end Reckon
