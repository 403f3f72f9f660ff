import Reckon.Proofs.Meaning.Definitions

/-! # Modules under other ids

Ids say in which order functions were added to a module, those included that are gone. Nothing else
depends on them: where the functions of a module stand in another one under other ids, they print
as the same text, are found by the same names and evaluate to the same values.
-/

namespace Reckon.Ir

variable {ρ ρ' : FunctionId → FunctionId}

def Instr.rename (ρ : FunctionId → FunctionId) : Instr → Instr
  | .call callee args dest => .call (ρ callee) args dest
  | instr => instr

def renameCode (ρ : FunctionId → FunctionId) (code : List Instr) : List Instr :=
  code.map (Instr.rename ρ)

/-- The function under another id, and so are its callees. -/
def Function.rename (ρ : FunctionId → FunctionId) (f : Function) : Function :=
  { f with id := ρ f.id, body := f.body.map (renameCode ρ) }

section Rename

@[simp] theorem renameCode_nil : renameCode ρ [] = [] := rfl

@[simp] theorem renameCode_cons (instr : Instr) (code : List Instr) :
    renameCode ρ (instr :: code) = instr.rename ρ :: renameCode ρ code := rfl

@[simp] theorem renameCode_append (code more : List Instr) :
    renameCode ρ (code ++ more) = renameCode ρ code ++ renameCode ρ more := List.map_append

@[simp] theorem length_renameCode (code : List Instr) :
    (renameCode ρ code).length = code.length := List.length_map _

theorem Instr.dest?_rename (instr : Instr) : (instr.rename ρ).dest? = instr.dest? := by
  cases instr <;> rfl

theorem renameCode_congr {code : List Instr}
    (same : ∀ id ∈ code.filterMap Instr.callee?, ρ' id = ρ id) :
    renameCode ρ' code = renameCode ρ code := by
  apply List.map_congr_left
  intro instr mem
  cases instr with
  | call callee args dest =>
      have called : callee ∈ code.filterMap Instr.callee? := List.mem_filterMap.mpr ⟨_, mem, rfl⟩
      simp only [Instr.rename, same callee called]
  | _ => rfl

/-- Only the ids of the function and of its callees matter. -/
theorem Function.rename_congr {f : Function} (own : ρ' f.id = ρ f.id)
    (called : ∀ id ∈ f.callees, ρ' id = ρ id) : f.rename ρ' = f.rename ρ := by
  cases hasBody : f.body with
  | none => simp only [rename, own, hasBody, Option.map_none]
  | some body =>
      simp only [callees, hasBody, Option.getD_some] at called
      simp only [rename, own, hasBody, Option.map_some, renameCode_congr called]

theorem renameCode_self (code : List Instr) : renameCode (fun id => id) code = code := by
  refine (List.map_congr_left fun instr _ => ?_).trans (List.map_id _)
  cases instr <;> rfl

theorem Function.rename_self (f : Function) : f.rename (fun id => id) = f := by
  have sameCode : renameCode (fun id => id) = fun code => code := funext renameCode_self
  simp only [rename, sameCode, Option.map_id_fun']
  rfl

theorem Function.rename_rename (f : Function) :
    (f.rename ρ).rename ρ' = f.rename fun id => ρ' (ρ id) := by
  have sameCode : renameCode ρ' ∘ renameCode ρ = renameCode fun id => ρ' (ρ id) := by
    funext code
    refine List.map_map.trans (List.map_congr_left fun instr _ => ?_)
    cases instr <;> rfl
  simp only [rename, Option.map_map, sameCode]

theorem Function.rename_defined (f : Function) (ρ : FunctionId → FunctionId)
    (params : List String) (code : List Instr) (value : Value) :
    (f.defined params code value).rename ρ =
      (f.rename ρ).defined params (renameCode ρ code) value := by
  simp [rename, defined, Instr.rename]

end Rename

namespace Module

/-- A function prints alike under another id where its callees have the names that they had. -/
theorem functionText_rename {m m' : Module} {f : Function}
    (named : ∀ id ∈ f.callees, m'.calleeName (ρ id) = m.calleeName id) :
    m'.functionText (f.rename ρ) = m.functionText f := by
  cases hasBody : f.body with
  | none =>
      simp only [functionText, Function.rename, hasBody, Option.map_none]
      rfl
  | some body =>
      have lines : ∀ instr ∈ body,
          m'.instrText (f.rename ρ) (instr.rename ρ) = m.instrText f instr := by
        intro instr mem
        cases instr with
        | call callee args dest =>
            have called : callee ∈ f.callees := by
              rw [Function.callees_of_body hasBody]
              exact List.mem_filterMap.mpr ⟨_, mem, rfl⟩
            simp only [Instr.rename, instrText, named callee called]
            rfl
        | _ => rfl
      have sameLines :
          (renameCode ρ body).map (fun instr => m'.instrText (f.rename ρ) instr ++ "\n") =
            body.map fun instr => m.instrText f instr ++ "\n" := by
        rw [renameCode, List.map_map]
        exact List.map_congr_left fun instr mem => congrArg (· ++ "\n") (lines instr mem)
      have renamedBody : (f.rename ρ).body = some (renameCode ρ body) := by
        simp only [Function.rename, hasBody, Option.map_some]
      simp only [functionText, renamedBody, hasBody, sameLines]
      rfl

/-- The functions of `m` stand in `m'` under other ids, in some order. -/
def Mirrors (ρ : FunctionId → FunctionId) (m m' : Module) : Prop :=
  (m.functions.map (·.rename ρ)).Perm m'.functions

namespace Mirrors

variable {m m' : Module} {id : FunctionId} {f : Function} {name : String}

theorem function?_eq (mirrors : m.Mirrors ρ m') (h' : m'.Orderly)
    (found : m.function? id = some f) : m'.function? (ρ id) = some (f.rename ρ) := by
  have renamed : f.rename ρ ∈ m'.functions :=
    mirrors.mem_iff.mp (List.mem_map_of_mem (mem_of_function? found))
  rw [← id_of_function? found]
  exact h'.function?_of_mem renamed

theorem lookup?_eq (mirrors : m.Mirrors ρ m') (h : m.Orderly) (h' : m'.Integral)
    (name : String) : m'.lookup? name = (m.lookup? name).map ρ := by
  cases lookup : m.lookup? name with
  | none =>
      have names : m.functionNames.Perm m'.functionNames := by
        have names := mirrors.map (·.name)
        rwa [List.map_map] at names
      rw [lookup?_eq_none] at lookup
      exact lookup?_eq_none.mpr fun mem => lookup (names.mem_iff.mpr mem)
  | some id =>
      obtain ⟨f, found, hf, rfl⟩ := h.function?_of_lookup? lookup
      have renamed := mem_of_function? (mirrors.function?_eq h'.toOrderly found)
      rw [Option.map_some, ← id_of_function? found]
      exact h'.lookup?_of_mem renamed

theorem paramCount_eq (mirrors : m.Mirrors ρ m') (h' : m'.Orderly)
    (found : m.function? id = some f) : m'.paramCount (ρ id) = m.paramCount id := by
  simp only [paramCount, mirrors.function?_eq h' found, found]
  rfl

theorem hasBody_eq (mirrors : m.Mirrors ρ m') (h' : m'.Orderly)
    (found : m.function? id = some f) : m'.hasBody (ρ id) = m.hasBody id := by
  simp only [hasBody, mirrors.function?_eq h' found, found, Option.any_some, Function.rename,
    Option.isSome_map]

theorem callee?_eq (mirrors : m.Mirrors ρ m') (h : m.Orderly) (h' : m'.Integral)
    (name : String) : m'.callee? name = (m.callee? name).map fun (id, count) => (ρ id, count) := by
  simp only [callee?, mirrors.lookup?_eq h h' name]
  cases lookup : m.lookup? name with
  | none => rfl
  | some id =>
      obtain ⟨f, found, -, -⟩ := h.function?_of_lookup? lookup
      simp only [Option.map_some, mirrors.paramCount_eq h'.toOrderly found]

theorem functionText_eq (mirrors : m.Mirrors ρ m') (h : m.Integral) (h' : m'.Orderly)
    (hf : f ∈ m.functions) : m'.functionText (f.rename ρ) = m.functionText f := by
  refine functionText_rename fun callee called => ?_
  obtain ⟨g, found, -⟩ := h.callees f hf callee called
  simp only [calleeName, mirrors.function?_eq h' found, found]
  rfl

theorem textOf_eq (mirrors : m.Mirrors ρ m') (h : m.Integral) (h' : m'.Orderly)
    (found : m.function? id = some f) : m'.textOf (ρ id) = m.textOf id := by
  simp only [textOf, mirrors.function?_eq h' found, found]
  exact mirrors.functionText_eq h h' (mem_of_function? found)

end Mirrors

end Module

section Values

variable {call call' : FunctionId → List Double → Except Error Double} {malformed : Error}
  {args : List Double}

theorem runInstrs_rename {code : List Instr}
    (same : ∀ id ∈ code.filterMap Instr.callee?, call' (ρ id) = call id) (temps : Array Double) :
    runInstrs call' malformed args temps (renameCode ρ code) =
      runInstrs call malformed args temps code := by
  induction code generalizing temps with
  | nil => rfl
  | cons instr rest ih =>
      have result : (instr.rename ρ).result call' malformed args temps =
          instr.result call malformed args temps := by
        cases instr with
        | call callee operands dest =>
            simp only [Instr.rename, Instr.result, same callee (by simp [Instr.callee?])]
        | _ => rfl
      have sameRest : ∀ id ∈ rest.filterMap Instr.callee?, call' (ρ id) = call id :=
        fun id called => same id (((List.sublist_cons_self instr rest).filterMap _).subset called)
      simp only [renameCode_cons, runInstrs, result, Instr.dest?_rename]
      cases instr.result call malformed args temps with
      | error e => rfl
      | ok value =>
          cases instr.dest? with
          | none => rfl
          | some dest => simp only [ih sameRest]

/-- Calls give alike where functions stand under other ids, and ids that are gone are the same. -/
theorem Module.call_rename {m m' : Module}
    (stands : ∀ id f, m.function? id = some f → m'.function? (ρ id) = some (f.rename ρ))
    (gone : ∀ f ∈ m.functions, ∀ id ∈ f.callees, m.function? id = none →
      m'.function? id = none ∧ ρ id = id) (frames : Nat) {id : FunctionId} {f : Function}
    (found : m.function? id = some f) : m'.call frames (ρ id) = m.call frames id := by
  funext args
  induction frames generalizing id f args with
  | zero => rfl
  | succ frames ih =>
      have hf := mem_of_function? found
      cases hasBody : f.body with
      | none =>
          have noBody : (f.rename ρ).body = none := by
            simp only [Function.rename, hasBody, Option.map_none]
          simp only [call, stands id f found, found, noBody, hasBody]
          rfl
      | some body =>
          have renamedBody : (f.rename ρ).body = some (renameCode ρ body) := by
            simp only [Function.rename, hasBody, Option.map_some]
          simp only [call, stands id f found, found, renamedBody, hasBody]
          refine runInstrs_rename (fun callee called => ?_) _
          have isCallee : callee ∈ f.callees := Function.callees_of_body hasBody ▸ called
          funext values
          cases foundCallee : m.function? callee with
          | some g => exact ih foundCallee values
          | none =>
              obtain ⟨goneToo, same⟩ := gone f hf callee isCallee foundCallee
              cases frames with
              | zero => rfl
              | succ frames => simp only [call, same, goneToo, foundCallee]

namespace Module.Mirrors

variable {m m' : Module}

theorem call_eq (mirrors : m.Mirrors ρ m') (h : m.Integral) (h' : m'.Orderly) (frames : Nat)
    {id : FunctionId} {f : Function} (found : m.function? id = some f) :
    m'.call frames (ρ id) = m.call frames id := by
  refine call_rename (fun id f => mirrors.function?_eq h') (fun f hf id called gone => ?_)
    frames found
  obtain ⟨g, found, -⟩ := h.callees f hf id called
  cases gone.symm.trans found

theorem evaluate_eq (mirrors : m.Mirrors ρ m') (h : m.Integral) (h' : m'.Orderly)
    {id : FunctionId} {f : Function} (found : m.function? id = some f) :
    m'.evaluate (ρ id) = m.evaluate id := by
  simp only [evaluate, mirrors.function?_eq h' found, found, Option.map_some,
    mirrors.call_eq h h' _ found]
  rfl

end Module.Mirrors

end Values

end Reckon.Ir
