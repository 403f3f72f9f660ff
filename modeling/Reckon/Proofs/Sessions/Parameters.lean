import Reckon.Proofs.Compile.Scoping
import Reckon.Proofs.Sessions.Printed

/-! # Parameters of one name

The parameters of a function are known by their names: to its body, which looks them up in a scope,
and to who reads its text. A definition may give a name twice, and no stage refuses it. The name
then stands for the last parameter that has it, and the others can neither be meant by a body nor be
told from the last one. So every parameter of a definition has a name of its own just if the names
are distinct.
-/

namespace Reckon

open Ir

namespace Ir.Function

/-- What the body of the function knows of its parameters. -/
def scope (f : Function) : Scope :=
  Scope.ofParams f.params ((List.range f.params.length).map .param)

variable {f : Function}

theorem lookup_scope {name : String} {index : Nat} : f.scope.lookup name = some (.param index) ↔
    f.params[index]? = some name ∧ ∀ other, f.params[other]? = some name → other ≤ index := by
  constructor
  · intro known
    obtain ⟨_, same, isParam, last⟩ := Scope.param_of_lookup known
    cases same
    exact ⟨isParam, last⟩
  · rintro ⟨isParam, last⟩
    have known : (f.scope.lookup name).isSome = true :=
      (Scope.lookup_ofParams (by simp) name).mpr (List.mem_of_getElem? isParam)
    obtain ⟨value, found⟩ := Option.isSome_iff_exists.mp known
    obtain ⟨other, rfl, isParam', last'⟩ := Scope.param_of_lookup found
    rw [found, Nat.le_antisymm (last other isParam') (last' index isParam)]

theorem nodup_params_iff : f.params.Nodup ↔
    ∀ (i j : Nat) (name : String), f.params[i]? = some name → f.params[j]? = some name → i = j := by
  rw [List.nodup_iff_getElem?_ne_getElem?]
  constructor
  · intro distinct i j name here there
    have inside : ∀ {k}, f.params[k]? = some name → k < f.params.length :=
      fun isParam => (List.getElem?_eq_some_iff.mp isParam).1
    rcases Nat.lt_trichotomy i j with less | same | less
    · exact absurd (here.trans there.symm) (distinct i j less (inside there))
    · exact same
    · exact absurd (there.trans here.symm) (distinct j i less (inside here))
  · intro unique i j less inside same
    have there := List.getElem?_eq_getElem inside
    exact Nat.ne_of_lt less (unique i j _ (same.trans there) there)

/-- The scope knows each parameter under its own name just if the names are distinct. -/
theorem scope_binds_iff : (∀ index name, f.params[index]? = some name →
    f.scope.lookup name = some (.param index)) ↔ f.params.Nodup := by
  rw [nodup_params_iff]
  constructor
  · intro binds i j name here there
    cases (binds i name here).symm.trans (binds j name there)
    rfl
  · intro unique index name isParam
    refine lookup_scope.mpr ⟨isParam, fun other isParam' => ?_⟩
    exact Nat.le_of_eq (unique other index name isParam' isParam)

/-- Every parameter is what some name stands for just if the names are distinct. -/
theorem scope_reaches_iff : (∀ index < f.params.length, ∃ name,
    f.scope.lookup name = some (.param index)) ↔ f.params.Nodup := by
  rw [← scope_binds_iff]
  constructor
  · intro reached index name isParam
    obtain ⟨other, known⟩ := reached index (List.getElem?_eq_some_iff.mp isParam).1
    obtain rfl : other = name :=
      Option.some.inj ((lookup_scope.mp known).1.symm.trans isParam)
    exact known
  · intro binds index inside
    exact ⟨_, binds index _ (List.getElem?_eq_getElem inside)⟩

theorem operandText_eq_iff {name : String} {index : Nat} (inside : index < f.params.length) :
    f.operandText (.param index) = "%" ++ name ↔ f.params[index]? = some name := by
  have isParam := List.getElem?_eq_getElem inside
  rw [← String.toList_inj, toList_operandText_param isParam, isParam]
  simp [String.toList_inj]

/-- In the printed function every name denotes one parameter just if the names are distinct. -/
theorem text_denotes_iff : (∀ name ∈ f.params, ∃ index < f.params.length,
    f.operandText (.param index) = "%" ++ name ∧ ∀ other < f.params.length,
      f.operandText (.param other) = "%" ++ name → other = index) ↔ f.params.Nodup := by
  rw [nodup_params_iff]
  constructor
  · intro denotes i j name here there
    have insideHere := (List.getElem?_eq_some_iff.mp here).1
    have insideThere := (List.getElem?_eq_some_iff.mp there).1
    obtain ⟨index, -, -, only⟩ := denotes name (List.mem_of_getElem? here)
    rw [only i insideHere ((operandText_eq_iff insideHere).mpr here),
      only j insideThere ((operandText_eq_iff insideThere).mpr there)]
  · intro unique name mem
    obtain ⟨index, isParam⟩ := List.mem_iff_getElem?.mp mem
    have inside := (List.getElem?_eq_some_iff.mp isParam).1
    refine ⟨index, inside, (operandText_eq_iff inside).mpr isParam, fun other insideToo text => ?_⟩
    exact unique other index name ((operandText_eq_iff insideToo).mp text) isParam

end Ir.Function

/-- The body of a definition was compiled in the scope of the function that it made. -/
theorem Definition.Defines.scope_eq {d : Definition} {m m₁ m' : Module} {id : FunctionId}
    {code : List Instr} {value : Value} (defines : d.Defines m m₁ m' id code value)
    {f : Function} (named : f.params = d.prototype.params) :
    Scope.ofParams d.prototype.params (m₁.paramValues id) = f.scope := by
  rw [Module.paramValues, defines.arity, Function.scope, named]

namespace Session

/-- The parameters of a definition that a session accepts. The body is compiled in a scope where a
    name stands for the last parameter that has it, so its operands are all legible. That the scope
    knows each parameter under its own name, that each parameter is what some name stands for, and
    that each name in the printed function denotes one parameter, are all the same as that the
    names of the parameters are distinct. -/
theorem parameters_resolve_iff_distinct {s t : Session} (compiled : s.backend.Compiled)
    {table : Operators} {source : Source} (between : t ∈ (s.reading table source.feed).starts)
    {d : Definition} (reads : t.parser.form? = some (.definition d)) {id : FunctionId}
    {b : Backend} (accepted : (Form.definition d).compile t.backend = .ok id b) :
    ∃ f, b.target.function? id = some f ∧ f.params = d.prototype.params ∧ f.Legible ∧
      b.target.textOf id = b.target.functionText f ∧
      (∃ m₁ code value, t.backend.target.declared d.prototype.symbol f.params = (id, m₁) ∧
        d.body.lower m₁.callee? f.scope 0 = .ok (code, value) ∧
        f.body = some (code ++ [.ret value])) ∧
      ((∀ index name, f.params[index]? = some name →
        f.scope.lookup name = some (.param index)) ↔ f.params.Nodup) ∧
      ((∀ index < f.params.length, ∃ name, f.scope.lookup name = some (.param index)) ↔
        f.params.Nodup) ∧
      ((∀ name ∈ f.params, ∃ index < f.params.length,
        f.operandText (.param index) = "%" ++ name ∧ ∀ other < f.params.length,
          f.operandText (.param other) = "%" ++ name → other = index) ↔ f.params.Nodup) := by
  obtain ⟨standing, ahead⟩ := compiled_spelled_of_mem_starts compiled between
  have spelled : (Form.definition d).isSpelled = true := ahead.form? reads
  have orderly : t.backend.target.Orderly := standing.integral.toOrderly
  obtain ⟨-, m₁, code, value, defines⟩ := (d.compile_ensures orderly).of_ok accepted
  obtain ⟨g, found, -, -⟩ := defines.found orderly
  have defined := defines.function?_defined orderly found
  have legible : ∀ f ∈ b.target.functions, f.Legible :=
    (Form.compile_ensures_legible spelled orderly standing.functions_legible).of_ok accepted
  refine ⟨_, defined, rfl, legible _ (Module.mem_of_function? defined), ?_,
    ⟨m₁, code, value, defines.declared, ?_, rfl⟩, Function.scope_binds_iff,
    Function.scope_reaches_iff, Function.text_denotes_iff⟩
  · rw [Module.textOf, defined]
  · have named : (g.defined d.prototype.params code value).params = d.prototype.params := rfl
    rw [← defines.scope_eq named]
    exact defines.lowered

/-- What the parser and the backend are where the rounds start. -/
def places (s : Session) : List ((Token × Feed × Operators) × Backend) :=
  s.starts.map fun t => ((t.parser.current, t.parser.feed, t.parser.operators), t.backend)

theorem exists_start {s : Session} {p : Parser} {b : Backend}
    (mem : ((p.current, p.feed, p.operators), b) ∈ s.places) :
    ∃ sink options, (⟨p, b, sink, options⟩ : Session) ∈ s.starts := by
  obtain ⟨⟨⟨current, feed, operators⟩, backend, sink, options⟩, start, same⟩ := List.mem_map.mp mem
  simp only [Prod.mk.injEq] at same
  obtain ⟨⟨rfl, rfl, rfl⟩, rfl⟩ := same
  exact ⟨sink, options, start⟩

/-- A declaration gave the parameters other names before. -/
theorem parameters_resolve_iff_distinct_renamed :
    ∃ (s t : Session) (source : Source) (d : Definition) (b : Backend) (f : Function),
      source = .ofString "extern f(a b)\ndef f(x y) x - y\n" ∧
      t ∈ (s.reading .standard source.feed).starts ∧
      t.parser.form? = some (.definition d) ∧
      (Form.definition d).compile t.backend = .ok ⟨0⟩ b ∧
      t.backend.target.functions = [⟨⟨0⟩, "f", ["a", "b"], none, 0⟩] ∧
      b.target.function? ⟨0⟩ = some f ∧ f.params = ["x", "y"] ∧
      ∀ index name, f.params[index]? = some name →
        f.scope.lookup name = some (.param index) := by
  let s : Session := ⟨.ofFeed (.ofTokens []), .empty "m", {}, {}⟩
  let source : Source := .ofString "extern f(a b)\ndef f(x y) x - y\n"
  let d : Definition := ⟨⟨"f", ["x", "y"]⟩, .binary '-' (.var "x") (.var "y")⟩
  let behind : List Token := [.ident "f", .char '(', .ident "x", .ident "y", .char ')',
    .ident "x", .char '-', .ident "y"]
  let declared : Backend := { target := ⟨"m", [⟨⟨0⟩, "f", ["a", "b"], none, 0⟩], 1, none⟩ }
  have feed : source.feed = .ofTokens ([.declare, .ident "f", .char '(', .ident "a", .ident "b",
      .char ')', .define] ++ behind) := by decide +kernel
  obtain ⟨sink, options, between⟩ : ∃ sink options,
      (⟨⟨.define, .ofTokens behind, .standard⟩, declared, sink, options⟩ : Session) ∈
        (s.reading .standard source.feed).starts := by
    refine exists_start ?_
    rw [feed]
    decide +kernel
  have accepted : (Form.definition d).compile declared =
      .ok ⟨0⟩ (declared.take (.definition d)) := rfl
  obtain ⟨f, found, named, -, -, -, binds, -, -⟩ :=
    parameters_resolve_iff_distinct (.empty "m" true) between rfl accepted
  exact ⟨s, _, source, d, _, f, rfl, between, rfl, accepted, rfl, found, named,
    binds.mpr (named ▸ by decide)⟩

/-- Nothing refuses a definition that gives two parameters one name. No name stands for the first
    of them then, and both have the same text. -/
theorem parameters_of_one_name :
    ∃ (s t : Session) (source : Source) (d : Definition) (b : Backend) (f : Function),
      s.backend = .empty "m" ∧ source = .ofString "def f(x x) x\n" ∧
      t ∈ (s.reading .standard source.feed).starts ∧
      t.parser.form? = some (.definition d) ∧
      (Form.definition d).compile t.backend = .ok ⟨0⟩ b ∧
      b.target.function? ⟨0⟩ = some f ∧ f.params = ["x", "x"] ∧
      (∀ name, f.scope.lookup name ≠ some (.param 0)) ∧
      f.operandText (.param 0) = "%x" ∧ f.operandText (.param 1) = "%x" ∧
      b.target.textOf ⟨0⟩ =
        "define double @f(double %x, double %x) \x7b\nentry:\n  ret double %x\n\x7d\n" := by
  let s : Session := ⟨.ofFeed (.ofTokens []), .empty "m", {}, {}⟩
  let source : Source := .ofString "def f(x x) x\n"
  let d : Definition := ⟨⟨"f", ["x", "x"]⟩, .var "x"⟩
  let behind : List Token :=
    [.ident "f", .char '(', .ident "x", .ident "x", .char ')', .ident "x"]
  have feed : source.feed = .ofTokens (.define :: behind) := by decide +kernel
  obtain ⟨sink, options, between⟩ : ∃ sink options,
      (⟨⟨.define, .ofTokens behind, .standard⟩, .empty "m", sink, options⟩ : Session) ∈
        (s.reading .standard source.feed).starts := by
    refine exists_start ?_
    rw [feed]
    decide +kernel
  have accepted : (Form.definition d).compile (.empty "m") =
      .ok ⟨0⟩ ((Backend.empty "m").take (.definition d)) := rfl
  refine ⟨s, _, source, d, _, ⟨⟨0⟩, "f", ["x", "x"], some [.ret (.param 1)], 0⟩, rfl, rfl, between,
    rfl, accepted, rfl, rfl, fun name known => ?_, by decide +kernel, by decide +kernel,
    by decide +kernel⟩
  obtain ⟨isParam, last⟩ := Function.lookup_scope.mp known
  obtain rfl : "x" = name := Option.some.inj isParam
  exact absurd (last 1 rfl) (by decide)

end Session

end Reckon
