import Reckon.Proofs.Compile.Copies
import Reckon.Proofs.Ir.Numbering
import Reckon.Proofs.Text.Constants

/-! # Printed modules lose nothing

The text of a module determines the module, up to the ids of its functions: functions are set apart
by their keywords, lines by their ends, and names, parameters and operands by characters that they
do not have. It takes names that a source can spell, and operands that are the last of all
parameters that print alike, to tell what is meant from what is written.
-/

namespace Reckon

open Ir

namespace Ir

def Instr.operands : Instr → List Value
  | .arith _ left right _ | .lessThan left right _ => [left, right]
  | .widen value _ | .ret value => [value]
  | .call _ args _ => args

/-- A parameter is the last one of its name. -/
def Value.LegibleAmong (params : List String) : Value → Prop
  | .param index => ∃ name, params[index]? = some name ∧
      ∀ other, params[other]? = some name → other ≤ index
  | _ => True

/-- The function is named as a source can name it, or as those of bare expressions are. -/
def isSymbol (name : String) : Bool := isIdentifier name || name == anonymousSymbol

/-- All that the function's text shows can be read from it. -/
structure Function.Legible (f : Function) : Prop where
  name : isSymbol f.name = true
  params : ∀ name ∈ f.params, isIdentifier name = true
  operands : ∀ instr ∈ f.body.getD [], ∀ value ∈ instr.operands, value.LegibleAmong f.params

theorem isAsciiAlphanumeric_of_mem {name : String} (identifier : isIdentifier name = true)
    {c : Char} (mem : c ∈ name.toList) : isAsciiAlphanumeric c = true := by
  unfold isIdentifier at identifier
  split at identifier
  · contradiction
  · next first rest isName =>
    simp only [Bool.and_eq_true, List.all_eq_true] at identifier
    rw [isName] at mem
    rcases List.mem_cons.mp mem with rfl | mem
    · simp [isAsciiAlphanumeric, identifier.1.1.1]
    · exact identifier.1.1.2 c mem

/-- A name that functions have is followed by an opening bracket, which it does not hold. -/
theorem bracket_not_mem_of_isSymbol {name : String} (symbol : isSymbol name = true) :
    '(' ∉ name.toList := by
  simp only [isSymbol, Bool.or_eq_true, beq_iff_eq] at symbol
  rcases symbol with identifier | rfl
  · exact not_mem_of_class (fun _ mem => isAsciiAlphanumeric_of_mem identifier mem) rfl
  · decide

def isOperandChar (c : Char) : Bool := Double.isConstantChar c || c == '%'

theorem isOperandChar_of_isAsciiAlphanumeric {c : Char}
    (alphanumeric : isAsciiAlphanumeric c = true) : isOperandChar c = true := by
  simp [isOperandChar, Double.isConstantChar, alphanumeric]

variable {f f' : Function} {value value' : Value}

theorem Function.toList_operandText_temp (f : Function) (index : Nat) :
    (f.operandText (.temp index)).toList = '%' :: Nat.toDigits 10 index := by
  simp [operandText, toString]

theorem Function.toList_operandText_param {index : Nat} {name : String}
    (isParam : f.params[index]? = some name) :
    (f.operandText (.param index)).toList = '%' :: name.toList := by
  simp [operandText, isParam, toString]

theorem isOperandChar_of_mem (params : ∀ name ∈ f.params, isIdentifier name = true)
    (legible : value.LegibleAmong f.params) {c : Char} (mem : c ∈ (f.operandText value).toList) :
    isOperandChar c = true := by
  cases value with
  | const d =>
      have isConstant := Double.isConstantChar_of_mem mem
      simp [isOperandChar, isConstant]
  | param index =>
      obtain ⟨name, isParam, -⟩ := legible
      rw [Function.toList_operandText_param isParam] at mem
      rcases List.mem_cons.mp mem with rfl | mem
      · rfl
      · exact isOperandChar_of_isAsciiAlphanumeric
          (isAsciiAlphanumeric_of_mem (params name (List.mem_of_getElem? isParam)) mem)
  | temp index =>
      rw [Function.toList_operandText_temp] at mem
      rcases List.mem_cons.mp mem with rfl | mem
      · rfl
      · have digit := isAsciiDigit_of_mem_toDigits mem
        exact isOperandChar_of_isAsciiAlphanumeric (by simp [isAsciiAlphanumeric, digit])

theorem toDigits_ne_identifier {name : String} (identifier : isIdentifier name = true) (n : Nat) :
    name.toList ≠ Nat.toDigits 10 n := by
  intro isDigits
  unfold isIdentifier at identifier
  split at identifier
  · contradiction
  · next first rest isName =>
    simp only [Bool.and_eq_true] at identifier
    have digit : isAsciiDigit first = true :=
      isAsciiDigit_of_mem_toDigits (isDigits ▸ isName ▸ List.mem_cons_self)
    have noLetter := (isDecimalDigit_of_isAsciiDigit digit).2
    rw [identifier.1.1.1] at noLetter
    contradiction

theorem operandText_inj (sameParams : f'.params = f.params)
    (params : ∀ name ∈ f.params, isIdentifier name = true) (legible : value.LegibleAmong f.params)
    (legible' : value'.LegibleAmong f.params) (same : f.operandText value = f'.operandText value') :
    value' = value := by
  have texts := congrArg String.toList same
  have unmarked : ∀ (d : Double) (text : List Char), d.constant.toList ≠ '%' :: text := by
    intro d text isMark
    have first := Double.isConstantChar_of_mem (d := d) (isMark ▸ List.mem_cons_self)
    contradiction
  cases value with
  | const d =>
      cases value' with
      | const d' => exact congrArg Value.const (Double.constant_inj same).symm
      | param index' =>
          obtain ⟨name', isParam', -⟩ := legible'
          rw [Function.toList_operandText_param (sameParams ▸ isParam')] at texts
          exact absurd texts (unmarked d _)
      | temp index' =>
          rw [Function.toList_operandText_temp] at texts
          exact absurd texts (unmarked d _)
  | param index =>
      obtain ⟨name, isParam, last⟩ := legible
      rw [Function.toList_operandText_param isParam] at texts
      cases value' with
      | const d' => exact absurd texts.symm (unmarked d' _)
      | param index' =>
          obtain ⟨name', isParam', last'⟩ := legible'
          rw [Function.toList_operandText_param (sameParams ▸ isParam')] at texts
          obtain rfl := String.toList_injective (List.tail_eq_of_cons_eq texts)
          exact congrArg Value.param (Nat.le_antisymm (last _ isParam') (last' _ isParam))
      | temp index' =>
          rw [Function.toList_operandText_temp] at texts
          exact absurd (List.tail_eq_of_cons_eq texts)
            (toDigits_ne_identifier (params name (List.mem_of_getElem? isParam)) index')
  | temp index =>
      rw [Function.toList_operandText_temp] at texts
      cases value' with
      | const d' => exact absurd texts.symm (unmarked d' _)
      | param index' =>
          obtain ⟨name', isParam', -⟩ := legible'
          rw [Function.toList_operandText_param (sameParams ▸ isParam')] at texts
          exact absurd (List.tail_eq_of_cons_eq texts).symm
            (toDigits_ne_identifier (params name' (List.mem_of_getElem? isParam')) index)
      | temp index' =>
          rw [Function.toList_operandText_temp] at texts
          exact congrArg Value.temp (toDigits_inj (List.tail_eq_of_cons_eq texts)).symm

/-- The word that an instruction does its work by. -/
def Instr.opcode : Instr → String
  | .arith op _ _ _ => op.mnemonic
  | .lessThan _ _ _ => "fcmp"
  | .widen _ _ => "uitofp"
  | .call _ _ _ => "call"
  | .ret _ => "ret"

/-- What stands behind the opcode of an instruction. -/
def Module.behindOpcode (m : Module) (f : Function) : Instr → String
  | .arith _ left right _ => "double " ++ f.operandText left ++ ", " ++ f.operandText right
  | .lessThan left right _ => "ult double " ++ f.operandText left ++ ", " ++ f.operandText right
  | .widen source _ => "i1 " ++ f.operandText source ++ " to double"
  | .call callee args _ => "double @" ++ m.calleeName callee ++ "(" ++
    commaSeparated (args.map fun arg => "double " ++ f.operandText arg) ++ ")"
  | .ret value => "double " ++ f.operandText value

theorem Module.instrText_of_dest (m : Module) (f : Function) {instr : Instr} {dest : Nat}
    (assigns : instr.dest? = some dest) : (m.instrText f instr).toList =
      ' ' :: ' ' :: '%' :: (Nat.toDigits 10 dest ++ ' ' :: '=' :: ' ' :: (instr.opcode.toList ++
        ' ' :: (m.behindOpcode f instr).toList)) := by
  cases instr with
  | ret value => contradiction
  | _ =>
      cases assigns
      simp [instrText, behindOpcode, Instr.opcode, toString]

theorem Module.instrText_ret (m : Module) (f : Function) (value : Value) :
    (m.instrText f (.ret value)).toList = ' ' :: ' ' :: 'r' :: 'e' :: 't' :: ' ' ::
      (m.behindOpcode f (.ret value)).toList := by
  simp [instrText, behindOpcode, toString]

theorem Instr.space_not_mem_opcode (instr : Instr) : ' ' ∉ instr.opcode.toList := by
  cases instr with
  | arith op left right dest => cases op <;> simp [opcode, Arith.mnemonic]
  | _ => simp [opcode]

/-- The instructions differ at most in their operands and callees. -/
inductive Instr.Similar : Instr → Instr → Prop where
  | arith {op : Arith} {left left' right right' : Value} {dest : Nat} :
    Similar (.arith op left right dest) (.arith op left' right' dest)
  | lessThan {left left' right right' : Value} {dest : Nat} :
    Similar (.lessThan left right dest) (.lessThan left' right' dest)
  | widen {source source' : Value} {dest : Nat} :
    Similar (.widen source dest) (.widen source' dest)
  | call {callee callee' : FunctionId} {args args' : List Value} {dest : Nat} :
    Similar (.call callee args dest) (.call callee' args' dest)
  | ret {value value' : Value} : Similar (.ret value) (.ret value')

theorem Instr.similar_of_opcode {instr instr' : Instr} (sameDest : instr.dest? = instr'.dest?)
    (sameOpcode : instr.opcode = instr'.opcode) : instr.Similar instr' := by
  cases instr with
  | arith op left right dest =>
      cases instr' with
      | arith op' left' right' dest' =>
          have sameOp : op = op' := by
            cases op <;> cases op' <;> simp [opcode, Arith.mnemonic] at sameOpcode ⊢
          cases sameOp
          cases sameDest
          exact .arith
      | ret => cases sameDest
      | _ => cases op <;> simp [opcode, Arith.mnemonic] at sameOpcode
  | lessThan left right dest =>
      cases instr' with
      | lessThan left' right' dest' =>
          cases sameDest
          exact .lessThan
      | arith op' => cases op' <;> simp [opcode, Arith.mnemonic] at sameOpcode
      | _ => simp [opcode] at sameOpcode
  | widen source dest =>
      cases instr' with
      | widen source' dest' =>
          cases sameDest
          exact .widen
      | arith op' => cases op' <;> simp [opcode, Arith.mnemonic] at sameOpcode
      | _ => simp [opcode] at sameOpcode
  | call callee args dest =>
      cases instr' with
      | call callee' args' dest' =>
          cases sameDest
          exact .call
      | arith op' => cases op' <;> simp [opcode, Arith.mnemonic] at sameOpcode
      | _ => simp [opcode] at sameOpcode
  | ret value =>
      cases instr' with
      | ret value' => exact .ret
      | _ => cases sameDest

/-- The callee that has the same name in another module. -/
def Module.counterpart (m m' : Module) (id : FunctionId) : FunctionId :=
  ((m.function? id).bind fun f => m'.lookup? f.name).getD id

/-- What the instruction reads and calls can be told from its text in the function. -/
structure Instr.Legible (m : Module) (params : List String) (instr : Instr) : Prop where
  operands : ∀ value ∈ instr.operands, value.LegibleAmong params
  callees : ∀ id, instr.callee? = some id → ∃ g, m.function? id = some g ∧ isSymbol g.name = true

/-- The callee can be told from its name. -/
theorem callee_of_append_stop {m m' : Module} {callee callee' : FunctionId} {r s : List Char}
    (h' : m'.Integral)
    (legible : ∃ g, m.function? callee = some g ∧ isSymbol g.name = true)
    (legible' : ∃ g, m'.function? callee' = some g ∧ isSymbol g.name = true)
    (same : (m.calleeName callee).toList ++ '(' :: r = (m'.calleeName callee').toList ++ '(' :: s) :
    callee' = m.counterpart m' callee ∧ r = s := by
  obtain ⟨g, found, symbol⟩ := legible
  obtain ⟨g', found', symbol'⟩ := legible'
  simp only [Module.calleeName, found, found'] at same
  obtain ⟨sameName, ends⟩ := eq_of_append_stop (bracket_not_mem_of_isSymbol symbol)
    (bracket_not_mem_of_isSymbol symbol') same
  have lookup := h'.lookup?_of_mem (Module.mem_of_function? found')
  rw [← String.toList_injective sameName, Module.id_of_function? found'] at lookup
  exact ⟨by simp only [Module.counterpart, found, Option.bind_some, lookup, Option.getD_some], ends⟩

section Instructions

variable {m m' : Module} {f f' : Function} {instr instr' : Instr} {r s : List Char}
  (h' : m'.Integral) (sameParams : f'.params = f.params)
  (params : ∀ name ∈ f.params, isIdentifier name = true)
include sameParams params

theorem operand_of_append_stop {c : Char} (stops : isOperandChar c = false)
    (legible : value.LegibleAmong f.params) (legible' : value'.LegibleAmong f.params)
    (same : (f.operandText value).toList ++ c :: r = (f'.operandText value').toList ++ c :: s) :
    value' = value ∧ r = s := by
  have here : c ∉ (f.operandText value).toList :=
    not_mem_of_class (fun _ mem => isOperandChar_of_mem params legible mem) stops
  have there : c ∉ (f'.operandText value').toList :=
    not_mem_of_class (fun _ mem => isOperandChar_of_mem (sameParams ▸ params)
      (sameParams ▸ legible') mem) stops
  obtain ⟨sameText, sameRest⟩ := eq_of_append_stop here there same
  exact ⟨operandText_inj sameParams params legible legible' (String.toList_injective sameText),
    sameRest⟩

/-- Two operands with a comma between them, up to the end of the line. -/
theorem operands_of_append_stop {left left' right right' : Value}
    (legible : ∀ value ∈ [left, right], value.LegibleAmong f.params)
    (legible' : ∀ value ∈ [left', right'], value.LegibleAmong f.params)
    (same : (f.operandText left).toList ++ ',' :: ' ' ::
        ((f.operandText right).toList ++ '\n' :: r) =
      (f'.operandText left').toList ++ ',' :: ' ' ::
        ((f'.operandText right').toList ++ '\n' :: s)) :
    left' = left ∧ right' = right ∧ r = s := by
  simp only [List.forall_mem_cons] at legible legible'
  obtain ⟨sameLeft, goesOn⟩ := operand_of_append_stop sameParams params
    (by decide : isOperandChar ',' = false) legible.1 legible'.1 same
  obtain ⟨sameRight, ends⟩ := operand_of_append_stop sameParams params
    (by decide : isOperandChar '\n' = false) legible.2.1 legible'.2.1
    (List.tail_eq_of_cons_eq goesOn)
  exact ⟨sameLeft, sameRight, ends⟩

/-- Arguments in brackets, up to the end of the line. -/
theorem args_of_append_stop {args args' : List Value}
    (legible : ∀ value ∈ args, value.LegibleAmong f.params)
    (legible' : ∀ value ∈ args', value.LegibleAmong f.params)
    (same :
      (commaSeparated (args.map fun arg => "double " ++ f.operandText arg)).toList ++ ')' :: r =
      (commaSeparated (args'.map fun arg => "double " ++ f'.operandText arg)).toList ++ ')' :: s) :
    args' = args ∧ r = s := by
  have item : ∀ arg ∈ args, ∀ arg' ∈ args',
      "double " ++ f.operandText arg = "double " ++ f'.operandText arg' → arg' = arg := by
    intro arg mem arg' mem' same
    have texts := congrArg String.toList same
    rw [String.toList_append, String.toList_append, List.append_cancel_left_eq] at texts
    exact operandText_inj sameParams params (legible arg mem) (legible' arg' mem')
      (String.toList_injective texts)
  have isItem : ∀ (g : Function), (∀ name ∈ g.params, isIdentifier name = true) →
      ∀ arg, arg.LegibleAmong g.params → IsItem ("double " ++ g.operandText arg) := by
    intro g params arg legible
    have chars : ∀ c ∈ (g.operandText arg).toList, isOperandChar c = true :=
      fun _ mem => isOperandChar_of_mem params legible mem
    have keyword : IsItem "double " := ⟨by decide, by decide, by decide⟩
    exact keyword.append (not_mem_of_class chars rfl) (not_mem_of_class chars rfl)
  obtain ⟨sameArgs, ends⟩ := eq_map_of_bracketed (g := id) item
    (fun arg mem => isItem f params arg (legible arg mem))
    (fun arg mem => isItem f' (sameParams ▸ params) arg (sameParams ▸ legible' arg mem)) same
  exact ⟨sameArgs.trans (List.map_id args), ends⟩

include h'

/-- Of similar instructions, operands and callees can be told from their texts. -/
theorem behindOpcode_inj (similar : instr.Similar instr') (legible : instr.Legible m f.params)
    (legible' : instr'.Legible m' f.params)
    (same : (m.behindOpcode f instr).toList ++ '\n' :: r =
      (m'.behindOpcode f' instr').toList ++ '\n' :: s) :
    instr' = instr.rename (m.counterpart m') ∧ r = s := by
  have operands := legible.operands
  have operands' := legible'.operands
  cases similar with
  | arith | lessThan =>
      simp only [Module.behindOpcode, String.toList_append, String.reduceToList, List.cons_append,
        List.nil_append, List.append_assoc, List.cons.injEq, true_and] at same
      obtain ⟨sameLeft, sameRight, ends⟩ :=
        operands_of_append_stop sameParams params operands operands' same
      rw [sameLeft, sameRight]
      exact ⟨rfl, ends⟩
  | widen =>
      simp only [Instr.operands, List.forall_mem_cons] at operands operands'
      simp only [Module.behindOpcode, String.toList_append, String.reduceToList, List.cons_append,
        List.nil_append, List.append_assoc, List.cons.injEq, true_and] at same
      obtain ⟨sameSource, goesOn⟩ := operand_of_append_stop sameParams params
        (by decide : isOperandChar ' ' = false) operands.1 operands'.1 same
      simp only [List.cons.injEq, true_and] at goesOn
      rw [sameSource]
      exact ⟨rfl, goesOn⟩
  | call =>
      simp only [Instr.operands] at operands operands'
      simp only [Module.behindOpcode, String.toList_append, String.reduceToList, List.cons_append,
        List.nil_append, List.append_assoc, List.cons.injEq, true_and] at same
      obtain ⟨sameCallee, goesOn⟩ :=
        callee_of_append_stop h' (legible.callees _ rfl) (legible'.callees _ rfl) same
      obtain ⟨sameArgs, ends⟩ := args_of_append_stop sameParams params operands operands' goesOn
      rw [sameCallee, sameArgs]
      exact ⟨rfl, List.tail_eq_of_cons_eq ends⟩
  | ret =>
      simp only [Instr.operands, List.forall_mem_cons] at operands operands'
      simp only [Module.behindOpcode, String.toList_append, String.reduceToList, List.cons_append,
        List.nil_append, List.cons.injEq, true_and] at same
      obtain ⟨sameValue, ends⟩ := operand_of_append_stop sameParams params
        (by decide : isOperandChar '\n' = false) operands.1 operands'.1 same
      rw [sameValue]
      exact ⟨rfl, ends⟩

theorem instrText_inj (legible : instr.Legible m f.params) (legible' : instr'.Legible m' f.params)
    (same : (m.instrText f instr).toList ++ '\n' :: r =
      (m'.instrText f' instr').toList ++ '\n' :: s) :
    instr' = instr.rename (m.counterpart m') ∧ r = s := by
  have noSpace : ∀ n, ' ' ∉ Nat.toDigits 10 n := fun n =>
    not_mem_of_class (fun _ mem => isAsciiDigit_of_mem_toDigits mem) rfl
  cases assigns : instr.dest? with
  | none =>
      obtain ⟨value, rfl⟩ := Instr.dest?_eq_none assigns
      cases assigns' : instr'.dest? with
      | none =>
          obtain ⟨value', rfl⟩ := Instr.dest?_eq_none assigns'
          rw [Module.instrText_ret, Module.instrText_ret] at same
          simp only [List.cons_append, List.cons.injEq, true_and] at same
          exact behindOpcode_inj h' sameParams params .ret legible legible' same
      | some dest' =>
          rw [Module.instrText_ret, Module.instrText_of_dest _ _ assigns'] at same
          simp at same
  | some dest =>
      cases assigns' : instr'.dest? with
      | none =>
          obtain ⟨value', rfl⟩ := Instr.dest?_eq_none assigns'
          rw [Module.instrText_ret, Module.instrText_of_dest _ _ assigns] at same
          simp at same
      | some dest' =>
          rw [Module.instrText_of_dest _ _ assigns, Module.instrText_of_dest _ _ assigns'] at same
          simp only [List.cons_append, List.append_assoc, List.cons.injEq, true_and] at same
          obtain ⟨sameDest, goesOn⟩ := eq_of_append_stop (noSpace dest) (noSpace dest') same
          simp only [List.cons.injEq, true_and] at goesOn
          obtain ⟨sameOpcode, behind⟩ := eq_of_append_stop instr.space_not_mem_opcode
            instr'.space_not_mem_opcode goesOn
          have similar : instr.Similar instr' := by
            refine Instr.similar_of_opcode ?_ (String.toList_injective sameOpcode)
            rw [assigns, assigns', toDigits_inj sameDest]
          exact behindOpcode_inj h' sameParams params similar legible legible' behind

end Instructions

theorem Module.instrText_starts (m : Module) (f : Function) (instr : Instr) :
    ∃ rest, (m.instrText f instr).toList = ' ' :: rest := by
  cases assigns : instr.dest? with
  | none =>
      obtain ⟨value, rfl⟩ := Instr.dest?_eq_none assigns
      exact ⟨_, m.instrText_ret f value⟩
  | some dest => exact ⟨_, m.instrText_of_dest f assigns⟩

theorem Function.toList_headText (f : Function) : f.headText.toList = "double @".toList ++
    (f.name.toList ++ '(' ::
      ((commaSeparated (f.params.map fun p => "double %" ++ p)).toList ++ [')'])) := by
  simp [headText, toString]

theorem Module.toList_functionText_declaration (m : Module) {f : Function}
    (declaration : f.body = none) :
    (m.functionText f).toList = "declare ".toList ++ (f.headText.toList ++ ['\n']) := by
  simp [functionText, declaration, toString]

def Module.bodyText (m : Module) (f : Function) (body : List Instr) : List Char :=
  body.flatMap fun instr => (m.instrText f instr).toList ++ ['\n']

theorem Module.toList_functionText_definition (m : Module) {f : Function} {body : List Instr}
    (hasBody : f.body = some body) :
    (m.functionText f).toList = "define ".toList ++ (f.headText.toList ++
      (" \x7b\nentry:\n".toList ++ (m.bodyText f body ++ ['\x7d', '\n']))) := by
  simp [functionText, bodyText, hasBody, toString, List.flatMap, Function.comp_def]

theorem keywords_ne (r s : List Char) : "declare ".toList ++ r ≠ "define ".toList ++ s := by
  simp

/-- The name and the parameters of a function can be told from its head. -/
theorem headText_inj {f f' : Function} {r s : List Char} (legible : f.Legible)
    (legible' : f'.Legible)
    (same : f.headText.toList ++ r = f'.headText.toList ++ s) :
    f'.name = f.name ∧ f'.params = f.params ∧ r = s := by
  simp only [Function.toList_headText, List.append_assoc, List.append_cancel_left_eq,
    List.cons_append, List.nil_append] at same
  obtain ⟨sameName, goesOn⟩ := eq_of_append_stop (bracket_not_mem_of_isSymbol legible.name)
    (bracket_not_mem_of_isSymbol legible'.name) same
  have isItem : ∀ name, isIdentifier name = true → IsItem ("double %" ++ name) := by
    intro name identifier
    have chars : ∀ c ∈ name.toList, isAsciiAlphanumeric c = true :=
      fun _ mem => isAsciiAlphanumeric_of_mem identifier mem
    have keyword : IsItem "double %" := ⟨by decide, by decide, by decide⟩
    exact keyword.append (not_mem_of_class chars rfl) (not_mem_of_class chars rfl)
  have item : ∀ name ∈ f.params, ∀ name' ∈ f'.params, "double %" ++ name = "double %" ++ name' →
      name' = name := by
    intro name _ name' _ same
    have texts := congrArg String.toList same
    rw [String.toList_append, String.toList_append, List.append_cancel_left_eq] at texts
    exact (String.toList_injective texts).symm
  obtain ⟨sameParams, ends⟩ := eq_map_of_bracketed (g := id) item
    (fun name mem => isItem name (legible.params name mem))
    (fun name mem => isItem name (legible'.params name mem)) goesOn
  exact ⟨(String.toList_injective sameName).symm, sameParams.trans (List.map_id _), ends⟩

/-- Every function of the module can be told from its text, and its temporaries are numbered in
    order. -/
structure Module.Legible (m : Module) : Prop extends m.Integral, m.Numbered where
  functions : ∀ f ∈ m.functions, f.Legible

namespace Module.Legible

variable {m m' : Module} {f f' : Function} {r s : List Char}

theorem instr (h : m.Legible) (hf : f ∈ m.functions) {body : List Instr}
    (hasBody : f.body = some body) : ∀ instr ∈ body, instr.Legible m f.params := by
  intro instr mem
  refine ⟨(h.functions f hf).operands instr (by simpa [hasBody] using mem), fun id calls => ?_⟩
  have called : id ∈ f.callees := by
    rw [Function.callees_of_body hasBody]
    exact List.mem_filterMap.mpr ⟨instr, mem, calls⟩
  obtain ⟨g, found, -⟩ := h.callees f hf id called
  exact ⟨g, found, (h.functions g (mem_of_function? found)).name⟩

theorem counterpart_eq (h : m.Legible) (h' : m'.Legible) (hf : f ∈ m.functions)
    (hf' : f' ∈ m'.functions) (sameName : f'.name = f.name) : m.counterpart m' f.id = f'.id := by
  have lookup := h'.lookup?_of_mem hf'
  rw [sameName] at lookup
  simp only [counterpart, h.function?_of_mem hf, Option.bind_some, lookup, Option.getD_some]

/-- The lines of a body determine it. -/
theorem body_eq (h : m.Legible) (h' : m'.Legible) (hf : f ∈ m.functions) (hf' : f' ∈ m'.functions)
    (sameParams : f'.params = f.params) {body body' : List Instr} (hasBody : f.body = some body)
    (hasBody' : f'.body = some body')
    (same : m.bodyText f body ++ '\x7d' :: r = m'.bodyText f' body' ++ '\x7d' :: s) :
    body' = renameCode (m.counterpart m') body ∧ r = s := by
  have line : ∀ instr ∈ body, ∀ instr' ∈ body', ∀ r s,
      (m.instrText f instr).toList ++ ['\n'] ++ r = (m'.instrText f' instr').toList ++ ['\n'] ++ s →
        instr' = instr.rename (m.counterpart m') ∧ r = s := by
    intro instr mem instr' mem' r s same
    simp only [List.append_assoc, List.singleton_append] at same
    exact instrText_inj h'.toIntegral sameParams (h.functions f hf).params
      (h.instr hf hasBody instr mem) (sameParams ▸ h'.instr hf' hasBody' instr' mem') same
  have goesOn : ∀ (m : Module) (f : Function) (instr : Instr) (more rest : List Char),
      '\x7d' :: rest ≠ (m.instrText f instr).toList ++ ['\n'] ++ more := by
    intro m f instr more rest ends
    obtain ⟨text, starts⟩ := m.instrText_starts f instr
    rw [starts] at ends
    exact absurd (List.head_eq_of_cons_eq ends) (by decide)
  obtain ⟨sameBody, ends⟩ := eq_map_of_flatMap line (fun instr _ more => goesOn m' f' instr more r)
    (fun instr _ more => (goesOn m f instr more s).symm) same
  exact ⟨sameBody, List.tail_eq_of_cons_eq ends⟩

theorem eq_rename (h : m.Legible) (h' : m'.Legible) (hf : f ∈ m.functions) (hf' : f' ∈ m'.functions)
    (name : f'.name = f.name) (params : f'.params = f.params)
    (body : f'.body = f.body.map (renameCode (m.counterpart m'))) :
    f' = f.rename (m.counterpart m') := by
  have sameDests : destsOf (f'.body.getD []) = destsOf (f.body.getD []) := by
    rw [body]
    cases f.body with
    | none => rfl
    | some body =>
        simp only [Option.map_some, Option.getD_some, destsOf, renameCode, List.filterMap_map]
        exact List.filterMap_congr fun instr _ => instr.dest?_rename
  have temps : f'.nextTemp = f.nextTemp := by
    have numbers := (h'.numbered f' hf').symm.trans
      (sameDests.trans (h.numbered f hf))
    simpa only [List.length_range] using congrArg List.length numbers
  have id := h.counterpart_eq h' hf hf' name
  cases f'
  simp_all [Function.rename]

/-- The text of a function determines it, up to ids. -/
theorem functionText_inj (h : m.Legible) (h' : m'.Legible) (hf : f ∈ m.functions)
    (hf' : f' ∈ m'.functions)
    (same : (m.functionText f).toList ++ r = (m'.functionText f').toList ++ s) :
    f' = f.rename (m.counterpart m') ∧ r = s := by
  have legible := h.functions f hf
  have legible' := h'.functions f' hf'
  cases hasBody : f.body with
  | none =>
      cases hasBody' : f'.body with
      | none =>
          rw [toList_functionText_declaration m hasBody,
            toList_functionText_declaration m' hasBody'] at same
          simp only [List.append_assoc, List.append_cancel_left_eq] at same
          obtain ⟨name, params, ends⟩ := headText_inj legible legible' same
          refine ⟨h.eq_rename h' hf hf' name params ?_, List.tail_eq_of_cons_eq ends⟩
          rw [hasBody, hasBody', Option.map_none]
      | some body' =>
          rw [toList_functionText_declaration m hasBody,
            toList_functionText_definition m' hasBody', List.append_assoc,
            List.append_assoc] at same
          exact absurd same (keywords_ne _ _)
  | some body =>
      cases hasBody' : f'.body with
      | none =>
          rw [toList_functionText_definition m hasBody,
            toList_functionText_declaration m' hasBody', List.append_assoc,
            List.append_assoc] at same
          exact absurd same.symm (keywords_ne _ _)
      | some body' =>
          rw [toList_functionText_definition m hasBody,
            toList_functionText_definition m' hasBody'] at same
          simp only [List.append_assoc, List.append_cancel_left_eq] at same
          obtain ⟨name, params, goesOn⟩ := headText_inj legible legible' same
          rw [List.append_cancel_left_eq] at goesOn
          obtain ⟨body, ends⟩ := h.body_eq h' hf hf' params hasBody hasBody' goesOn
          refine ⟨h.eq_rename h' hf hf' name params ?_, List.tail_eq_of_cons_eq ends⟩
          rw [hasBody, hasBody', Option.map_some, body]

/-- The text of a module determines it, up to ids. -/
theorem copies_of_text_eq (h : m.Legible) (h' : m'.Legible) (sameModule : m'.name = m.name)
    (same : m'.text = m.text) : m.Copies (m.counterpart m') m' := by
  refine ⟨sameModule, ?_⟩
  have piece : ∀ f ∈ m.functions, ∀ f' ∈ m'.functions, ∀ r s,
      ("\n" ++ m.functionText f).toList ++ r = ("\n" ++ m'.functionText f').toList ++ s →
        f' = f.rename (m.counterpart m') ∧ r = s := by
    intro f hf f' hf' r s same
    rw [String.toList_append, String.toList_append, List.append_assoc, List.append_assoc,
      List.append_cancel_left_eq] at same
    exact h.functionText_inj h' hf hf' same
  have texts : ∀ m : Module, m.text.toList = ("; ModuleID = '" ++ m.name ++ "'\n").toList ++
      m.functions.flatMap fun f => ("\n" ++ m.functionText f).toList := by
    intro m
    have whole : m.text = "; ModuleID = '" ++ m.name ++ "'\n" ++
      String.join (m.functions.map fun f => "\n" ++ m.functionText f) := by
        unfold text
        rfl
    rw [whole, String.toList_append, String.toList_join, List.flatMap_map]
  have pieces : m.functions.flatMap (fun f => ("\n" ++ m.functionText f).toList) ++ [] =
      m'.functions.flatMap (fun f => ("\n" ++ m'.functionText f).toList) ++ [] := by
    have whole := congrArg String.toList same.symm
    rwa [texts, texts, sameModule, List.append_cancel_left_eq, ← List.append_nil (List.flatMap _ _),
      ← List.append_nil (List.flatMap _ m'.functions)] at whole
  have starts : ∀ (text : String) (more : List Char), ("\n" ++ text).toList ++ more ≠ [] := by
    intro text more isEmpty
    rw [String.toList_append, List.append_assoc] at isEmpty
    exact List.cons_ne_nil _ _ isEmpty
  exact (eq_map_of_flatMap piece (fun f _ more => (starts _ more).symm)
    (fun f _ more => starts _ more) pieces).1

end Module.Legible

end Ir

end Reckon
