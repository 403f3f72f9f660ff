import Reckon.Proofs.Compile.Definitions
import Reckon.Proofs.Compile.Operations

/-! # Failed forms leave no trace

A form that fails to compile leaves every function of the module as it was, wherever the failure
came from: a name that is unknown or taken, a number of arguments, an operator, a planned fault of
any operation, or the verifier. Only the next id and the open function may have changed.
-/

namespace Reckon

open Ir

theorem Form.compile_ensures_rollback (form : Form) {b : Backend} (h : b.target.Orderly) :
    Ensures form.compile b (fun _ _ => True) fun _ b' => b.target.SameFunctions b'.target := by
  cases form with
  | declaration p =>
      simp only [Ensures, Form.compile, p.declare_eq b]
  | definition d => exact (d.compile_ensures h).mono (fun _ _ _ => trivial) fun _ _ bad => bad.2

/-- Compiling that fails rolls back: the module differs at most in its next id and its insertion
    point, whether the function was new, declared before, or defined already. -/
theorem compile_error_rolls_back {b b' : Backend} {form : Form} {e : CompileError}
    (reachable : b.Reachable) (failed : form.compile b = .error e b') :
    ∃ nextId insertion, b'.target = { b.target with nextId, insertion } := by
  have same := (form.compile_ensures_rollback reachable.orderly).of_error failed
  refine ⟨b'.target.nextId, b'.target.insertion, ?_⟩
  simp only [← same.name, ← same.functions]

/-- The declaration `f(x)` outlives a definition `f(y)` whose body reads an unknown name. -/
theorem compile_error_rolls_back_declared :
    ∃ b', (Form.definition ⟨⟨"f", ["y"]⟩, .binary '+' (.var "y") (.var "z")⟩).compile
        (leaves (Form.declaration ⟨"f", ["x"]⟩).compile (.empty "m")) =
          .error (.unknownVariable "z") b' ∧
      ∃ nextId insertion, b'.target =
        { (leaves (Form.declaration ⟨"f", ["x"]⟩).compile (.empty "m")).target with
          nextId, insertion } := by
  obtain ⟨b', failed⟩ :
      ∃ b', (Form.definition ⟨⟨"f", ["y"]⟩, .binary '+' (.var "y") (.var "z")⟩).compile
        (leaves (Form.declaration ⟨"f", ["x"]⟩).compile (.empty "m")) =
          .error (.unknownVariable "z") b' := ⟨_, rfl⟩
  exact ⟨b', failed, compile_error_rolls_back (.compile _ (.empty "m" true)) failed⟩

end Reckon
