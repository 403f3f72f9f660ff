import Reckon.Ir.Check
import Reckon.Ir.Eval
import Reckon.Ir.Text

/-! # Backends

What code is generated into: a module, behind a plan of faults. The plan makes chosen operations
fail, so that what a failure leaves behind can be stated and tried at every point; without a plan a
backend is its module. A backend may also be one that cannot evaluate at all.
-/

namespace Reckon

/-- Which operations of a backend fail. -/
structure FaultPlan where
  /-- The build call that fails, counted from one; the others work. -/
  build : Option Nat := none
  /-- Opening a function fails. -/
  entry : Bool := false
  /-- Every function is found malformed. -/
  verify : Bool := false
  /-- Evaluation is not supported. -/
  evaluate : Bool := false
  deriving DecidableEq, Repr

/-- A module with its plan of faults. -/
structure Backend where
  target : Ir.Module
  faults : FaultPlan := {}
  /-- How many build calls were made under the plan. -/
  builds : Nat := 0
  /-- The backend can run code. -/
  canEvaluate : Bool := true
  deriving DecidableEq, Repr

namespace Backend

/-- A backend with an empty module and no faults. -/
def empty (name : String) : Backend := { target := .empty name }

/-- Puts another plan in force and counts build calls anew. -/
def setFaults (b : Backend) (faults : FaultPlan) : Backend := { b with faults, builds := 0 }

def onTarget (b : Backend) (change : Ir.Module → Ir.Module) : Backend :=
  { b with target := change b.target }

def verify (b : Backend) (id : Ir.FunctionId) : Bool := !b.faults.verify && b.target.verify id

/-- The value of a function; nothing if evaluation is not supported or the function is gone. -/
def evaluate (b : Backend) (id : Ir.FunctionId) : Option (Except Ir.Error Double) :=
  if b.canEvaluate && !b.faults.evaluate then b.target.evaluate id else none

/-- A step that can fail, with the backend as its state. -/
abbrev Step := EStateM Ir.Error Backend

def lift (operation : Ir.Build α) : Step α := fun b =>
  match operation b.target with
  | .ok a target => .ok a { b with target }
  | .error e target => .error e { b with target }

/-- Opens a function, unless the plan forbids it. -/
def openBody (id : Ir.FunctionId) : Step Unit := fun b =>
  if b.faults.entry then .error .faultAtEntry b else lift (Ir.Build.openBody id) b

/-- Makes one build call, unless it is the one that the plan lets fail. -/
def build (operation : Ir.Build α) : Step α := fun b =>
  let b := { b with builds := b.builds + 1 }
  if b.faults.build = some b.builds then .error (.faultAtBuild b.builds) b else lift operation b

end Backend

end Reckon
