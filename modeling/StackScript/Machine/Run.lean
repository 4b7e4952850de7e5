import StackScript.Machine.Step

namespace StackScript

/-! Runs of a machine and the state of the variables after them. -/

inductive Status where
  | running
  | stopped
  | failed (fault : Fault)
  deriving DecidableEq, Repr

def Status.name : Status → String
  | .running => "OK_RUN"
  | .stopped => "OK_STOP"
  | .failed fault => fault.name

def Status.isOk : Status → Bool
  | .failed _ => false
  | _ => true

/-- At most `limit` steps. The status is `running` if the run has not ended by then. -/
def Machine.runFor (unit : CodeUnit) : (limit : Nat) → Machine → Status × Machine
  | 0, m => (.running, m)
  | limit + 1, m =>
      match step unit m with
      | .ok .running m' => runFor unit limit m'
      | .ok .stopped m' => (.stopped, m')
      | .error fault m' => (.failed fault, m')

/-- A record of the variable table after a run; only static records keep a value. -/
structure VariableState where
  index : Nat
  entry : Entry
  value : Option Value

structure Execution where
  status : Status
  finals : List VariableState

def Machine.finish (table : List Entry) (status : Status) (m : Machine) : Execution where
  status := status
  finals :=
    (table.zip m.statics).mapIdx fun index record =>
      { index
        entry := record.1
        value := if record.1.isData then some record.2 else none }

/-- A run from the start that is cut off after `limit` steps. -/
def Execution.within (limit : Nat) (unit : CodeUnit) : Execution :=
  let (status, m) := Machine.runFor unit limit (Machine.initial unit.table)
  m.finish unit.table status

/-- More steps than any run can take in practice. -/
def Execution.stepLimit : Nat := 1 <<< 62

def Execution.of (unit : CodeUnit) : Execution :=
  within stepLimit unit

/-- The value of the first variable with this qualified name, if it is static. -/
def Execution.value? (execution : Execution) (qualifiedName : String) : Option Value :=
  (execution.finals.find? fun v => v.entry.qualifiedName = qualifiedName).bind (·.value)

end StackScript
