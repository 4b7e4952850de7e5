import StackScript.Machine.State
import StackScript.Value.Assignment

namespace StackScript

/-! One step of a machine over a unit of code. -/

/-- Whether a run goes on after a step. -/
inductive Progress where
  | running
  | stopped
  deriving DecidableEq, Repr

namespace Action

/-- Pops the index values of an access, the last one first. -/
def popIndexes : Nat → Action (List Value)
  | 0 => pure []
  | count + 1 => do
      let last ← popValue
      let front ← popIndexes count
      pure (front ++ [last])

/-- Replaces an address of an array and index values by the address of the element, which is
created if there is none. -/
def indexAddress (count : UInt8) : Action Unit := do
  let indexes ← popIndexes count.toNat
  match ← pop with
  | .value _ => throw (.expectedAddress .putIndAddr)
  | .address address =>
      let key ← editAddress address (Value.editArray do
        let array ← get
        let key ← Edit.ofExcept (array.checkKey indexes)
        let _ ← Sparse.materialize indexes
        pure key)
      push (.address (address.element key))

def assign (op : Opcode) : Action Unit := do
  let value ← popValue
  match ← pop with
  | .value _ => throw (.expectedAddress op)
  | .address address => editAddress address (Value.assign op value)

/-- Applies an operator to the two topmost values. -/
def binary (operator : Value → Value → Except Fault Value) : Action Unit := do
  let rhs ← popValue
  let lhs ← popValue
  push (.value (← Edit.ofExcept (operator lhs rhs)))

def arith (operation : Arithmetic) : Action Unit :=
  binary fun lhs rhs =>
    match operation with
    | .multiply => Value.mul operation.opcode lhs rhs
    | .divide => Value.div operation.opcode lhs rhs
    | .add => Value.add operation.opcode lhs rhs
    | .subtract => Value.sub operation.opcode lhs rhs

def compare (relation : Relation) : Action Unit :=
  binary fun lhs rhs => (Value.compare relation.opcode lhs rhs).map .bool

def setIp (ip : Nat) : Action Unit :=
  modify fun m => { m with ip }

def jumpIfFalse (target : UInt32) : Action Unit := do
  match ← popValue with
  | .bool true => pure ()
  | .bool false => setIp target.toNat
  | _ => throw .conditionExpectedBoolean

/-- Enters a function with a frame that has no cells yet. -/
def call (table : List Entry) (index : UInt32) : Action Unit := do
  match (← entry table index).storage with
  | .function _ code =>
      let m ← get
      if m.frames.size < Machine.frameLimit then
        set { m with
          ip := code.toNat
          frames := m.frames.push { resume := m.ip, cells := [] } }
      else throw .frameOverflow
  | _ => throw .invalidInstruction

/-- Leaves the active frame with the content of one of its cells. -/
def ret (index : UInt32) : Action Unit := do
  let m ← get
  match m.frames.back? with
  | none => throw .noReturnPoint
  | some frame =>
      match ← dynamicLocation index with
      | .static _ => throw .noReturnPoint
      | .frame _ slot =>
          match frame.cells[slot]? with
          | none => throw .noReturnPoint
          | some (_, result) =>
              set { m with ip := frame.resume, frames := m.frames.pop }
              push (.value result)

def syscall (index : UInt32) (name : String) : Action Unit := do
  match Builtin.ofName? name with
  | none => throw .unknownSyscall
  | some builtin =>
      let location ← dynamicLocation index
      let argument ← editCell location get
      push (.value (← Edit.ofExcept (builtin.call argument)))

def initVar (table : List Entry) (index : UInt32) : Action Unit := do
  let entry ← entry table index
  let location ←
    match entry.storage with
    | .data => pure (.static index.toNat)
    | .ddata => dynamicLocation index
    | .function _ _ => throw .invalidInstruction
  editCell location (set (Value.default entry.ty))

/-- Allocates a parameter and moves its argument there. -/
def allocVars (table : List Entry) (index : UInt32) : Action Unit := do
  let ty := (← entry table index).ty
  let argument ← popValue
  if ty.accepts argument.ty then allocate index (argument.widen ty)
  else throw (.inconsistentDatatypes .allocVars)

def putAddr (table : List Entry) (index : UInt32) : Action Unit := do
  let location ←
    match (← entry table index).storage with
    | .data => pure (.static index.toNat)
    | _ => dynamicLocation index
  push (.address (.ofLocation location))

/-- Members have no effect beyond the need for an address. -/
def putMemberAddr : Action Unit := do
  match (← get).stack.back? with
  | some (.address _) => pure ()
  | _ => throw (.expectedAddress .putMemberAddr)

/-- Executes an instruction. The instruction pointer stands on the next one already. -/
def execute (table : List Entry) : Instruction → Action Progress
  | .nop => pure .running
  | .putAddr index => do putAddr table index; pure .running
  | .putDAddr index => do
      push (.address (.ofLocation (← dynamicLocation index)))
      pure .running
  | .putMemberAddr _ => do putMemberAddr; pure .running
  | .putIndAddr count => do indexAddress count; pure .running
  | .putInt n => do push (.value (.int n)); pure .running
  | .putFloat bits => do push (.value (.float (Float.ofBits bits))); pure .running
  | .putString s => do push (.value (.str s)); pure .running
  | .putBoolean b => do push (.value (.bool b)); pure .running
  | .assign update => do assign update.opcode; pure .running
  | .compare relation => do compare relation; pure .running
  | .arith operation => do arith operation; pure .running
  | .neg => do
      push (.value (← Edit.ofExcept (← popValue).neg))
      pure .running
  | .jumpIfFalse target => do jumpIfFalse target; pure .running
  | .jump target => do setIp target.toNat; pure .running
  | .stop => pure .stopped
  | .call index => do call table index; pure .running
  | .ret index => do ret index; pure .running
  | .syscall index name => do syscall index name; pure .running
  | .initVar index => do initVar table index; pure .running
  | .allocVar index => do
      allocate index (Value.default (← entry table index).ty)
      pure .running
  | .allocVars index => do allocVars table index; pure .running

end Action

/-- One step. The end of the code stops the run as an instruction to stop does. -/
def Machine.step (unit : CodeUnit) : Action Progress := fun m =>
  match unit.code.drop m.ip with
  | [] => .ok .stopped m
  | bytes =>
      match Instruction.decode? bytes with
      | none => .error .invalidInstruction m
      | some (instruction, width) =>
          Action.execute unit.table instruction { m with ip := m.ip + width }

end StackScript
