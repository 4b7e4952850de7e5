import StackScript.CodeUnit.Basic
import StackScript.Value.Basic

namespace StackScript

/-! The state of a machine: an operand stack, static cells, and a frame of cells for each call. -/

/-- Where an address starts: a static cell or a slot of a frame. -/
inductive Location where
  | static (index : Nat)
  | frame (frame slot : Nat)
  deriving DecidableEq, Repr

/-- A reference to a cell, or to an element that a path of index tuples leads to. -/
structure Address where
  root : Location
  path : List Key

def Address.ofLocation (root : Location) : Address where
  root := root
  path := []

def Address.element (address : Address) (key : Key) : Address :=
  { address with path := address.path ++ [key] }

inductive Operand where
  | value (v : Value)
  | address (a : Address)

def Operand.kind : Operand → Kind
  | .value v => v.kind
  | .address _ => .address

/-- The place to resume the caller, and the cells of the callee with the table entries that
allocated them. -/
structure Frame where
  resume : Nat
  cells : List (UInt32 × Value)

structure Machine where
  ip : Nat
  stack : Array Operand
  frames : Array Frame
  /-- One cell for each record of the variable table. -/
  statics : List Value
  /-- The slot that was allocated last for each record. -/
  slots : List (Option Nat)

namespace Machine

def stackLimit : Nat := 65536

def frameLimit : Nat := 4096

def initial (table : List Entry) : Machine where
  ip := 0
  stack := #[]
  frames := #[]
  statics := table.map fun entry => Value.default entry.ty
  slots := table.map fun _ => none

end Machine

/-- A step, or part of one. -/
abbrev Action (α : Type) := Edit Machine α

namespace Action

def push (operand : Operand) : Action Unit := fun m =>
  if m.stack.size < Machine.stackLimit then .ok () { m with stack := m.stack.push operand }
  else .error .stackOverflow m

def pop : Action Operand := fun m =>
  match m.stack.back? with
  | some operand => .ok operand { m with stack := m.stack.pop }
  | none => .error .stackUnderflow m

/-- The record of the variable table that an operand names. -/
def entry (table : List Entry) (index : UInt32) : Action Entry :=
  .ofExcept (match table[index.toNat]? with
    | some entry => .ok entry
    | none => .error .invalidInstruction)

/-- The slot of a dynamic record in the active frame, if that record allocated it there. -/
def dynamicLocation (index : UInt32) : Action Location := fun m =>
  match m.frames.back?, (m.slots[index.toNat]?).join with
  | some frame, some slot =>
      match frame.cells[slot]? with
      | some (owner, _) =>
          if owner = index then .ok (.frame (m.frames.size - 1) slot) m
          else .error (.unboundDynamicVariable index) m
      | none => .error (.unboundDynamicVariable index) m
  | _, _ => .error (.unboundDynamicVariable index) m

/-- Edits the cell at a location. -/
def editCell {β : Type} (location : Location) (edit : Edit Value β) : Action β := fun m =>
  match location with
  | .static index =>
      match m.statics[index]? with
      | none => .error .invalidInstruction m
      | some value =>
          match edit value with
          | .ok result value' => .ok result { m with statics := m.statics.set index value' }
          | .error fault value' => .error fault { m with statics := m.statics.set index value' }
  | .frame frame slot =>
      match (m.frames[frame]?).bind fun f => f.cells[slot]? with
      | none => .error .invalidInstruction m
      | some (owner, value) =>
          let replace (value' : Value) : Machine :=
            { m with
              frames := m.frames.modify frame fun f =>
                { f with cells := f.cells.set slot (owner, value') } }
          match edit value with
          | .ok result value' => .ok result (replace value')
          | .error fault value' => .error fault (replace value')

/-- Edits what an address refers to, creating array elements on the way. -/
def editAddress {β : Type} (address : Address) (edit : Edit Value β) : Action β :=
  editCell address.root (Value.editPath edit address.path)

/-- Pops an operand; an address gives a copy of what it refers to. -/
def popValue : Action Value := do
  match ← pop with
  | .value value => pure value
  | .address address => editAddress address get

/-- Adds a cell to the active frame and remembers its slot. -/
def allocate (index : UInt32) (value : Value) : Action Unit := fun m =>
  match m.frames.back? with
  | none => .error (.unboundDynamicVariable index) m
  | some frame =>
      let m' :=
        { m with
          frames := m.frames.modify (m.frames.size - 1) fun f =>
            { f with cells := f.cells ++ [(index, value)] } }
      if index.toNat < m.slots.length then
        .ok () { m' with slots := m'.slots.set index.toNat (some frame.cells.length) }
      else .error .invalidInstruction m'

end Action

end StackScript
