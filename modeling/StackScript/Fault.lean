import StackScript.Opcode

namespace StackScript

/-! Faults that halt a run: their causes, names and wording. -/

/-- What lies on the operand stack. -/
inductive Kind where
  | int
  | float
  | string
  | boolean
  | address
  | array
  deriving DecidableEq, Repr

def Kind.name : Kind → String
  | .int => "int"
  | .float => "float"
  | .string => "string"
  | .boolean => "boolean"
  | .address => "address"
  | .array => "array"

def Kind.upperName : Kind → String
  | .int => "INT"
  | .float => "FLOAT"
  | .string => "STRING"
  | .boolean => "BOOLEAN"
  | .address => "ADDRESS"
  | .array => "ARRAY"

/-- Functions of one number that the machine itself provides. -/
inductive Builtin where
  | sin
  | cos
  deriving DecidableEq, Repr

def Builtin.name : Builtin → String
  | .sin => "sin"
  | .cos => "cos"

def Builtin.upperName : Builtin → String
  | .sin => "SIN"
  | .cos => "COS"

def Builtin.all : List Builtin := [.sin, .cos]

def Builtin.ofName? (name : String) : Option Builtin :=
  all.find? fun builtin => builtin.name = name

/-- The classes of errors that reports distinguish. -/
inductive ErrorKind where
  | syntaxError
  | typeError
  | nameError
  | runtimeError
  | divisionByZero
  deriving DecidableEq, Repr

def ErrorKind.name : ErrorKind → String
  | .syntaxError => "SyntaxError"
  | .typeError => "TypeError"
  | .nameError => "NameError"
  | .runtimeError => "RuntimeError"
  | .divisionByZero => "DivisionByZero"

inductive Fault where
  | invalidInstruction
  | expectedAddress (op : Opcode)
  | inconsistentDatatypes (op : Opcode)
  | inconsistentArrayDatatypes (op : Opcode)
  | notSupported (op : Opcode) (kind : Kind)
  | divisionByZero (op : Opcode)
  | conditionExpectedBoolean
  | expectedArray
  | inconsistentIndexDatatypes
  | syscallNotSupported (builtin : Builtin) (kind : Kind)
  | syscallInconsistentDatatypes (builtin : Builtin)
  | unknownSyscall
  | noReturnPoint
  | unboundDynamicVariable (index : UInt32)
  | stackUnderflow
  | stackOverflow
  | frameOverflow
  deriving DecidableEq, Repr

namespace Fault

def name : Fault → String
  | .invalidInstruction => "EXEC_ERROR_INVALID_INSTRUCTION"
  | .expectedAddress op => s!"EXEC_ERROR_{op.name}_EXPECTED_ADDRESS"
  | .inconsistentDatatypes op => s!"EXEC_ERROR_{op.name}_INCONSISTENT_DATATYPES"
  | .inconsistentArrayDatatypes op => s!"EXEC_ERROR_{op.name}_INCONSISTENT_ARRAY_DATATYPES"
  | .notSupported op kind => s!"EXEC_ERROR_{op.name}_{kind.upperName}_NOT_SUPPORTED"
  | .divisionByZero op => s!"EXEC_ERROR_{op.name}_DIV_BY_0"
  | .conditionExpectedBoolean => "EXEC_ERROR_JUMPIFFALSE_CONDITION_EXPECTED_BOOLEAN"
  | .expectedArray => "EXEC_ERROR_PUTINDADDR_EXPECTED_ARRAY"
  | .inconsistentIndexDatatypes => "EXEC_ERROR_PUTINDADDR_INCONSISTENT_INDEX_DATATYPES"
  | .syscallNotSupported builtin kind =>
      s!"EXEC_ERROR_SYSCALL_{builtin.upperName}_{kind.upperName}_NOT_SUPPORTED"
  | .syscallInconsistentDatatypes builtin =>
      s!"EXEC_ERROR_SYSCALL_{builtin.upperName}_INCONSISTENT_DATATYPES"
  | .unknownSyscall => "EXEC_ERROR_SYSCALL_UNKNOWN_FUNCTION"
  | .noReturnPoint => "EXEC_ERROR_RETURN_NO_RETURN_POINT"
  | .unboundDynamicVariable _ => "EXEC_ERROR_UNBOUND_DYNAMIC_VARIABLE"
  | .stackUnderflow => "EXEC_ERROR_STACK_UNDERFLOW"
  | .stackOverflow => "EXEC_ERROR_STACK_OVERFLOW"
  | .frameOverflow => "EXEC_ERROR_FRAME_OVERFLOW"

def message : Fault → String
  | .invalidInstruction => "invalid instruction byte"
  | .expectedAddress op => s!"{op.name} expected an address operand"
  | .inconsistentDatatypes op => s!"{op.name} got inconsistent operand datatypes"
  | .inconsistentArrayDatatypes op => s!"{op.name} got incompatible array datatypes"
  | .notSupported op kind => s!"{op.name} does not support {kind.name} operands"
  | .divisionByZero op => s!"{op.name} divided by zero"
  | .conditionExpectedBoolean => "condition is not a boolean"
  | .expectedArray => "indexed value is not an array"
  | .inconsistentIndexDatatypes => "index datatypes do not match the array declaration"
  | .syscallNotSupported builtin kind => s!"{builtin.name} does not support {kind.name} arguments"
  | .syscallInconsistentDatatypes builtin =>
      s!"{builtin.name} got an argument of an inconsistent datatype"
  | .unknownSyscall => "unknown system function"
  | .noReturnPoint => "RETURN without an active call frame"
  | .unboundDynamicVariable index =>
      s!"dynamic variable {index.toNat} has no slot in the active frame"
  | .stackUnderflow => "operand stack underflow"
  | .stackOverflow => "operand stack overflow"
  | .frameOverflow => "call stack overflow"

def errorKind : Fault → ErrorKind
  | .divisionByZero _ => .divisionByZero
  | .inconsistentDatatypes _ | .inconsistentArrayDatatypes _ | .notSupported _ _
  | .conditionExpectedBoolean | .inconsistentIndexDatatypes | .syscallNotSupported _ _
  | .syscallInconsistentDatatypes _ => .typeError
  | _ => .runtimeError

end Fault

end StackScript
