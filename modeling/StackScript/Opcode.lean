namespace StackScript

/-! Operation codes. Three of them mark records of the variable table and never occur in code. -/

inductive Opcode where
  | nop
  | data
  | putAddr
  | putIndAddr
  | putMemberAddr
  | putInt
  | putFloat
  | putString
  | putBoolean
  | move
  | moveAdd
  | moveSubtr
  | moveMul
  | moveDiv
  | equal
  | notEqual
  | lessEqual
  | greaterEqual
  | less
  | greater
  | jumpIfFalse
  | jump
  | mul
  | div
  | add
  | sub
  | neg
  | stop
  | call
  | function
  | syscall
  | ret
  | initVar
  | putDAddr
  | allocVar
  | ddata
  | allocVars
  deriving DecidableEq, Repr, Inhabited

namespace Opcode

/-- All operation codes in the order of their bytes, which count from zero. -/
def all : List Opcode :=
  [.nop, .data, .putAddr, .putIndAddr, .putMemberAddr, .putInt, .putFloat, .putString, .putBoolean,
    .move, .moveAdd, .moveSubtr, .moveMul, .moveDiv, .equal, .notEqual, .lessEqual, .greaterEqual,
    .less, .greater, .jumpIfFalse, .jump, .mul, .div, .add, .sub, .neg, .stop, .call, .function,
    .syscall, .ret, .initVar, .putDAddr, .allocVar, .ddata, .allocVars]

def ofByte? (byte : UInt8) : Option Opcode :=
  all[byte.toNat]?

def toByte (op : Opcode) : UInt8 :=
  UInt8.ofNat op.ctorIdx

@[simp] theorem ofByte?_toByte (op : Opcode) : ofByte? op.toByte = some op := by
  cases op <;> rfl

/-- Bytes of operands of fixed width; a string or a syscall name follows them. -/
def operandWidth : Opcode → Nat
  | .putAddr | .putDAddr | .call | .allocVar | .allocVars | .initVar | .ret | .putMemberAddr
  | .jump | .jumpIfFalse | .syscall => 4
  | .putInt => 8
  | .putFloat => 12
  | .putBoolean | .putIndAddr => 1
  | _ => 0

def isTableEntry : Opcode → Bool
  | .data | .ddata | .function => true
  | _ => false

def name : Opcode → String
  | .nop => "NOP"
  | .data => "DATA"
  | .putAddr => "PUTADDR"
  | .putIndAddr => "PUTINDADDR"
  | .putMemberAddr => "PUTMEMBERADDR"
  | .putInt => "PUTINT"
  | .putFloat => "PUTFLOAT"
  | .putString => "PUTSTRING"
  | .putBoolean => "PUTBOOLEAN"
  | .move => "MOVE"
  | .moveAdd => "MOVEADD"
  | .moveSubtr => "MOVESUBTR"
  | .moveMul => "MOVEMUL"
  | .moveDiv => "MOVEDIV"
  | .equal => "EQUAL"
  | .notEqual => "NOTEQUAL"
  | .lessEqual => "LESSEQUAL"
  | .greaterEqual => "GREATEREQUAL"
  | .less => "LESS"
  | .greater => "GREATER"
  | .jumpIfFalse => "JUMPIFFALSE"
  | .jump => "JUMP"
  | .mul => "MUL"
  | .div => "DIV"
  | .add => "ADD"
  | .sub => "SUB"
  | .neg => "NEG"
  | .stop => "END"
  | .call => "CALL"
  | .function => "FUN"
  | .syscall => "SYSCALL"
  | .ret => "RETURN"
  | .initVar => "INITVAR"
  | .putDAddr => "PUTDADDR"
  | .allocVar => "ALLOCVAR"
  | .ddata => "DDATA"
  | .allocVars => "ALLOCVARS"

def ofName? (name : String) : Option Opcode :=
  all.find? fun op => op.name = name

@[simp] theorem ofName?_name (op : Opcode) : ofName? op.name = some op := by
  cases op <;> rfl

end Opcode

end StackScript
