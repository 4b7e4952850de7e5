import StackScript.Opcode

namespace StackScript

/-! Executable instructions. Operands that name a record of the variable table or a place in the
code are 32-bit words; a float operand is kept as its bit pattern. -/

/-- How an assignment combines the old content of a cell with the new value. -/
inductive Update where
  | set
  | add
  | subtract
  | multiply
  | divide
  deriving DecidableEq, Repr

inductive Relation where
  | equal
  | notEqual
  | lessEqual
  | greaterEqual
  | less
  | greater
  deriving DecidableEq, Repr

inductive Arithmetic where
  | multiply
  | divide
  | add
  | subtract
  deriving DecidableEq, Repr

inductive Instruction where
  | nop
  | putAddr (entry : UInt32)
  | putIndAddr (count : UInt8)
  | putMemberAddr (member : UInt32)
  | putInt (value : Int64)
  | putFloat (bits : UInt64)
  | putString (value : String)
  | putBoolean (value : Bool)
  | assign (update : Update)
  | compare (relation : Relation)
  | jumpIfFalse (target : UInt32)
  | jump (target : UInt32)
  | arith (operation : Arithmetic)
  | neg
  | stop
  | call (entry : UInt32)
  | syscall (entry : UInt32) (name : String)
  | ret (entry : UInt32)
  | initVar (entry : UInt32)
  | putDAddr (entry : UInt32)
  | allocVar (entry : UInt32)
  | allocVars (entry : UInt32)
  deriving DecidableEq, Repr

def Update.opcode : Update → Opcode
  | .set => .move
  | .add => .moveAdd
  | .subtract => .moveSubtr
  | .multiply => .moveMul
  | .divide => .moveDiv

def Update.ofOpcode? : Opcode → Option Update
  | .move => some .set
  | .moveAdd => some .add
  | .moveSubtr => some .subtract
  | .moveMul => some .multiply
  | .moveDiv => some .divide
  | _ => none

@[simp] theorem Update.ofOpcode?_opcode (u : Update) : ofOpcode? u.opcode = some u := by
  cases u <;> rfl

def Relation.opcode : Relation → Opcode
  | .equal => .equal
  | .notEqual => .notEqual
  | .lessEqual => .lessEqual
  | .greaterEqual => .greaterEqual
  | .less => .less
  | .greater => .greater

def Relation.ofOpcode? : Opcode → Option Relation
  | .equal => some .equal
  | .notEqual => some .notEqual
  | .lessEqual => some .lessEqual
  | .greaterEqual => some .greaterEqual
  | .less => some .less
  | .greater => some .greater
  | _ => none

@[simp] theorem Relation.ofOpcode?_opcode (r : Relation) : ofOpcode? r.opcode = some r := by
  cases r <;> rfl

def Arithmetic.opcode : Arithmetic → Opcode
  | .multiply => .mul
  | .divide => .div
  | .add => .add
  | .subtract => .sub

namespace Instruction

def opcode : Instruction → Opcode
  | .nop => .nop
  | .putAddr _ => .putAddr
  | .putIndAddr _ => .putIndAddr
  | .putMemberAddr _ => .putMemberAddr
  | .putInt _ => .putInt
  | .putFloat _ => .putFloat
  | .putString _ => .putString
  | .putBoolean _ => .putBoolean
  | .assign update => update.opcode
  | .compare relation => relation.opcode
  | .jumpIfFalse _ => .jumpIfFalse
  | .jump _ => .jump
  | .arith operation => operation.opcode
  | .neg => .neg
  | .stop => .stop
  | .call _ => .call
  | .syscall _ _ => .syscall
  | .ret _ => .ret
  | .initVar _ => .initVar
  | .putDAddr _ => .putDAddr
  | .allocVar _ => .allocVar
  | .allocVars _ => .allocVars

/-- The code address that an instruction holds, if it is a jump. -/
def target? : Instruction → Option UInt32
  | .jump target => some target
  | .jumpIfFalse target => some target
  | _ => none

/-- Operations without operands. -/
def plain? : Opcode → Option Instruction
  | .nop => some .nop
  | .move => some (.assign .set)
  | .moveAdd => some (.assign .add)
  | .moveSubtr => some (.assign .subtract)
  | .moveMul => some (.assign .multiply)
  | .moveDiv => some (.assign .divide)
  | .equal => some (.compare .equal)
  | .notEqual => some (.compare .notEqual)
  | .lessEqual => some (.compare .lessEqual)
  | .greaterEqual => some (.compare .greaterEqual)
  | .less => some (.compare .less)
  | .greater => some (.compare .greater)
  | .mul => some (.arith .multiply)
  | .div => some (.arith .divide)
  | .add => some (.arith .add)
  | .sub => some (.arith .subtract)
  | .neg => some .neg
  | .stop => some .stop
  | _ => none

/-- Operations whose only operand is a word. -/
def ofWord? : Opcode → Option (UInt32 → Instruction)
  | .putAddr => some .putAddr
  | .putDAddr => some .putDAddr
  | .putMemberAddr => some .putMemberAddr
  | .call => some .call
  | .ret => some .ret
  | .initVar => some .initVar
  | .allocVar => some .allocVar
  | .allocVars => some .allocVars
  | .jump => some .jump
  | .jumpIfFalse => some .jumpIfFalse
  | _ => none

end Instruction

end StackScript
