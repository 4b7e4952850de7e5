import StackScript.Instruction.Codec
import StackScript.Ty.Descriptor

namespace StackScript

/-! Units of code with the variable table. The offsets of all code addresses in a unit are kept,
so that units can be joined: the addresses of the second unit grow by the length of the first. -/

/-- How a declared symbol is stored: for the whole run, in the active frame, or as code. -/
inductive Entry.Storage where
  | data
  | ddata
  | function (params : List Ty) (code : UInt32)
  deriving DecidableEq, Repr

/-- A record of the variable table. -/
structure Entry where
  storage : Entry.Storage
  name : String
  scope : String
  ty : Ty
  deriving DecidableEq, Repr

def Entry.qualifiedName (entry : Entry) : String :=
  s!"{entry.scope}.{entry.name}"

def Entry.Storage.opcode : Entry.Storage → Opcode
  | .data => .data
  | .ddata => .ddata
  | .function _ _ => .function

def Entry.isData (entry : Entry) : Bool :=
  entry.storage = .data

/-- A function and the offset where its code starts. -/
structure FunctionRef where
  symbol : Nat
  offset : Nat
  deriving DecidableEq, Repr

structure CodeUnit where
  table : List Entry
  code : List UInt8
  /-- Offsets of the code addresses that jumps hold. -/
  jumps : List Nat
  functions : List FunctionRef
  deriving DecidableEq, Repr

namespace CodeUnit

def empty : CodeUnit where
  table := []
  code := []
  jumps := []
  functions := []

instance : EmptyCollection CodeUnit := ⟨empty⟩

instance : Inhabited CodeUnit := ⟨empty⟩

def size (unit : CodeUnit) : Nat :=
  unit.code.length

/-- The word at an offset of some code. -/
def wordAt? (code : List UInt8) (offset : Nat) : Option UInt32 :=
  (Bytes.readWord? (code.drop offset)).map Prod.fst

/-- Replaces the word at an offset, if the code reaches that far. -/
def setWord? (code : List UInt8) (offset : Nat) (value : UInt32) : Option (List UInt8) :=
  (Bytes.readWord? (code.drop offset)).map fun found =>
    code.take offset ++ Bytes.ofWord value ++ found.2

def setAddress? (unit : CodeUnit) (offset : Nat) (value : UInt32) : Option CodeUnit :=
  (setWord? unit.code offset value).map fun code => { unit with code }

def addJump (unit : CodeUnit) (offset : Nat) : CodeUnit :=
  { unit with jumps := unit.jumps ++ [offset] }

def addFunction (unit : CodeUnit) (symbol offset : Nat) : CodeUnit :=
  { unit with functions := unit.functions ++ [{ symbol, offset }] }

def addEntry (unit : CodeUnit) (entry : Entry) : CodeUnit :=
  { unit with table := unit.table ++ [entry] }

/-- The offsets, counted from the instruction, of the code addresses that it holds. -/
def jumpOffsets (instruction : Instruction) : List Nat :=
  if instruction.target?.isSome then [1] else []

/-- Appends an instruction as it is; a jump goes to its target in the whole unit. -/
def push (unit : CodeUnit) (instruction : Instruction) : CodeUnit :=
  { unit with
    code := unit.code ++ instruction.encode
    jumps := unit.jumps ++ (jumpOffsets instruction).map (· + unit.size) }

/-- A unit of one instruction; a jump goes to its target counted from the jump itself. -/
def single (instruction : Instruction) : CodeUnit :=
  empty.push instruction

/-- The offsets of the code addresses in some instructions, of which the first has an offset. -/
def jumpsFrom : (offset : Nat) → List Instruction → List Nat
  | _, [] => []
  | offset, instruction :: rest =>
      (jumpOffsets instruction).map (· + offset) ++
        jumpsFrom (offset + instruction.encode.length) rest

/-- A unit of some instructions; jumps go to their targets in the whole unit. -/
def ofInstructions (instructions : List Instruction) : CodeUnit where
  table := []
  code := instructions.flatMap Instruction.encode
  jumps := jumpsFrom 0 instructions
  functions := []

theorem jumpsFrom_concat (offset : Nat) (front : List Instruction) (last : Instruction) :
    jumpsFrom offset (front ++ [last]) =
      jumpsFrom offset front ++
        (jumpOffsets last).map (· + (offset + (front.flatMap Instruction.encode).length)) := by
  induction front generalizing offset with
  | nil => simp [jumpsFrom]
  | cons first rest induction => simp [jumpsFrom, induction, Nat.add_assoc]

/-- Appending instructions one by one gives the same unit. -/
theorem ofInstructions_concat (front : List Instruction) (last : Instruction) :
    ofInstructions (front ++ [last]) = (ofInstructions front).push last := by
  simp [ofInstructions, push, size, jumpsFrom_concat]

/-- Replaces bytes from an offset on, as far as the code reaches. -/
def overwrite : (offset : Nat) → List UInt8 → Array UInt8 → Array UInt8
  | _, [], code => code
  | offset, byte :: rest, code => overwrite (offset + 1) rest (code.setIfInBounds offset byte)

/-- Adds to the word at an offset; an offset past the end has no word. -/
def shiftWord (base : UInt32) (code : Array UInt8) (offset : Nat) : Array UInt8 :=
  match code[offset]?, code[offset + 1]?, code[offset + 2]?, code[offset + 3]? with
  | some a, some b, some c, some d =>
      overwrite offset (Bytes.ofWord (Bytes.toWord [a, b, c, d] + base)) code
  | _, _, _, _ => code

/-- Adds `base` to the word at each of the offsets. -/
def relocate (base : Nat) (code : List UInt8) (offsets : List Nat) : List UInt8 :=
  (offsets.foldl (shiftWord (UInt32.ofNat base)) code.toArray).toList

/-- Joins two units. The variable table of the second is not taken over. -/
def append (left right : CodeUnit) : CodeUnit :=
  let base := left.size
  { table := left.table
    code := left.code ++ relocate base right.code right.jumps
    jumps := left.jumps ++ right.jumps.map (· + base)
    functions := left.functions ++
      right.functions.map fun f => { f with offset := f.offset + base } }

instance : Append CodeUnit := ⟨append⟩

def decodeAt? (unit : CodeUnit) (offset : Nat) : Option (Instruction × Nat) :=
  (Instruction.decode? (unit.code.drop offset)).map fun result =>
    (result.1, offset + result.2)

/-- A place of the code: an instruction, or a byte at which none can be decoded. -/
inductive Site where
  | instruction (value : Instruction)
  | invalid (byte : UInt8)
  deriving DecidableEq, Repr

/-- Reads code from one end to the other, passing over an undecodable byte alone. -/
def sitesFrom : (fuel offset : Nat) → List UInt8 → List (Nat × Site)
  | 0, _, _ => []
  | _, _, [] => []
  | fuel + 1, offset, byte :: rest =>
      match Instruction.decode? (byte :: rest) with
      | some (instruction, width) =>
          (offset, .instruction instruction) ::
            sitesFrom fuel (offset + width) ((byte :: rest).drop width)
      | none => (offset, .invalid byte) :: sitesFrom fuel (offset + 1) rest

def sites (unit : CodeUnit) : List (Nat × Site) :=
  sitesFrom unit.size 0 unit.code

def instructions? (unit : CodeUnit) : Option (List (Nat × Instruction)) :=
  unit.sites.mapM fun
    | (offset, .instruction instruction) => some (offset, instruction)
    | (_, .invalid _) => none

end CodeUnit

end StackScript
