import StackScript.Bytes.LittleEndian
import StackScript.Instruction.Basic
import StackScript.Text.Utf8

namespace StackScript.Instruction

/-! Instructions as bytes: the operation code, operands of fixed width, then a text that a zero
byte ends. A float takes twelve bytes, of which the last four are padding. -/

def encodeText (text : String) : List UInt8 :=
  Text.Utf8.encode text.toList ++ [0]

def operands : Instruction → List UInt8
  | .putAddr word | .putDAddr word | .putMemberAddr word | .call word | .ret word | .initVar word
  | .allocVar word | .allocVars word | .jump word | .jumpIfFalse word => Bytes.ofWord word
  | .putIndAddr count => [count]
  | .putInt value => Bytes.ofNat 8 value.toUInt64.toNat
  | .putFloat bits => Bytes.ofNat 8 bits.toNat ++ [0, 0, 0, 0]
  | .putString text => encodeText text
  | .putBoolean value => [if value then 1 else 0]
  | .syscall word name => Bytes.ofWord word ++ encodeText name
  | .nop | .assign _ | .compare _ | .arith _ | .neg | .stop => []

def encode (instruction : Instruction) : List UInt8 :=
  instruction.opcode.toByte :: instruction.operands

/-- A zero-terminated text with the number of bytes it takes. -/
def decodeText? (bytes : List UInt8) : Option (String × Nat) :=
  let body := bytes.takeWhile (· != 0)
  match bytes.dropWhile (· != 0), Text.Utf8.decode body with
  | _ :: _, .ok chars => some (String.ofList chars, body.length + 1)
  | _, _ => none

/-- The operands of an operation at the front of some bytes, and their width. -/
def decodeOperands? (op : Opcode) (bytes : List UInt8) : Option (Instruction × Nat) :=
  match plain? op, ofWord? op with
  | some instruction, _ => some (instruction, 0)
  | none, some build => do
      let (word, _) ← Bytes.readWord? bytes
      some (build word, 4)
  | none, none =>
      match op with
      | .putIndAddr =>
          match bytes with
          | count :: _ => some (.putIndAddr count, 1)
          | [] => none
      | .putBoolean =>
          match bytes with
          | byte :: _ => some (.putBoolean (byte != 0), 1)
          | [] => none
      | .putInt => do
          let (value, _) ← Bytes.read? 8 bytes
          some (.putInt (UInt64.ofNat value).toInt64, 8)
      | .putFloat => do
          let (fixed, _) ← Bytes.split? 12 bytes
          some (.putFloat (UInt64.ofNat (Bytes.toNat (fixed.take 8))), 12)
      | .putString => do
          let (text, width) ← decodeText? bytes
          some (.putString text, width)
      | .syscall => do
          let (word, rest) ← Bytes.readWord? bytes
          let (name, width) ← decodeText? rest
          some (.syscall word name, 4 + width)
      | _ => none

/-- The instruction at the front of some bytes, and its width. -/
def decode? : List UInt8 → Option (Instruction × Nat)
  | [] => none
  | byte :: rest => do
      let op ← Opcode.ofByte? byte
      let (instruction, width) ← decodeOperands? op rest
      some (instruction, width + 1)

end StackScript.Instruction
