import StackScript.Decimal.Layout
import StackScript.Decimal.Reader
import StackScript.Instruction.Basic
import StackScript.Text.Blank

namespace StackScript

/-! Instructions as text: the name of the operation and its operand, all on one line. -/

/-- Floats in listings and values: positional from a ten-thousandth to below ten quadrillions. -/
def floatText : Decimal.Layout where
  tie := .up
  plainFrom := -4
  plainTo := 15
  plusSign := false
  nan := "NaN"
  infinity := "inf"
  negativeInfinity := "-inf"

namespace Instruction

/-- Keeps a string operand on one line. -/
def escape : List Char → List Char
  | [] => []
  | c :: rest =>
      match c with
      | '\\' => '\\' :: '\\' :: escape rest
      | '\n' => '\\' :: 'n' :: escape rest
      | '\r' => '\\' :: 'r' :: escape rest
      | c => c :: escape rest

def render (instruction : Instruction) : String :=
  let name := instruction.opcode.name
  match instruction with
  | .putAddr word | .putDAddr word | .putMemberAddr word | .call word | .ret word | .initVar word
  | .allocVar word | .allocVars word | .jump word | .jumpIfFalse word =>
      s!"{name} {word.toNat}"
  | .putIndAddr count => s!"{name} {count.toNat}"
  | .putInt value => s!"{name} {value.toInt}"
  | .putFloat bits => s!"{name} {floatText.render bits}"
  | .putString text => name ++ " \"" ++ String.ofList (escape text.toList) ++ "\""
  | .putBoolean value => if value then s!"{name} 1" else s!"{name} 0"
  | .syscall word function => s!"{name} {word.toNat} {function}"
  | .nop | .assign _ | .compare _ | .arith _ | .neg | .stop => name

/-- Why a line is no instruction. -/
inductive ReadError where
  | unknown (name : String)
  | operand (text : String) (op : Opcode) (cause : Decimal.IntegerError)
  | indexCount (text : String) (cause : Decimal.IntegerError)
  | integer (text : String) (cause : Decimal.IntegerError)
  | float (text : String) (cause : Decimal.FloatError)
  | unquoted (text : String)
  | unknownEscape (c : Char)
  | danglingEscape
  | syscallOperands (text : String)
  | tableEntry (op : Opcode)
  deriving DecidableEq, Repr

def ReadError.message : ReadError → String
  | .unknown name => s!"Unknown instruction '{name}'"
  | .operand text op cause => s!"Invalid operand '{text}' for {op.name}: {cause.message}"
  | .indexCount text cause => s!"Invalid index count '{text}': {cause.message}"
  | .integer text cause => s!"Invalid integer '{text}': {cause.message}"
  | .float text cause => s!"Invalid float '{text}': {cause.message}"
  | .unquoted text => s!"Unquoted string operand '{text}'"
  | .unknownEscape c => "Unknown escape '\\" ++ c.toString ++ "' in string operand"
  | .danglingEscape => "Dangling '\\' in string operand"
  | .syscallOperands text => s!"SYSCALL needs an index and a name: '{text}'"
  | .tableEntry op => s!"{op.name} is a table entry, not an instruction"

def unescape : List Char → Except ReadError (List Char)
  | [] => .ok []
  | ['\\'] => .error .danglingEscape
  | '\\' :: c :: rest =>
      match c with
      | '\\' => (unescape rest).map ('\\' :: ·)
      | 'n' => (unescape rest).map ('\n' :: ·)
      | 'r' => (unescape rest).map ('\r' :: ·)
      | c => .error (.unknownEscape c)
  | c :: rest => (unescape rest).map (c :: ·)

/-- The text between a quote at the front and another at the end. -/
def unquote? : List Char → Option (List Char)
  | '"' :: rest =>
      match rest.getLast? with
      | some '"' => some rest.dropLast
      | _ => none
  | _ => none

def readWordOperand (op : Opcode) (text : List Char) : Except ReadError UInt32 :=
  (Decimal.readWord text).mapError (.operand (String.ofList text) op)

/-- The operands of an operation; those without operands ignore the rest of the line. -/
def readOperands (op : Opcode) (rest : List Char) : Except ReadError Instruction :=
  let quoted := String.ofList rest
  match plain? op, ofWord? op with
  | some instruction, _ => .ok instruction
  | none, some build => (readWordOperand op rest).map build
  | none, none =>
      match op with
      | .putIndAddr => ((Decimal.readByte rest).mapError (.indexCount quoted)).map .putIndAddr
      | .putInt => ((Decimal.readInteger rest).mapError (.integer quoted)).map .putInt
      | .putFloat => ((Decimal.readFloat rest).mapError (.float quoted)).map .putFloat
      | .putBoolean => .ok (.putBoolean (rest != ['0']))
      | .putString =>
          match unquote? rest with
          | some inner => (unescape inner).map fun text => .putString (String.ofList text)
          | none => .error (.unquoted quoted)
      | .syscall =>
          match Text.splitOnce ' ' rest with
          | some (index, function) =>
              (readWordOperand op index).map fun word =>
                .syscall word (String.ofList (Text.trim function))
          | none => .error (.syscallOperands quoted)
      | op => .error (.tableEntry op)

/-- One line of a listing, without its offset. -/
def read (line : String) : Except ReadError Instruction :=
  let line := Text.trim line.toList
  let (name, rest) :=
    match Text.splitOnce ' ' line with
    | some (name, rest) => (name, Text.trim rest)
    | none => (line, [])
  match Opcode.ofName? (String.ofList name) with
  | some op => readOperands op rest
  | none => .error (.unknown (String.ofList name))

end Instruction

end StackScript
