import StackScript.CodeUnit.Basic

namespace StackScript

/-! Compiled programs as files: a magic word, a version, the variable table, and the code. Texts
and lists stand behind their lengths, which are words. -/

namespace Image

def magic : List UInt8 := [0x51, 0x55, 0x49, 0x4c]

def version : UInt8 := 1

/-- Why some bytes are no compiled program. -/
inductive ReadError where
  | tooShort
  | wrongMagic
  | unsupportedVersion (version : UInt8)
  | truncatedTable
  | unexpectedEnd
  | unexpectedEndInText
  | invalidUtf8 (cause : Text.Utf8.DecodeError)
  | descriptor (cause : Ty.DescriptorError)
  | invalidTag (tag : UInt8)
  | truncatedCode
  deriving DecidableEq, Repr

def ReadError.message : ReadError → String
  | .tooShort => "Invalid file: too short"
  | .wrongMagic => "Invalid file: not a .qlc file"
  | .unsupportedVersion version => s!"Unsupported version: {version.toNat}"
  | .truncatedTable => "Invalid file: truncated variable table"
  | .unexpectedEnd => "Unexpected end of file"
  | .unexpectedEndInText => "Unexpected end of file in string"
  | .invalidUtf8 cause => s!"Invalid UTF-8: {cause.message}"
  | .descriptor cause => cause.message
  | .invalidTag tag => s!"Invalid variable table record tag: {tag.toNat}"
  | .truncatedCode => "Invalid file: truncated code"

def encodeLength (length : Nat) : List UInt8 :=
  Bytes.ofWord (UInt32.ofNat length)

def encodeText (text : String) : List UInt8 :=
  let bytes := Text.Utf8.encode text.toList
  encodeLength bytes.length ++ bytes

def encodeTy (ty : Ty) : List UInt8 :=
  encodeText ty.descriptor

def encodeStorage : Entry.Storage → List UInt8
  | .data | .ddata => []
  | .function params code =>
      Bytes.ofWord code ++ encodeLength params.length ++ params.flatMap encodeTy

def encodeEntry (entry : Entry) : List UInt8 :=
  entry.storage.opcode.toByte :: encodeText entry.name ++ encodeText entry.scope ++
    encodeTy entry.ty ++ encodeStorage entry.storage

/-- The bytes of a program. What is needed to join it with other units is not kept. -/
def write (unit : CodeUnit) : List UInt8 :=
  magic ++ version :: encodeLength unit.table.length ++ unit.table.flatMap encodeEntry ++
    encodeLength unit.code.length ++ unit.code

/-- Whether some bytes start as a compiled program does. -/
def isImage (bytes : List UInt8) : Bool :=
  magic.isPrefixOf bytes

/-- A reader takes what it needs from the front. -/
abbrev Reader (α : Type) := StateT (List UInt8) (Except ReadError) α

namespace Reader

def word : Reader UInt32 := fun bytes =>
  match Bytes.readWord? bytes with
  | some (word, rest) => .ok (word, rest)
  | none => .error .unexpectedEnd

def take (count : Nat) (shortage : ReadError) : Reader (List UInt8) := fun bytes =>
  match Bytes.split? count bytes with
  | some (front, rest) => .ok (front, rest)
  | none => .error shortage

def text : Reader String := do
  let length ← word
  let bytes ← take length.toNat .unexpectedEndInText
  match Text.Utf8.decode bytes with
  | .ok chars => pure (String.ofList chars)
  | .error cause => throw (.invalidUtf8 cause)

def ty : Reader Ty := do
  match Ty.ofDescriptor (← text) with
  | .ok ty => pure ty
  | .error cause => throw (.descriptor cause)

def repeated {α : Type} (reader : Reader α) : Nat → Reader (List α)
  | 0 => pure []
  | count + 1 => do
      let first ← reader
      let rest ← repeated reader count
      pure (first :: rest)

def storage (tag : UInt8) : Reader Entry.Storage := do
  match Opcode.ofByte? tag with
  | some .data => pure .data
  | some .ddata => pure .ddata
  | some .function =>
      let code ← word
      let count ← word
      let params ← repeated ty count.toNat
      pure (.function params code)
  | _ => throw (.invalidTag tag)

def entry : Reader Entry := do
  let tag ← take 1 .truncatedTable
  let name ← text
  let scope ← text
  let ty ← ty
  let storage ← storage (tag.headD 0)
  pure { storage, name, scope, ty }

def program : Reader CodeUnit := do
  let count ← word
  let table ← repeated entry count.toNat
  let length ← word
  let code ← take length.toNat .truncatedCode
  pure { table, code, jumps := [], functions := [] }

end Reader

/-- The program that some bytes hold. Bytes after the code are ignored. -/
def read (bytes : List UInt8) : Except ReadError CodeUnit :=
  if bytes.length < 5 then .error .tooShort
  else if !isImage bytes then .error .wrongMagic
  else
    match bytes.drop 4 with
    | found :: rest =>
        if found = version then (Reader.program rest).map Prod.fst
        else .error (.unsupportedVersion found)
    | [] => .error .tooShort

end Image

end StackScript
