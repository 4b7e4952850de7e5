import StackScript.CodeUnit.Basic
import StackScript.Instruction.Text
import StackScript.Text.Lines

namespace StackScript.CodeUnit

/-! The listing of a unit: its variable table, then its code with the function entries marked. -/

def entryLine (index : Nat) (entry : Entry) : String :=
  let signature :=
    match entry.storage with
    | .data | .ddata => entry.ty.descriptor
    | .function params code => s!"{code.toNat} {entry.ty.descriptor}:{Ty.descriptors params}"
  s!"{index} {entry.storage.opcode.name} {signature}\t\t; {entry.qualifiedName}"

/-- The function whose code starts here; the last one if there are several. -/
def entryPoint? (unit : CodeUnit) (offset : Nat) : Option Entry :=
  unit.table.reverse.find? fun entry =>
    match entry.storage with
    | .function _ code => code.toNat = offset
    | _ => false

def hexByte (byte : UInt8) : String :=
  Text.padLeft '0' 2 (String.ofList (Nat.toDigits 16 byte.toNat))

def siteLine (offset : Nat) (site : Site) : String :=
  let column := Text.padLeft '0' 4 (toString offset)
  match site with
  | .instruction instruction => s!"{column} {instruction.render}"
  | .invalid byte => s!"{column} <invalid 0x{hexByte byte}>"

def siteLines (unit : CodeUnit) (offset : Nat) (site : Site) : List String :=
  match unit.entryPoint? offset with
  | some entry => [s!"; {entry.qualifiedName}({entry.ty.descriptor})", siteLine offset site]
  | none => [siteLine offset site]

def listing (unit : CodeUnit) : List String :=
  unit.table.mapIdx entryLine ++
    unit.sites.flatMap fun place => unit.siteLines place.1 place.2

def disassembly (unit : CodeUnit) : String :=
  String.join (unit.listing.map (· ++ "\n"))

end StackScript.CodeUnit
