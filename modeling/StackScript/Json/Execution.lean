import StackScript.Decimal.Layout
import StackScript.Json.Document
import StackScript.Machine.Run

namespace StackScript

/-! Executions as JSON documents. -/

/-- Floats in JSON: an exponent always has its sign, and what is no number is null. -/
def jsonFloat : Decimal.Layout where
  tie := .even
  plainFrom := -5
  plainTo := 15
  plusSign := true
  nan := "null"
  infinity := "null"
  negativeInfinity := "null"

def Atom.document : Atom → Json.Document
  | .int n => .number (toString n.toInt)
  | .float x => .number (jsonFloat.render x.toBits)
  | .str s => .string s
  | .bool b => .bool b

def Scalar.document (s : Scalar) : Json.Document :=
  .string (Ty.scalar s).descriptor

namespace Value

mutual

/-- Values have no tags; an array shows its types and its cells. -/
def document : Value → Json.Document
  | .atom a => a.document
  | .array ⟨index, element, cells⟩ =>
      .object
        [("index", .list (index.map Scalar.document)), ("element", .string element.descriptor),
          ("elements", .list (cellDocuments cells))]

def cellDocuments : List (Key × Value) → List Json.Document
  | [] => []
  | (key, value) :: rest =>
      .object [("indexes", .list (key.map Atom.document)), ("value", document value)] ::
        cellDocuments rest

end

end Value

def VariableState.document (v : VariableState) : Json.Document :=
  .object
    ([("index", .number (toString v.index)), ("name", .string v.entry.name),
      ("scope", .string v.entry.scope), ("kind", .string v.entry.storage.opcode.name),
      ("type", .string v.entry.ty.descriptor)] ++
    match v.value with
    | some value => [("value", value.document)]
    | none => [])

def Execution.document (execution : Execution) : Json.Document :=
  .object
    [("status", .string execution.status.name),
      ("variables", .list (execution.finals.map VariableState.document))]

end StackScript
