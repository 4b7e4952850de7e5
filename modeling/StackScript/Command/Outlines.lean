import StackScript.Diagnostic.Tree
import StackScript.Machine.Run
import StackScript.Text.Outline
import StackScript.Value.Text

namespace StackScript

/-! Diagnostics and variables drawn as trees. -/

namespace Diagnostic

mutual

def outline : Diagnostic → Text.Outline
  | .node position cause confidence children =>
      .node (label (.node position cause confidence children)) (outlines children)

def outlines : List Diagnostic → List Text.Outline
  | [] => []
  | child :: rest => child.outline :: outlines rest

end

end Diagnostic

namespace Value

mutual

/-- A value behind a label; the cells of an array are the children of its node. -/
def outline (label : String) : Value → Text.Outline
  | .atom a => .node (label ++ " = " ++ a.render) []
  | .array ⟨_, _, cells⟩ =>
      .node (label ++ " (" ++ toString cells.length ++ " elements)") (cellOutlines cells)

def cellOutlines : List (Key × Value) → List Text.Outline
  | [] => []
  | (key, value) :: rest => value.outline ("[" ++ key.render ++ "]") :: cellOutlines rest

end

end Value

def VariableState.outline (v : VariableState) : Text.Outline :=
  let label :=
    s!"{v.entry.qualifiedName} {v.entry.storage.opcode.name} {v.entry.ty.descriptor}"
  match v.value with
  | some value => value.outline label
  | none => .node label []

def Execution.outline (execution : Execution) : Text.Outline :=
  .node s!"Variables ({execution.status.name})" (execution.finals.map VariableState.outline)

end StackScript
