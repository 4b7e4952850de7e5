import StackScript.Instruction.Text
import StackScript.Value.Basic

namespace StackScript

/-! Values as text. Strings stand between quotes and nothing in them is escaped. -/

def Atom.render : Atom → String
  | .int n => toString n.toInt
  | .float x => floatText.render x.toBits
  | .str s => "\"" ++ s ++ "\""
  | .bool b => if b then "true" else "false"

def Key.render (key : Key) : String :=
  ",".intercalate (key.map Atom.render)

namespace Value

mutual

def render : Value → String
  | .atom a => a.render
  | .array ⟨_, _, cells⟩ => "[" ++ ", ".intercalate (renderCells cells) ++ "]"

def renderCells : List (Key × Value) → List String
  | [] => []
  | (key, value) :: rest => ("[" ++ key.render ++ "]: " ++ render value) :: renderCells rest

end

end Value

end StackScript
