import StackScript.Value.Basic

namespace StackScript.Value

/-! Equality of values. Arrays are equal if they have as many cells and every cell of the first has
an equal value under its key in the second; the order of cells and the declared types do not count.
Under a key, the value of the second array is compared with the value of the first. -/

mutual

/-- Whether the first value equals the second. -/
def equal : Value → Value → Bool
  | .atom a, .atom b => a == b
  | .array ⟨_, _, cells⟩, .array b =>
      cells.length == b.cells.length && cellsIn cells b
  | _, _ => false

/-- Whether the second value equals the first. -/
def equalBy : Value → Value → Bool
  | .atom a, .atom b => b == a
  | .array ⟨_, _, cells⟩, .array b =>
      b.cells.length == cells.length && b.cells.all fun cell => holds cells cell.1 cell.2
  | _, _ => false

/-- Whether every cell has its like in an array. -/
def cellsIn : List (Key × Value) → Sparse Value → Bool
  | [], _ => true
  | (key, value) :: rest, b =>
      (match b.find? key with
        | some other => equalBy value other
        | none => false) &&
      cellsIn rest b

/-- Whether the first cell with this key exists and equals the value. -/
def holds : List (Key × Value) → Key → Value → Bool
  | [], _, _ => false
  | (key, value) :: rest, sought, other =>
      if key == sought then equal value other else holds rest sought other

end

instance : BEq Value := ⟨equal⟩

end StackScript.Value
