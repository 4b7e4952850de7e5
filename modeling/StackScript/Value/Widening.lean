import StackScript.Value.Basic

namespace StackScript

/-! Widening of values to a type that accepts them: ints become floats, also inside arrays. -/

/-- A key with each index widened to its declared type. -/
def Key.widen (key : Key) (index : List Scalar) : Key :=
  List.zipWith Atom.widen key index

namespace Value

mutual

/-- Widens a value; an array that has the type already stays as it is. -/
def widen : Value → Ty → Value
  | .atom a, .scalar s => .atom (a.widen s)
  | .array ⟨index, element, cells⟩, .array index' element' =>
      if index = index' ∧ element = element' then .array ⟨index, element, cells⟩
      else .array ⟨index', element', widenCells cells index' element'⟩
  | value, _ => value

def widenCells : List (Key × Value) → List Scalar → Ty → List (Key × Value)
  | [], _, _ => []
  | (key, value) :: rest, index, element =>
      (key.widen index, widen value element) :: widenCells rest index element

end

end Value

/-- A copy of an array with the given types. -/
def Sparse.widen (a : Sparse Value) (index : List Scalar) (element : Ty) : Sparse Value where
  index := index
  element := element
  cells := Value.widenCells a.cells index element

end StackScript
