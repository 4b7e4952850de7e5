import StackScript.Value.Arithmetic

namespace StackScript.Value

/-! Assignment to a cell, which keeps the type of the cell. -/

/-- Plain assignment: a value of the same kind, or an int for a float. An array is widened to the
type of the cell. -/
def store (value : Value) : Edit Value Unit := fun cell =>
  match cell, value with
  | .float _, .int n => .ok () (.float (nearestFloat n))
  | .array target, .array source =>
      if target.ty.accepts source.ty then .ok () ((Value.array source).widen target.ty)
      else .error (.inconsistentArrayDatatypes .move) cell
  | cell, value =>
      if cell.kind = value.kind then .ok () value
      else .error (.inconsistentDatatypes .move) cell

/-- Replaces a cell by the result of an operator on it. -/
def update (operator : Value → Except Fault Value) : Edit Value Unit := fun cell =>
  match operator cell with
  | .ok result => .ok () result
  | .error fault => .error fault cell

/-- Assigns with the operation that `op` names. An int cell takes no float, not even by an
operator. -/
def assign (op : Opcode) (value : Value) : Edit Value Unit := fun cell =>
  match Update.ofOpcode? op, cell, value with
  | some .set, cell, value => store value cell
  | _, .int n, .float _ => .error (.inconsistentDatatypes op) (.int n)
  | some .add, .array target, .array source =>
      editArray (Sparse.merge op source) (.array target)
  | some .add, cell, value => update (add op · value) cell
  | some .subtract, cell, value => update (sub op · value) cell
  | some .multiply, cell, value => update (mul op · value) cell
  | some .divide, .int n, value =>
      if value.toFloat?.isSome then .error (.inconsistentDatatypes op) (.int n)
      else update (div op · value) (.int n)
  | some .divide, cell, value => update (div op · value) cell
  | none, cell, _ => .error .invalidInstruction cell

end StackScript.Value
