import StackScript.Edit
import StackScript.Ty.Basic

namespace StackScript

/-! Runtime values: atoms, and sparse arrays that keep their cells in the order of creation. -/

inductive Atom where
  | int (n : Int64)
  | float (x : Float)
  | str (s : String)
  | bool (b : Bool)
  deriving Inhabited

/-- The float nearest to an int, and of two that are equally near the one with the even mantissa. -/
def nearestFloat (n : Int64) : Float :=
  .ofModel (.ofInt64 n)

/-- An index tuple. Index positions have scalar types, so no tuple holds an array. -/
abbrev Key := List Atom

/-- A sparse array with the types of its indexes and elements. -/
structure Sparse (α : Type) where
  index : List Scalar
  element : Ty
  cells : List (Key × α)

inductive Value where
  | atom (a : Atom)
  | array (a : Sparse Value)

namespace Atom

def scalar : Atom → Scalar
  | .int _ => .int
  | .float _ => .float
  | .str _ => .str
  | .bool _ => .bool

def default : Scalar → Atom
  | .int => .int 0
  | .float => .float 0
  | .str => .str ""
  | .bool => .bool false

@[simp] theorem scalar_default (s : Scalar) : (default s).scalar = s := by
  cases s <;> rfl

/-- Equality of content; floats compare as numbers, so a NaN differs from itself. -/
def equal : Atom → Atom → Bool
  | .int a, .int b => a == b
  | .float a, .float b => a == b
  | .str a, .str b => a == b
  | .bool a, .bool b => a == b
  | _, _ => false

instance : BEq Atom := ⟨equal⟩

def toFloat? : Atom → Option Float
  | .int n => some (nearestFloat n)
  | .float x => some x
  | .str _ | .bool _ => none

/-- Converts an int for a float position; all else stays as it is. -/
def widen : Atom → Scalar → Atom
  | .int n, .float => .float (nearestFloat n)
  | a, _ => a

def kind : Atom → Kind
  | .int _ => .int
  | .float _ => .float
  | .str _ => .string
  | .bool _ => .boolean

end Atom

namespace Value

@[match_pattern] abbrev int (n : Int64) : Value := .atom (.int n)
@[match_pattern] abbrev float (x : Float) : Value := .atom (.float x)
@[match_pattern] abbrev str (s : String) : Value := .atom (.str s)
@[match_pattern] abbrev bool (b : Bool) : Value := .atom (.bool b)

instance : Inhabited Value := ⟨.int 0⟩

def default : Ty → Value
  | .scalar s => .atom (Atom.default s)
  | .array index element => .array { index, element, cells := [] }

end Value

def Sparse.ty {α : Type} (a : Sparse α) : Ty :=
  .array a.index a.element

def Value.ty : Value → Ty
  | .atom a => .scalar a.scalar
  | .array a => a.ty

@[simp] theorem Value.ty_default (ty : Ty) : (default ty).ty = ty := by
  cases ty <;> simp [default, Value.ty, Sparse.ty]

def Value.kind : Value → Kind
  | .atom a => a.kind
  | .array _ => .array

def Value.toFloat? : Value → Option Float
  | .atom a => a.toFloat?
  | .array _ => none

/-- Index values as a key, which holds no arrays. -/
def Value.toKey? (indexes : List Value) : Option Key :=
  indexes.mapM fun
    | .atom a => some a
    | .array _ => none

namespace Sparse

variable {α : Type}

/-- Position of the first cell with an equal key. -/
def position? (a : Sparse α) (key : Key) : Option Nat :=
  a.cells.findIdx? fun cell => cell.1 == key

def find? (a : Sparse α) (key : Key) : Option α :=
  (a.cells.find? fun cell => cell.1 == key).map Prod.snd

/-- The key for some index values, which must have exactly the declared types. -/
def checkKey (a : Sparse α) (indexes : List Value) : Except Fault Key :=
  match Value.toKey? indexes with
  | some key =>
      if key.map Atom.scalar = a.index then .ok key else .error .inconsistentIndexDatatypes
  | none => .error .inconsistentIndexDatatypes

end Sparse

/-- Position of the cell for some index values, which is created if there is none. -/
def Sparse.materialize (indexes : List Value) : Edit (Sparse Value) Nat := fun a =>
  match a.checkKey indexes with
  | .error fault => .error fault a
  | .ok key =>
      match a.position? key with
      | some position => .ok position a
      | none =>
          .ok a.cells.length { a with cells := a.cells ++ [(key, Value.default a.element)] }

/-- Edits the value at a position. -/
def Sparse.editAt {β : Type} (position : Nat) (edit : Edit Value β) : Edit (Sparse Value) β :=
  fun a =>
    match Edit.atPosition position edit a.cells with
    | .ok result cells => .ok result { a with cells }
    | .error fault cells => .error fault { a with cells }

/-- Edits the element for some index values, which is created first if there is none. -/
def Sparse.editElement {β : Type} (indexes : List Value) (edit : Edit Value β) :
    Edit (Sparse Value) β := do
  let position ← materialize indexes
  editAt position edit

/-- An edit of arrays as an edit of values. -/
def Value.editArray {β : Type} (edit : Edit (Sparse Value) β) : Edit Value β := fun
  | .atom a => .error .expectedArray (.atom a)
  | .array a =>
      match edit a with
      | .ok result a' => .ok result (.array a')
      | .error fault a' => .error fault (.array a')

/-- Edits what a path of index tuples leads to, creating elements on the way. -/
def Value.editPath {β : Type} (edit : Edit Value β) : List Key → Edit Value β
  | [] => edit
  | key :: path => editArray (Sparse.editElement (key.map .atom) (editPath edit path))

end StackScript
