namespace StackScript

/-! Static types. The index positions of an array hold scalars; its elements may be arrays. -/

inductive Scalar where
  | int
  | float
  | str
  | bool
  deriving DecidableEq, Repr, Inhabited

/-- Neither sources nor type descriptors can spell an array as the type of an index position, so
there is no such type here. -/
inductive Ty where
  | scalar (s : Scalar)
  | array (index : List Scalar) (element : Ty)
  deriving DecidableEq, Repr, Inhabited

@[match_pattern] abbrev Ty.int : Ty := .scalar .int
@[match_pattern] abbrev Ty.float : Ty := .scalar .float
@[match_pattern] abbrev Ty.str : Ty := .scalar .str
@[match_pattern] abbrev Ty.bool : Ty := .scalar .bool

def Scalar.isNumeric : Scalar → Bool
  | .int | .float => true
  | .str | .bool => false

/-- An int fits a float; otherwise only the same scalar fits. -/
def Scalar.accepts (cell value : Scalar) : Bool :=
  cell = value || (cell = .float && value = .int)

namespace Ty

def isNumeric : Ty → Bool
  | .scalar s => s.isNumeric
  | .array _ _ => false

def isArray : Ty → Bool
  | .scalar _ => false
  | .array _ _ => true

/-- Index lists fit position by position, and only if they are equally long. -/
def acceptsIndex : List Scalar → List Scalar → Bool
  | [], [] => true
  | cell :: cells, value :: values => cell.accepts value && acceptsIndex cells values
  | _, _ => false

/-- Whether a value of type `value` may be stored in a cell of type `cell`. -/
def accepts : (cell value : Ty) → Bool
  | .scalar cell, .scalar value => cell.accepts value
  | .array index element, .array index' element' =>
      acceptsIndex index index' && accepts element element'
  | _, _ => false

/-- Identical types, or both numeric. -/
def consistent (a b : Ty) : Bool :=
  a = b || (a.isNumeric && b.isNumeric)

/-- An int may be assigned to a float, never the other way round. -/
def assignable (target value : Ty) : Bool :=
  target = value || (target = .float && value.isNumeric)

/-- Arguments are assigned to parameters position by position. -/
def callable : (params args : List Ty) → Bool
  | [], [] => true
  | param :: params, arg :: args => param.assignable arg && callable params args
  | _, _ => false

/-- The type of a result that is one of two values: a float as soon as one of two numbers is. -/
def join? (a b : Ty) : Option Ty :=
  if a = b then some a
  else if a.isNumeric && b.isNumeric then some .float
  else none

end Ty

end StackScript
