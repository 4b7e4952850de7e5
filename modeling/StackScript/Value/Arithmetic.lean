import StackScript.Instruction.Basic
import StackScript.Value.Equality
import StackScript.Value.Widening

namespace StackScript

/-! Operators on values. A fault names the operation on whose behalf the operator is applied. -/

/-- Removes all occurrences of `pattern`, from left to right; `skip` characters belong to an
occurrence that was found before. -/
def removeAllFrom (pattern : List Char) : (skip : Nat) → List Char → List Char
  | _, [] => []
  | skip + 1, _ :: rest => removeAllFrom pattern skip rest
  | 0, c :: rest =>
      if pattern.isPrefixOf (c :: rest) then removeAllFrom pattern (pattern.length - 1) rest
      else c :: removeAllFrom pattern 0 rest

/-- An empty pattern occurs nowhere. -/
def removeAll (pattern text : String) : String :=
  if pattern.isEmpty then text else String.ofList (removeAllFrom pattern.toList 0 text.toList)

namespace Atom

/-- Two ints give an int, and any other two numbers give a float. -/
def numeric? (onInts : Int64 → Int64 → Int64) (onFloats : Float → Float → Float) (a b : Atom) :
    Option Atom :=
  match a, b with
  | .int m, .int n => some (.int (onInts m n))
  | a, b => do
      let x ← a.toFloat?
      let y ← b.toFloat?
      some (.float (onFloats x y))

/-- Addition of numbers, concatenation of strings, disjunction. -/
def add (op : Opcode) (a b : Atom) : Except Fault Atom :=
  match numeric? (· + ·) (· + ·) a b with
  | some result => .ok result
  | none =>
      match a, b with
      | .str s, .str t => .ok (.str (s ++ t))
      | .bool p, .bool q => .ok (.bool (p || q))
      | _, _ => .error (.inconsistentDatatypes op)

end Atom

namespace Value

/-- Addition where not both values are arrays. -/
def addAtoms (op : Opcode) : Value → Value → Except Fault Value
  | .atom a, .atom b => (a.add op b).map .atom
  | _, _ => .error (.inconsistentDatatypes op)

mutual

/-- Levels of arrays. -/
def depth : Value → Nat
  | .atom _ => 0
  | .array ⟨_, _, cells⟩ => depthCells cells + 1

def depthCells : List (Key × Value) → Nat
  | [] => 0
  | (_, value) :: rest => max value.depth (depthCells rest)

end

end Value

namespace Sparse

/-- Adds one cell after the other to the elements with the same keys. -/
def mergeCells (op : Opcode) (inner : Sparse Value → Edit (Sparse Value) Unit) :
    List (Key × Value) → Edit (Sparse Value) Unit
  | [] => pure ()
  | (key, value) :: rest => do
      editElement (key.map .atom) fun
        | .array a =>
            match value with
            | .array b => Value.editArray (inner b) (.array a)
            | .atom _ => .error (.inconsistentDatatypes op) (.array a)
        | .atom a =>
            match (Value.atom a).addAtoms op value with
            | .ok sum => .ok () sum
            | .error fault => .error fault (.atom a)
      mergeCells op inner rest

/-- Adds an array of at most the given depth, widened to the types of the target. -/
def mergeWithin (op : Opcode) : (depth : Nat) → Sparse Value → Edit (Sparse Value) Unit
  | 0, _ => pure ()
  | depth + 1, other => fun target =>
      if target.ty.accepts other.ty then
        mergeCells op (mergeWithin op depth) (other.widen target.index target.element).cells target
      else .error (.inconsistentArrayDatatypes op) target

/-- Adds every element of `other` to the element with the same key, which is created first if
there is none. A fault keeps the elements that were added before. -/
def merge (op : Opcode) (other : Sparse Value) : Edit (Sparse Value) Unit :=
  mergeWithin op (Value.array other).depth other

end Sparse

namespace Value

/-- Addition of atoms, merging of arrays. -/
def add (op : Opcode) (a b : Value) : Except Fault Value :=
  match a, b with
  | .array a, .array b =>
      match Sparse.merge op b a with
      | .ok _ merged => .ok (.array merged)
      | .error fault _ => .error fault
  | a, b => addAtoms op a b

/-- Subtraction of numbers, removal of all occurrences, exclusive disjunction. -/
def sub (op : Opcode) (a b : Value) : Except Fault Value :=
  match a, b with
  | .atom a, .atom b =>
      match Atom.numeric? (· - ·) (· - ·) a b with
      | some result => .ok (.atom result)
      | none =>
          match a, b with
          | .str s, .str t => .ok (.str (removeAll t s))
          | .bool p, .bool q => .ok (.bool (p != q))
          | _, _ => .error (.inconsistentDatatypes op)
  | .array _, .array _ => .error (.notSupported op .array)
  | _, _ => .error (.inconsistentDatatypes op)

/-- Multiplication of numbers, conjunction. -/
def mul (op : Opcode) (a b : Value) : Except Fault Value :=
  match a, b with
  | .atom a, .atom b =>
      match Atom.numeric? (· * ·) (· * ·) a b with
      | some result => .ok (.atom result)
      | none =>
          match a, b with
          | .bool p, .bool q => .ok (.bool (p && q))
          | .str _, .str _ => .error (.notSupported op .string)
          | _, _ => .error (.inconsistentDatatypes op)
  | .array _, .array _ => .error (.notSupported op .array)
  | _, _ => .error (.inconsistentDatatypes op)

/-- Division of numbers, which gives a float. -/
def div (op : Opcode) (a b : Value) : Except Fault Value :=
  match a.toFloat?, b.toFloat? with
  | some x, some y => if y == 0 then .error (.divisionByZero op) else .ok (.float (x / y))
  | _, _ =>
      if a.kind = b.kind then .error (.notSupported op a.kind)
      else .error (.inconsistentDatatypes op)

/-- Negation of a number or a truth value. -/
def neg : Value → Except Fault Value
  | .int n => .ok (.int (-n))
  | .float x => .ok (.float (-x))
  | .bool b => .ok (.bool !b)
  | other => .error (.notSupported .neg other.kind)

/-- The order of two floats, which a NaN has with no number. -/
def floatOrdering? (x y : Float) : Option Ordering :=
  if x < y then some .lt
  else if x == y then some .eq
  else if y < x then some .gt
  else none

end Value

/-- Whether a relation holds of two things that stand in this order; unordered things differ. -/
def Relation.holds (relation : Relation) (ordering : Option Ordering) : Bool :=
  match relation with
  | .equal => ordering = some .eq
  | .notEqual => ordering ≠ some .eq
  | .less => ordering = some .lt
  | .lessEqual => ordering = some .lt || ordering = some .eq
  | .greater => ordering = some .gt
  | .greaterEqual => ordering = some .gt || ordering = some .eq

namespace Value

/-- The order of two atoms: of two numbers, two strings, or two truth values. -/
def atomOrdering (op : Opcode) (a b : Atom) : Except Fault (Option Ordering) :=
  match a, b with
  | .int m, .int n => .ok (some (Ord.compare m n))
  | .str s, .str t => .ok (some (Ord.compare s t))
  | .bool p, .bool q => .ok (some (Ord.compare p q))
  | a, b =>
      match a.toFloat?, b.toFloat? with
      | some x, some y => .ok (floatOrdering? x y)
      | _, _ => .error (.inconsistentDatatypes op)

/-- Evaluates a relational operation; arrays can only be equal or not. -/
def compare (op : Opcode) (a b : Value) : Except Fault Bool :=
  match a, b with
  | .atom a, .atom b => do
      let ordering ← atomOrdering op a b
      match Relation.ofOpcode? op with
      | some relation => .ok (relation.holds ordering)
      | none => .error .invalidInstruction
  | .array a, .array b =>
      match Relation.ofOpcode? op with
      | some .equal => .ok (equal (.array a) (.array b))
      | some .notEqual => .ok !(equal (.array a) (.array b))
      | _ => .error (.notSupported op .array)
  | _, _ => .error (.inconsistentDatatypes op)

end Value

def Builtin.apply : Builtin → Float → Float
  | .sin => Float.sin
  | .cos => Float.cos

/-- Calls a builtin function; an int argument is widened. -/
def Builtin.call (builtin : Builtin) (argument : Value) : Except Fault Value :=
  match argument with
  | .int n => .ok (.float (builtin.apply (nearestFloat n)))
  | .float x => .ok (.float (builtin.apply x))
  | .array _ => .error (.syscallInconsistentDatatypes builtin)
  | other => .error (.syscallNotSupported builtin other.kind)

end StackScript
