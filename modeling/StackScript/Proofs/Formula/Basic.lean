import Mathlib.Algebra.Group.Nat.Defs
import StackScript.Tree.Basic
import StackScript.Value.Arithmetic

namespace StackScript

/-! Formulas of literals and operators: their types, their values, and how they are written. -/

inductive Sign where
  | minus
  | not
  deriving DecidableEq, Repr

inductive Connective where
  | or
  | and
  | relation (relation : Relation)
  | arith (operation : Arithmetic)
  deriving DecidableEq, Repr

inductive Formula where
  | number (n : Nat) (inRange : n < 2 ^ 63)
  | truth (b : Bool)
  | signed (sign : Sign) (operand : Formula)
  | binary (connective : Connective) (lhs rhs : Formula)
  | choice (condition whenTrue whenFalse : Formula)

/-! Types. -/

def Sign.ty? : Sign → Ty → Option Ty
  | .minus, operand => if operand.isNumeric then some operand else none
  | .not, operand => if operand = .bool then some .bool else none

def Connective.ty? : Connective → Ty → Ty → Option Ty
  | .or, lhs, rhs | .and, lhs, rhs => if lhs = .bool ∧ rhs = .bool then some .bool else none
  | .relation _, lhs, rhs =>
      if lhs = rhs ∨ lhs.isNumeric ∧ rhs.isNumeric then some .bool else none
  | .arith operation, lhs, rhs =>
      if lhs.isNumeric ∧ rhs.isNumeric then
        some (if operation ≠ .divide ∧ lhs = .int ∧ rhs = .int then .int else .float)
      else none

/-- The type of a formula, if it is well typed; both branches of a choice have the same type. -/
def Formula.ty? : Formula → Option Ty
  | .number _ _ => some .int
  | .truth _ => some .bool
  | .signed sign operand => do sign.ty? (← operand.ty?)
  | .binary connective lhs rhs => do connective.ty? (← lhs.ty?) (← rhs.ty?)
  | .choice condition whenTrue whenFalse => do
      let test ← condition.ty?
      let accepted ← whenTrue.ty?
      let refused ← whenFalse.ty?
      if test = .bool ∧ accepted = refused then some accepted else none

/-! Values. Whole numbers wrap at 64 bits. -/

/-- A number as a float. -/
def Atom.real : Atom → Float
  | .int n => nearestFloat n
  | .float x => x
  | .str _ | .bool _ => 0

def Atom.isTrue : Atom → Bool
  | .bool b => b
  | _ => false

def Sign.apply : Sign → Atom → Atom
  | .minus, .int n => .int (-n)
  | .minus, a => .float (-a.real)
  | .not, a => .bool !a.isTrue

/-- The operation on whole numbers if both are whole, and on floats otherwise. -/
def Atom.calculate (onInts : Int64 → Int64 → Int64) (onFloats : Float → Float → Float) :
    Atom → Atom → Atom
  | .int m, .int n => .int (onInts m n)
  | a, b => .float (onFloats a.real b.real)

/-- The six comparisons of two things of one type. -/
def Relation.compares {α : Type} [BEq α] [LT α] [LE α] [DecidableLT α] [DecidableLE α]
    (relation : Relation) (a b : α) : Bool :=
  match relation with
  | .equal => a == b
  | .notEqual => a != b
  | .less => a < b
  | .lessEqual => a ≤ b
  | .greater => a > b
  | .greaterEqual => a ≥ b

/-- A comparison of two whole numbers, of two truth values, or of two numbers as floats. -/
def Relation.relates (relation : Relation) : Atom → Atom → Bool
  | .int m, .int n => relation.compares m n
  | .bool p, .bool q => relation.compares p q
  | a, b => relation.compares a.real b.real

/-- The value of an operation on two values; a division by zero has none. -/
def Connective.combine? : Connective → Atom → Atom → Option Atom
  | .or, a, b => some (.bool (a.isTrue || b.isTrue))
  | .and, a, b => some (.bool (a.isTrue && b.isTrue))
  | .relation test, a, b => some (.bool (test.relates a b))
  | .arith .add, a, b => some (a.calculate (· + ·) (· + ·) b)
  | .arith .subtract, a, b => some (a.calculate (· - ·) (· - ·) b)
  | .arith .multiply, a, b => some (a.calculate (· * ·) (· * ·) b)
  | .arith .divide, a, b => if b.real == 0 then none else some (.float (a.real / b.real))

/-- The value of a formula, unless it divides by zero. Both sides of a conjunction or a disjunction
are evaluated, but only one branch of a choice. -/
def Formula.eval? : Formula → Option Atom
  | .number n _ => some (.int (Int64.ofNat n))
  | .truth b => some (.bool b)
  | .signed sign operand => do
      let a ← operand.eval?
      some (sign.apply a)
  | .binary connective lhs rhs => do
      let a ← lhs.eval?
      let b ← rhs.eval?
      connective.combine? a b
  | .choice condition whenTrue whenFalse => do
      let a ← condition.eval?
      if a.isTrue then whenTrue.eval? else whenFalse.eval?

/-! Texts. -/

def Arithmetic.text : Arithmetic → List Char
  | .multiply => ['*']
  | .divide => ['/']
  | .add => ['+']
  | .subtract => ['-']

def Relation.text : Relation → List Char
  | .equal => ['=', '=']
  | .notEqual => ['!', '=']
  | .lessEqual => ['<', '=']
  | .greaterEqual => ['>', '=']
  | .less => ['<']
  | .greater => ['>']

def Connective.text : Connective → List Char
  | .or => ['o', 'r']
  | .and => ['a', 'n', 'd']
  | .relation test => test.text
  | .arith operation => operation.text

/-- Tighter connectives have higher levels. -/
def Connective.level : Connective → Nat
  | .or => 1
  | .and => 2
  | .relation _ => 3
  | .arith .add | .arith .subtract => 4
  | .arith .multiply | .arith .divide => 5

/-- The least level that may stand on the left: relations cannot be repeated, and all else groups
to the left. -/
def Connective.leftLevel : Connective → Nat
  | .relation _ => 4
  | connective => connective.level

namespace Formula

def signLevel : Nat := 6

def literalLevel : Nat := 7

def level : Formula → Nat
  | .number _ _ | .truth _ => literalLevel
  | .signed _ _ => signLevel
  | .binary connective _ _ => connective.level
  | .choice _ _ _ => 0

/-- A text between parentheses, with gaps inside them. -/
def enclosed (gap text : List Char) : List Char :=
  '(' :: (gap ++ text ++ gap ++ [')'])

/-- A text of some level where at least another one is needed. -/
def within (gap : List Char) (least level : Nat) (text : List Char) : List Char :=
  if level < least then enclosed gap text else text

/-- The text of a formula with parentheses only where an operand binds less tightly than it must.
Connectives stand between single spaces; the gap is what stands inside of parentheses and behind a
minus sign. -/
def text (gap : List Char) : Formula → List Char
  | .number n _ => Nat.toDigits 10 n
  | .truth true => ['t', 'r', 'u', 'e']
  | .truth false => ['f', 'a', 'l', 's', 'e']
  | .signed .minus operand => '-' :: (gap ++ within gap signLevel operand.level (text gap operand))
  | .signed .not operand =>
      'n' :: 'o' :: 't' :: ' ' :: within gap signLevel operand.level (text gap operand)
  | .binary connective lhs rhs =>
      within gap connective.leftLevel lhs.level (text gap lhs) ++
        ' ' :: (connective.text ++
          ' ' :: within gap (connective.level + 1) rhs.level (text gap rhs))
  | .choice condition whenTrue whenFalse =>
      within gap 1 condition.level (text gap condition) ++
        ' ' :: '?' :: ' ' :: (text gap whenTrue ++ ' ' :: ':' :: ' ' :: text gap whenFalse)

end Formula

end StackScript
