import StackScript.Instruction.Basic
import StackScript.Symbol.Scope
import StackScript.Ty.Basic

namespace StackScript

/-! Programs after names are resolved and types are checked. Symbols are given by their numbers in
the registry. -/

inductive Literal where
  | int (n : Int64)
  | float (bits : UInt64)
  | str (s : String)
  | bool (b : Bool)
  deriving DecidableEq, Repr

/-- Where the cell of a symbol lives: for the whole run, or in the active frame. -/
inductive Lifetime where
  | static
  | dynamic
  deriving DecidableEq, Repr

/-- Expressions. Conjunction is multiplication and disjunction is addition of truth values. -/
inductive Expr where
  | literal (l : Literal)
  | cell (lifetime : Lifetime) (symbol : Nat)
  | element (array : Expr) (indexes : List Expr)
  | call (function : Nat) (arguments : List Expr)
  | negate (operand : Expr)
  | arith (operation : Arithmetic) (lhs rhs : Expr)
  | compare (relation : Relation) (lhs rhs : Expr)
  | choice (condition whenTrue whenFalse : Expr)

/-- Statements. Blocks and functions have a scope of their own for what is declared in them. -/
inductive Stmt where
  | assign (target : Expr) (update : Update) (value : Expr)
  | declare (symbol : Nat)
  /-- A block resets the variables that are declared directly in it. -/
  | block (scope : Scope) (declared : List Nat) (body : List Stmt)
  | function (scope : Scope) (symbol : Nat) (params : List Nat) (body : List Stmt)

def Literal.ty : Literal → Ty
  | .int _ => .int
  | .float _ => .float
  | .str _ => .str
  | .bool _ => .bool

/-- Whether a statement opens a scope of its own. -/
def Stmt.opensScope : Stmt → Bool
  | .assign _ _ _ | .declare _ => false
  | .block _ _ _ | .function _ _ _ _ => true

mutual

/-- The variables that a statement declares, those of its blocks included but not those of
functions. -/
def Stmt.locals : Stmt → List Nat
  | .assign _ _ _ => []
  | .declare symbol => [symbol]
  | .block _ _ body => localsOf body
  | .function _ _ _ _ => []

def Stmt.localsOf : List Stmt → List Nat
  | [] => []
  | stmt :: rest => stmt.locals ++ localsOf rest

end

end StackScript
