import StackScript.CodeUnit.Basic
import StackScript.Tree.Basic

namespace StackScript

/-! Code for programs. An expression leaves one operand on the stack; the code of functions is
kept apart from the code that runs in line. -/

def Literal.instruction : Literal → Instruction
  | .int n => .putInt n
  | .float bits => .putFloat bits
  | .str s => .putString s
  | .bool b => .putBoolean b

/-- Number of bytes of a jump of either sort. -/
def jumpSize : Nat := 5

namespace Expr

mutual

/-- The targets of the two jumps of a choice count from the jumps themselves, and joining units
turns them into offsets. -/
def unit : Expr → CodeUnit
  | .literal l => .single l.instruction
  | .cell .static symbol => .single (.putAddr (UInt32.ofNat symbol))
  | .cell .dynamic symbol => .single (.putDAddr (UInt32.ofNat symbol))
  | .element array indexes =>
      array.unit ++ units indexes ++ .single (.putIndAddr (UInt8.ofNat indexes.length))
  | .call function arguments =>
      units arguments ++ .single (.call (UInt32.ofNat function))
  | .negate operand => operand.unit ++ .single .neg
  | .arith operation lhs rhs => lhs.unit ++ rhs.unit ++ .single (.arith operation)
  | .compare relation lhs rhs => lhs.unit ++ rhs.unit ++ .single (.compare relation)
  | .choice condition whenTrue whenFalse =>
      let accepted := whenTrue.unit
      let refused := whenFalse.unit
      condition.unit ++
        .single (.jumpIfFalse (UInt32.ofNat (jumpSize + accepted.size + jumpSize))) ++ accepted ++
        .single (.jump (UInt32.ofNat (jumpSize + refused.size))) ++ refused

def units : List Expr → CodeUnit
  | [] => .empty
  | e :: rest => e.unit ++ units rest

end

end Expr

/-- Code that runs in line, and the code of the functions that are defined meanwhile. -/
structure Emission where
  inline : CodeUnit
  functions : CodeUnit

namespace Emission

def empty : Emission where
  inline := .empty
  functions := .empty

def append (left right : Emission) : Emission where
  inline := left.inline ++ right.inline
  functions := left.functions ++ right.functions

instance : Append Emission := ⟨append⟩

end Emission

/-- The code of a function: its result cell, the parameters from the last to the first as they lie
on the stack, its other variables, its body, and behind it the functions defined in it. -/
def functionUnit (symbol : Nat) (params locals : List Nat) (body : Emission) : CodeUnit :=
  let start := (CodeUnit.single (.allocVar (UInt32.ofNat symbol))).addFunction symbol 0
  start ++
    .ofInstructions (params.reverse.map fun param => .allocVars (UInt32.ofNat param)) ++
    .ofInstructions (locals.map fun cell => .allocVar (UInt32.ofNat cell)) ++
    body.inline ++ .single (.ret (UInt32.ofNat symbol)) ++ body.functions

namespace Stmt

mutual

def emission : Stmt → Emission
  | .assign target update value =>
      { inline := target.unit ++ value.unit ++ .single (.assign update), functions := .empty }
  | .declare _ => .empty
  | .block _ declared body =>
      let resets :=
        CodeUnit.ofInstructions (declared.map fun cell => .initVar (UInt32.ofNat cell))
      { inline := resets, functions := .empty } ++ emissionOf body
  | .function _ symbol params body =>
      { inline := .empty
        functions := functionUnit symbol params (localsOf body) (emissionOf body) }

def emissionOf : List Stmt → Emission
  | [] => .empty
  | stmt :: rest => stmt.emission ++ emissionOf rest

end

end Stmt

end StackScript
