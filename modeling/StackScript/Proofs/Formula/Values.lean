import StackScript.Proofs.Formula.Basic
import StackScript.Proofs.Value.Floats
import StackScript.Proofs.Value.Operators

namespace StackScript

/-! The operators of the machine give formulas their values. -/

def Atom.ty (a : Atom) : Ty :=
  .scalar a.scalar

/-- The operator that a connective applies. -/
def Connective.operator : Connective → Value → Value → Except Fault Value
  | .or, lhs, rhs => Arithmetic.add.apply lhs rhs
  | .and, lhs, rhs => Arithmetic.multiply.apply lhs rhs
  | .relation test, lhs, rhs => (Value.compare test.opcode lhs rhs).map .bool
  | .arith operation, lhs, rhs => operation.apply lhs rhs

def quotient : Option Atom → Except Fault Value
  | some a => .ok (.atom a)
  | none => .error (.divisionByZero .div)

theorem quotient_eq (x y : Float) :
    (if y == 0 then .error (.divisionByZero .div) else .ok (.float (x / y)) : Except Fault Value) =
      quotient (if y == 0 then none else some (.float (x / y))) := by
  by_cases zero : (y == 0) = true
  · simp only [zero, if_true, quotient]
  · simp only [zero, Bool.false_eq_true, if_false, quotient]

theorem numeric_cases {a : Atom} (numeric : a.ty.isNumeric = true) :
    (∃ n, a = .int n) ∨ ∃ x, a = .float x := by
  cases a with
  | int n => exact .inl ⟨n, rfl⟩
  | float x => exact .inr ⟨x, rfl⟩
  | str s => cases numeric
  | bool b => cases numeric

theorem ty_eq_bool {a : Atom} (truth : a.ty = .bool) : ∃ b, a = .bool b := by
  cases a with
  | bool b => exact ⟨b, rfl⟩
  | _ => cases truth

/-- Connectives take what their types say. -/
theorem Connective.ty?_cases {connective : Connective} {lhs rhs ty : Ty}
    (typed : connective.ty? lhs rhs = some ty) :
    (connective = .or ∨ connective = .and) ∧ lhs = .bool ∧ rhs = .bool ∧ ty = .bool ∨
      (∃ test, connective = .relation test) ∧
        (lhs = rhs ∨ lhs.isNumeric = true ∧ rhs.isNumeric = true) ∧ ty = .bool ∨
      ∃ operation, connective = .arith operation ∧ lhs.isNumeric = true ∧ rhs.isNumeric = true ∧
        ty = if operation ≠ .divide ∧ lhs = .int ∧ rhs = .int then .int else .float := by
  cases connective with
  | or | and =>
      simp only [ty?, Option.ite_none_right_eq_some, Option.some.injEq] at typed
      obtain ⟨⟨rfl, rfl⟩, rfl⟩ := typed
      exact .inl ⟨by simp, rfl, rfl, rfl⟩
  | relation test =>
      simp only [ty?, Option.ite_none_right_eq_some, Option.some.injEq] at typed
      exact .inr (.inl ⟨⟨test, rfl⟩, typed.1, typed.2.symm⟩)
  | arith operation =>
      simp only [ty?, Option.ite_none_right_eq_some, Option.some.injEq] at typed
      exact .inr (.inr ⟨operation, rfl, typed.1.1, typed.1.2, typed.2.symm⟩)

namespace Formula

theorem combine?_ty {connective : Connective} {a b c : Atom} {ty : Ty}
    (typed : connective.ty? a.ty b.ty = some ty) (value : connective.combine? a b = some c) :
    ty = c.ty := by
  rcases Connective.ty?_cases typed with ⟨rfl | rfl, -, -, rfl⟩ | ⟨⟨test, rfl⟩, -, rfl⟩ |
    ⟨operation, rfl, left, right, rfl⟩
  · cases value
    rfl
  · cases value
    rfl
  · cases value
    rfl
  · rcases numeric_cases left with ⟨m, rfl⟩ | ⟨x, rfl⟩ <;>
      rcases numeric_cases right with ⟨n, rfl⟩ | ⟨y, rfl⟩ <;> cases operation <;>
      simp only [Connective.combine?, Option.some.injEq, Option.ite_none_left_eq_some] at value <;>
      first
      | (obtain rfl := value; rfl)
      | (obtain ⟨-, rfl⟩ := value; rfl)

theorem eval?_ty {e : Formula} {ty : Ty} {a : Atom} (typed : e.ty? = some ty)
    (value : e.eval? = some a) : ty = a.ty := by
  induction e generalizing ty a with
  | number n inRange =>
      cases typed
      cases value
      rfl
  | truth b =>
      cases typed
      cases value
      rfl
  | signed sign operand induction =>
      simp only [ty?, eval?, Option.bind_eq_bind, Option.bind_eq_some_iff, Option.some.injEq]
        at typed value
      obtain ⟨ty', inner, typed⟩ := typed
      obtain ⟨a', value, rfl⟩ := value
      obtain rfl := induction inner value
      cases sign with
      | minus =>
          simp only [Sign.ty?, Option.ite_none_right_eq_some, Option.some.injEq] at typed
          obtain ⟨numeric, rfl⟩ := typed
          rcases numeric_cases numeric with ⟨n, rfl⟩ | ⟨x, rfl⟩ <;> rfl
      | not =>
          simp only [Sign.ty?, Option.ite_none_right_eq_some, Option.some.injEq] at typed
          obtain ⟨-, rfl⟩ := typed
          rfl
  | binary connective lhs rhs left right =>
      simp only [ty?, eval?, Option.bind_eq_bind, Option.bind_eq_some_iff] at typed value
      obtain ⟨tyL, typedL, tyR, typedR, typed⟩ := typed
      obtain ⟨aL, valueL, aR, valueR, value⟩ := value
      obtain rfl := left typedL valueL
      obtain rfl := right typedR valueR
      exact combine?_ty typed value
  | choice condition whenTrue whenFalse _ accepted refused =>
      simp only [ty?, eval?, Option.bind_eq_bind, Option.bind_eq_some_iff,
        Option.ite_none_right_eq_some, Option.some.injEq] at typed value
      obtain ⟨tyC, -, tyT, typedT, tyF, typedF, ⟨-, rfl⟩, rfl⟩ := typed
      obtain ⟨test, -, value⟩ := value
      split at value
      · exact accepted typedT value
      · exact refused typedF value

end Formula

/-! The ordering that the machine finds tells for each relation whether it holds. -/

theorem Relation.holds_int (relation : Relation) (m n : Int64) :
    relation.holds (some (compare m n)) = relation.compares m n := by
  have atMost : m ≤ n ↔ m < n ∨ m = n := by
    rw [Int64.le_iff_toInt_le, Int64.lt_iff_toInt_lt, ← Int64.toInt_inj]
    omega
  have atLeast : n ≤ m ↔ n < m ∨ m = n := by
    rw [Int64.le_iff_toInt_le, Int64.lt_iff_toInt_lt, ← Int64.toInt_inj]
    omega
  cases relation <;>
    simp [holds, compares, bne, beq_eq_decide, Std.compare_eq_lt, Std.compare_eq_gt, atMost,
      atLeast]

theorem Relation.holds_bool (relation : Relation) (p q : Bool) :
    relation.holds (some (compare p q)) = relation.compares p q := by
  cases relation <;> cases p <;> cases q <;> rfl

/-- Nothing but inequality holds of a NaN, which has no order. -/
theorem Relation.holds_float (relation : Relation) (x y : Float) :
    relation.holds (Value.floatOrdering? x y) = relation.compares x y := by
  rw [floatOrdering?_eq, Bool.eq_iff_iff]
  cases relation <;>
    simp only [holds, compares, bne, Bool.not_eq_true', Bool.eq_false_iff, ne_eq, gt_iff_lt,
      ge_iff_le, decide_eq_true_iff, float_beq_iff, float_lt_iff, float_le_iff,
      compare_swap x.toModel.unpack y.toModel.unpack] <;>
    rcases x.toModel.unpack.compare y.toModel.unpack with _ | _ | _ | _ <;> simp

theorem compare_atoms (test : Relation) {a b : Atom}
    (consistent : a.ty = b.ty ∨ a.ty.isNumeric = true ∧ b.ty.isNumeric = true)
    (plain : a.ty ≠ .str) :
    Value.compare test.opcode (.atom a) (.atom b) = .ok (test.relates a b) := by
  have ordered : ∀ ordering, Value.atomOrdering test.opcode a b = .ok ordering →
      Value.compare test.opcode (.atom a) (.atom b) = .ok (test.holds ordering) := by
    intro ordering order
    simp only [Value.compare, order, bind, Except.bind, Relation.ofOpcode?_opcode]
  cases a <;> cases b <;>
    first
    | exact absurd rfl plain
    | (rw [ordered _ rfl]
       simp only [Relation.relates, Relation.holds_int, Relation.holds_bool, Relation.holds_float,
         Atom.real])
    | simp [Atom.ty, Atom.scalar, Ty.isNumeric, Scalar.isNumeric] at consistent

theorem Connective.operator_eq {connective : Connective} {a b : Atom} {ty : Ty}
    (typed : connective.ty? a.ty b.ty = some ty) (plain : a.ty ≠ .str) :
    connective.operator (.atom a) (.atom b) = quotient (connective.combine? a b) := by
  rcases Connective.ty?_cases typed with ⟨logical, left, right, -⟩ | ⟨⟨test, rfl⟩, consistent, -⟩ |
    ⟨operation, rfl, left, right, -⟩
  · obtain ⟨p, rfl⟩ := ty_eq_bool left
    obtain ⟨q, rfl⟩ := ty_eq_bool right
    rcases logical with rfl | rfl <;> rfl
  · simp only [operator, compare_atoms test consistent plain]
    rfl
  · rcases numeric_cases left with ⟨m, rfl⟩ | ⟨x, rfl⟩ <;>
      rcases numeric_cases right with ⟨n, rfl⟩ | ⟨y, rfl⟩ <;> cases operation <;>
      first
      | rfl
      | exact quotient_eq _ _

theorem Sign.neg_eq {sign : Sign} {a : Atom} {ty : Ty} (typed : sign.ty? a.ty = some ty) :
    (Value.atom a).neg = .ok (.atom (sign.apply a)) := by
  cases sign with
  | minus =>
      simp only [ty?, Option.ite_none_right_eq_some] at typed
      rcases numeric_cases typed.1 with ⟨n, rfl⟩ | ⟨x, rfl⟩ <;> rfl
  | not =>
      simp only [ty?, Option.ite_none_right_eq_some] at typed
      obtain ⟨b, rfl⟩ := ty_eq_bool typed.1
      rfl

end StackScript
