import StackScript.Grammar.Statement
import StackScript.Proofs.Value.Typing
import StackScript.Value.Assignment

namespace StackScript

/-! Operators on values of static types: which types they take and give, and which faults the types
leave possible. -/

/-- Faults that the static types do not exclude. -/
def Fault.isResidual : Fault → Bool
  | .divisionByZero op => op = .div || op = .moveDiv
  | .notSupported op kind =>
      kind = .array && [.moveSubtr, .less, .lessEqual, .greater, .greaterEqual].contains op
  | .inconsistentIndexDatatypes | .unboundDynamicVariable _ | .stackOverflow | .frameOverflow =>
      true
  | _ => false

/-- What a computation that must succeed gives, or the faults that it may have. -/
def Outcome {α : Type} (result : Except Fault α) (value : α → Prop) (faults : Fault → Prop) :
    Prop :=
  match result with
  | .ok a => value a
  | .error fault => faults fault

def Arithmetic.apply (operation : Arithmetic) (lhs rhs : Value) : Except Fault Value :=
  match operation with
  | .multiply => Value.mul operation.opcode lhs rhs
  | .divide => Value.div operation.opcode lhs rhs
  | .add => Value.add operation.opcode lhs rhs
  | .subtract => Value.sub operation.opcode lhs rhs

/-- The static type of the result: of two numbers, two strings or two truth values. -/
def Arithmetic.resultTy? (operation : Arithmetic) (lhs rhs : Ty) : Option Ty :=
  if lhs.isNumeric && rhs.isNumeric then
    some (if operation = .divide then .float else Grammar.numericResult lhs rhs)
  else if lhs = .str && rhs = .str then
    if operation = .add || operation = .subtract then some .str else none
  else if lhs = .bool && rhs = .bool then
    if operation = .add || operation = .multiply then some .bool else none
  else none

namespace Value

variable {a b : Value} {lhs rhs ty : Ty}

theorem Fits.exists_bool (fits : a.Fits .bool) : ∃ p, a = .bool p :=
  (fits.hasTy (by simp)).exists_bool

theorem Fits.exists_str (fits : a.Fits .str) : ∃ s, a = .str s :=
  (fits.hasTy (by simp)).exists_str

theorem fits_float_int (n : Int64) : (Value.int n).Fits .float :=
  .inr ⟨rfl, hasTy_int n⟩

theorem fits_float_float (x : Float) : (Value.float x).Fits .float :=
  (hasTy_float x).fits

theorem numericResult_cases (left : lhs.isNumeric = true) (right : rhs.isNumeric = true) :
    lhs = .int ∧ rhs = .int ∧ Grammar.numericResult lhs rhs = .int ∨
      Grammar.numericResult lhs rhs = .float := by
  rcases lhs with ⟨_ | _ | _ | _⟩ | _ <;> rcases rhs with ⟨_ | _ | _ | _⟩ | _ <;>
    simp_all [Ty.isNumeric, Scalar.isNumeric, Grammar.numericResult, Ty.join?]

theorem numeric?_fits (onInts : Int64 → Int64 → Int64) (onFloats : Float → Float → Float)
    (left : lhs.isNumeric = true) (right : rhs.isNumeric = true) (fitsA : a.Fits lhs)
    (fitsB : b.Fits rhs) :
    ∃ x y result, a = .atom x ∧ b = .atom y ∧ Atom.numeric? onInts onFloats x y = some result ∧
      (Value.atom result).Fits (Grammar.numericResult lhs rhs) := by
  rcases numericResult_cases left right with ⟨rfl, rfl, result⟩ | result
  · obtain ⟨m, rfl⟩ := (fitsA.hasTy (by simp)).exists_int
    obtain ⟨n, rfl⟩ := (fitsB.hasTy (by simp)).exists_int
    refine ⟨_, _, _, rfl, rfl, rfl, ?_⟩
    rw [result]
    exact (hasTy_int _).fits
  · rw [result]
    rcases fitsA.numeric left with ⟨m, rfl⟩ | ⟨x, rfl⟩ <;>
      rcases fitsB.numeric right with ⟨n, rfl⟩ | ⟨y, rfl⟩
    · exact ⟨_, _, _, rfl, rfl, rfl, fits_float_int _⟩
    · exact ⟨_, _, _, rfl, rfl, rfl, fits_float_float _⟩
    · exact ⟨_, _, _, rfl, rfl, rfl, fits_float_float _⟩
    · exact ⟨_, _, _, rfl, rfl, rfl, fits_float_float _⟩

theorem add_numeric (op : Opcode) (left : lhs.isNumeric = true) (right : rhs.isNumeric = true)
    (fitsA : a.Fits lhs) (fitsB : b.Fits rhs) :
    ∃ v, add op a b = .ok v ∧ v.Fits (Grammar.numericResult lhs rhs) := by
  obtain ⟨x, y, result, rfl, rfl, sum, fits⟩ :=
    numeric?_fits (· + ·) (· + ·) left right fitsA fitsB
  exact ⟨_, by simp only [add, addAtoms, Atom.add, sum]; rfl, fits⟩

theorem sub_numeric (op : Opcode) (left : lhs.isNumeric = true) (right : rhs.isNumeric = true)
    (fitsA : a.Fits lhs) (fitsB : b.Fits rhs) :
    ∃ v, sub op a b = .ok v ∧ v.Fits (Grammar.numericResult lhs rhs) := by
  obtain ⟨x, y, result, rfl, rfl, difference, fits⟩ :=
    numeric?_fits (· - ·) (· - ·) left right fitsA fitsB
  exact ⟨_, by simp only [sub, difference], fits⟩

theorem mul_numeric (op : Opcode) (left : lhs.isNumeric = true) (right : rhs.isNumeric = true)
    (fitsA : a.Fits lhs) (fitsB : b.Fits rhs) :
    ∃ v, mul op a b = .ok v ∧ v.Fits (Grammar.numericResult lhs rhs) := by
  obtain ⟨x, y, result, rfl, rfl, product, fits⟩ :=
    numeric?_fits (· * ·) (· * ·) left right fitsA fitsB
  exact ⟨_, by simp only [mul, product], fits⟩

theorem div_numeric (op : Opcode) (left : lhs.isNumeric = true) (right : rhs.isNumeric = true)
    (fitsA : a.Fits lhs) (fitsB : b.Fits rhs) :
    Outcome (div op a b) (∃ x, · = .float x) (· = .divisionByZero op) := by
  have numbers : ∃ x y, a.toFloat? = some x ∧ b.toFloat? = some y := by
    rcases fitsA.numeric left with ⟨m, rfl⟩ | ⟨x, rfl⟩ <;>
      rcases fitsB.numeric right with ⟨n, rfl⟩ | ⟨y, rfl⟩ <;> exact ⟨_, _, rfl, rfl⟩
  obtain ⟨x, y, dividend, divisor⟩ := numbers
  simp only [div, dividend, divisor]
  split
  · exact rfl
  · exact ⟨_, rfl⟩

end Value

theorem Arithmetic.resultTy?_cases {operation : Arithmetic} {lhs rhs ty : Ty}
    (result : operation.resultTy? lhs rhs = some ty) :
    lhs.isNumeric = true ∧ rhs.isNumeric = true ∧
        ty = (if operation = .divide then .float else Grammar.numericResult lhs rhs) ∨
      lhs = .str ∧ rhs = .str ∧ ty = .str ∧ (operation = .add ∨ operation = .subtract) ∨
      lhs = .bool ∧ rhs = .bool ∧ ty = .bool ∧ (operation = .add ∨ operation = .multiply) := by
  simp only [resultTy?, Bool.and_eq_true, Bool.or_eq_true, decide_eq_true_eq] at result
  split at result
  · rename_i numeric
    exact .inl ⟨numeric.1, numeric.2, (Option.some.inj result).symm⟩
  · split at result
    · rename_i strings
      split at result
      · exact .inr (.inl ⟨strings.1, strings.2, (Option.some.inj result).symm, ‹_›⟩)
      · cases result
    · split at result
      · rename_i truths
        split at result
        · exact .inr (.inr ⟨truths.1, truths.2, (Option.some.inj result).symm, ‹_›⟩)
        · cases result
      · cases result

theorem Arithmetic.apply_outcome {operation : Arithmetic} {a b : Value} {lhs rhs ty : Ty}
    (result : operation.resultTy? lhs rhs = some ty) (fitsA : a.Fits lhs) (fitsB : b.Fits rhs) :
    Outcome (operation.apply a b) (·.Fits ty) (·.isResidual) := by
  rcases resultTy?_cases result with ⟨left, right, rfl⟩ | ⟨rfl, rfl, rfl, which⟩ |
    ⟨rfl, rfl, rfl, which⟩
  · cases operation with
    | add =>
        obtain ⟨v, sum, fits⟩ := Value.add_numeric .add left right fitsA fitsB
        simpa [apply, Arithmetic.opcode, sum, Outcome] using fits
    | subtract =>
        obtain ⟨v, difference, fits⟩ := Value.sub_numeric .sub left right fitsA fitsB
        simpa [apply, Arithmetic.opcode, difference, Outcome] using fits
    | multiply =>
        obtain ⟨v, product, fits⟩ := Value.mul_numeric .mul left right fitsA fitsB
        simpa [apply, Arithmetic.opcode, product, Outcome] using fits
    | divide =>
        have quotient := Value.div_numeric .div left right fitsA fitsB
        simp only [apply, Arithmetic.opcode, if_true]
        cases run : Value.div .div a b with
        | ok v =>
            rw [run] at quotient
            obtain ⟨x, rfl⟩ := quotient
            exact Value.fits_float_float x
        | error fault =>
            rw [run] at quotient
            obtain rfl := quotient
            rfl
  · obtain ⟨s, rfl⟩ := fitsA.exists_str
    obtain ⟨t, rfl⟩ := fitsB.exists_str
    rcases which with rfl | rfl <;> exact (Value.hasTy_str _).fits
  · obtain ⟨p, rfl⟩ := fitsA.exists_bool
    obtain ⟨q, rfl⟩ := fitsB.exists_bool
    rcases which with rfl | rfl <;> exact (Value.hasTy_bool _).fits

/-- An operation computes with floats if one operand is a float, or if it is a division. -/
theorem Arithmetic.apply_float {operation : Arithmetic} {a b v : Value} {lhs rhs ty : Ty}
    (result : operation.resultTy? lhs rhs = some ty) (fitsA : a.Fits lhs) (fitsB : b.Fits rhs)
    (float : operation = .divide ∨ a.HasTy .float ∨ b.HasTy .float)
    (run : operation.apply a b = .ok v) : v.HasTy .float := by
  rcases resultTy?_cases result with ⟨left, right, -⟩ | ⟨rfl, rfl, -, which⟩ |
    ⟨rfl, rfl, -, which⟩
  · by_cases quotient : operation = .divide
    · subst quotient
      have divided : Outcome (apply .divide a b) _ _ :=
        Value.div_numeric .div left right fitsA fitsB
      rw [run] at divided
      obtain ⟨x, rfl⟩ := divided
      exact Value.hasTy_float x
    · rcases fitsA.numeric left with ⟨m, rfl⟩ | ⟨x, rfl⟩ <;>
        rcases fitsB.numeric right with ⟨n, rfl⟩ | ⟨y, rfl⟩
      · rcases float with divide | typed | typed
        · exact absurd divide quotient
        · cases typed.ty_eq
        · cases typed.ty_eq
      all_goals cases operation <;> first | contradiction | (cases run; exact Value.hasTy_float _)
  · obtain ⟨s, rfl⟩ := fitsA.exists_str
    obtain ⟨t, rfl⟩ := fitsB.exists_str
    rcases float with rfl | typed | typed
    · simp at which
    · cases typed.ty_eq
    · cases typed.ty_eq
  · obtain ⟨p, rfl⟩ := fitsA.exists_bool
    obtain ⟨q, rfl⟩ := fitsB.exists_bool
    rcases float with rfl | typed | typed
    · simp at which
    · cases typed.ty_eq
    · cases typed.ty_eq

namespace Value

theorem neg_hasTy {a : Value} {ty : Ty} (negatable : ty.isNumeric = true ∨ ty = .bool)
    (typed : a.HasTy ty) : ∃ v, a.neg = .ok v ∧ v.HasTy ty := by
  rcases negatable with numeric | rfl
  · rcases typed.fits.numeric numeric with ⟨n, rfl⟩ | ⟨x, rfl⟩
    · rw [← typed.ty_eq]
      exact ⟨_, rfl, hasTy_int _⟩
    · rw [← typed.ty_eq]
      exact ⟨_, rfl, hasTy_float _⟩
  · obtain ⟨p, rfl⟩ := typed.exists_bool
    exact ⟨_, rfl, hasTy_bool _⟩

theorem neg_fits {a : Value} {ty : Ty} (negatable : ty.isNumeric = true ∨ ty = .bool)
    (fits : a.Fits ty) : ∃ v, a.neg = .ok v ∧ v.Fits ty := by
  rcases fits with typed | ⟨rfl, typed⟩
  · obtain ⟨v, negated, exact⟩ := neg_hasTy negatable typed
    exact ⟨v, negated, exact.fits⟩
  · obtain ⟨v, negated, exact⟩ := neg_hasTy (.inl rfl) typed
    exact ⟨v, negated, .inr ⟨rfl, exact⟩⟩

theorem atomOrdering_ok (op : Opcode) {a b : Value} {lhs rhs : Ty}
    (left : lhs.isNumeric = true) (right : rhs.isNumeric = true) (fitsA : a.Fits lhs)
    (fitsB : b.Fits rhs) :
    ∃ x y ordering, a = .atom x ∧ b = .atom y ∧ atomOrdering op x y = .ok ordering := by
  rcases fitsA.numeric left with ⟨m, rfl⟩ | ⟨x, rfl⟩ <;>
    rcases fitsB.numeric right with ⟨n, rfl⟩ | ⟨y, rfl⟩ <;> exact ⟨_, _, _, rfl, rfl, rfl⟩

theorem atomOrdering_scalar (op : Opcode) {a b : Atom} (same : a.scalar = b.scalar) :
    ∃ ordering, atomOrdering op a b = .ok ordering := by
  cases a <;> cases b <;> first | exact ⟨_, rfl⟩ | cases same

theorem compare_outcome (relation : Relation) {a b : Value} {lhs rhs : Ty}
    (consistent : lhs.consistent rhs = true) (fitsA : a.Fits lhs) (fitsB : b.Fits rhs) :
    Outcome (compare relation.opcode a b) (fun _ => True) (·.isResidual) := by
  have ordered : ∀ x y ordering, a = .atom x → b = .atom y →
      atomOrdering relation.opcode x y = .ok ordering →
      Outcome (compare relation.opcode a b) (fun _ => True) (·.isResidual) := by
    rintro x y ordering rfl rfl order
    simp only [compare, order, Except.bind, bind, Relation.ofOpcode?_opcode]
    trivial
  simp only [Ty.consistent, Bool.or_eq_true, Bool.and_eq_true, decide_eq_true_eq] at consistent
  rcases consistent with rfl | ⟨left, right⟩
  · rcases fitsA with typedA | ⟨rfl, typedA⟩
    · rcases fitsB with typedB | ⟨rfl, typedB⟩
      · cases lhs with
        | scalar s =>
            obtain ⟨x, rfl, scalarX⟩ := typedA.exists_atom
            obtain ⟨y, rfl, scalarY⟩ := typedB.exists_atom
            obtain ⟨ordering, order⟩ :=
              atomOrdering_scalar relation.opcode (scalarX.trans scalarY.symm)
            exact ordered x y ordering rfl rfl order
        | array index element =>
            obtain ⟨x, rfl, -⟩ := typedA.exists_array
            obtain ⟨y, rfl, -⟩ := typedB.exists_array
            simp only [compare, Relation.ofOpcode?_opcode]
            cases relation with
            | equal | notEqual => exact trivial
            | lessEqual | greaterEqual | less | greater => rfl
      · obtain ⟨x, y, ordering, hx, hy, order⟩ :=
          atomOrdering_ok relation.opcode rfl rfl typedA.fits typedB.fits
        exact ordered x y ordering hx hy order
    · obtain ⟨x, y, ordering, hx, hy, order⟩ :=
        atomOrdering_ok relation.opcode rfl rfl typedA.fits fitsB
      exact ordered x y ordering hx hy order
  · obtain ⟨x, y, ordering, hx, hy, order⟩ :=
      atomOrdering_ok relation.opcode left right fitsA fitsB
    exact ordered x y ordering hx hy order

end Value

theorem Builtin.call_fits (builtin : Builtin) {v : Value} (fits : v.Fits .float) :
    ∃ x, builtin.call v = .ok (.float x) := by
  rcases fits.numeric rfl with ⟨n, rfl⟩ | ⟨x, rfl⟩ <;> exact ⟨_, rfl⟩

/-! Merging an array into one of the same type. -/

namespace Sparse

theorem add_scalar (op : Opcode) {a b : Atom} (same : b.scalar = a.scalar) :
    ∃ sum, a.add op b = .ok sum ∧ sum.scalar = a.scalar := by
  cases a <;> cases b <;> first | exact ⟨_, rfl, rfl⟩ | cases same

variable {index : List Scalar} {element : Ty}

theorem mergeCells_meets (op : Opcode) {inner : Sparse Value → Edit (Sparse Value) Unit}
    (merges : ∀ other index element, other.Typed index element →
      Meets (·.Typed index element) (inner other) (fun _ a => a.Typed index element)
        (fun _ _ => False))
    {cells : List (Key × Value)} (keys : ∀ cell ∈ cells, cell.1.map Atom.scalar = index)
    (elements : ∀ cell ∈ cells, cell.2.HasTy element) :
    Meets (·.Typed index element) (mergeCells op inner cells) (fun _ a => a.Typed index element)
      (fun _ _ => False) := by
  induction cells with
  | nil => exact Meets.pure fun _ typed => typed
  | cons cell cells induction =>
      obtain ⟨key, value⟩ := cell
      have exact : key.map Atom.scalar = index := keys (key, value) (by simp)
      have typed : value.HasTy element := elements (key, value) (by simp)
      have rest := induction (fun cell member => keys cell (by simp [member]))
        (fun cell member => elements cell (by simp [member]))
      have edits {edit : Edit Value Unit}
          (keeps : Value.Keeps edit element (fun _ => True) (fun _ => False)) :
          Meets (·.Typed index element) (editElement (key.map .atom) edit)
            (fun _ a => a.Typed index element) (fun _ _ => False) :=
        (editElement_meets exact keeps).mono (fun _ typed => typed) (fun _ _ done => done.1)
          (fun _ _ fault => fault.2)
      refine Meets.bind (edits ?_) fun _ => rest
      intro target targetTyped
      cases element with
      | scalar s =>
          obtain ⟨x, rfl, rfl⟩ := targetTyped.exists_atom
          obtain ⟨y, rfl, same⟩ := typed.exists_atom
          obtain ⟨sum, added, scalar⟩ := add_scalar op same
          have whole : (Value.atom x).addAtoms op (.atom y) = .ok (.atom sum) := by
            simp only [Value.addAtoms, added]
            rfl
          simp only [whole]
          refine ⟨?_, trivial⟩
          rw [← scalar]
          exact .atom sum
      | array index' element' =>
          obtain ⟨x, rfl, -⟩ := targetTyped.exists_array
          obtain ⟨y, rfl, inside⟩ := typed.exists_array
          exact Value.keeps_editArray
            ((merges y index' element' inside).mono (fun _ typed => typed)
              (fun _ _ typed => ⟨typed, trivial⟩) (fun _ _ impossible => impossible.elim))
            (.array x) targetTyped

theorem widenCells_same {cells : List (Key × Value)}
    (keys : ∀ cell ∈ cells, cell.1.map Atom.scalar = index)
    (elements : ∀ cell ∈ cells, cell.2.HasTy element) :
    (∀ cell ∈ Value.widenCells cells index element, cell.1.map Atom.scalar = index) ∧
      ∀ cell ∈ Value.widenCells cells index element, cell.2.HasTy element := by
  constructor
  · intro cell member
    obtain ⟨key, value, inside, rfl⟩ := Value.mem_widenCells member
    apply Value.scalars_widen
    rw [keys _ inside]
    exact Ty.acceptsIndex_refl index
  · intro cell member
    obtain ⟨key, value, inside, rfl⟩ := Value.mem_widenCells member
    exact (elements _ inside).widen (Ty.accepts_refl element)

theorem mergeWithin_meets (op : Opcode) (depth : Nat) {other : Sparse Value}
    (typed : other.Typed index element) :
    Meets (·.Typed index element) (mergeWithin op depth other) (fun _ a => a.Typed index element)
      (fun _ _ => False) := by
  induction depth generalizing other index element with
  | zero => exact Meets.pure fun _ typed => typed
  | succ depth induction =>
      intro target targetTyped
      have accepted : target.ty.accepts other.ty = true := by
        rw [Sparse.ty, Sparse.ty, targetTyped.index_eq, targetTyped.element_eq, typed.index_eq,
          typed.element_eq]
        exact Ty.accepts_refl _
      have cells := widenCells_same typed.keys typed.elements
      have merged := mergeCells_meets op
        (fun other index element typed => induction typed) cells.1 cells.2 target targetTyped
      simpa only [mergeWithin, accepted, if_true, Sparse.widen, targetTyped.index_eq,
        targetTyped.element_eq] using merged

theorem merge_meets (op : Opcode) {other : Sparse Value} (typed : other.Typed index element) :
    Meets (·.Typed index element) (merge op other) (fun _ a => a.Typed index element)
      (fun _ _ => False) :=
  mergeWithin_meets op _ typed

end Sparse

/-! Assignments that the static types allow. -/

namespace Value

theorem keeps_store {value : Value} {ty : Ty} (fits : value.Fits ty) :
    Keeps (store value) ty (fun _ => True) (fun _ => False) := by
  intro cell typed
  rcases fits with same | ⟨rfl, int⟩
  · cases ty with
    | scalar s =>
        obtain ⟨x, rfl, scalarX⟩ := typed.exists_atom
        obtain ⟨y, rfl, scalarY⟩ := same.exists_atom
        subst scalarX
        cases x <;> cases y <;> first | exact ⟨same, trivial⟩ | cases scalarY
    | array index element =>
        obtain ⟨target, rfl, targetTyped⟩ := typed.exists_array
        obtain ⟨source, rfl, sourceTyped⟩ := same.exists_array
        have accepted : target.ty.accepts source.ty = true := by
          rw [Sparse.ty, Sparse.ty, targetTyped.index_eq, targetTyped.element_eq,
            sourceTyped.index_eq, sourceTyped.element_eq]
          exact Ty.accepts_refl _
        have widened := same.widen (Ty.accepts_refl (.array index element))
        simp only [store, accepted, if_true]
        rw [Sparse.ty, targetTyped.index_eq, targetTyped.element_eq]
        exact ⟨widened, trivial⟩
  · obtain ⟨x, rfl⟩ := typed.exists_float
    obtain ⟨n, rfl⟩ := int.exists_int
    exact ⟨hasTy_float _, trivial⟩

theorem keeps_update (operator : Value → Except Fault Value) {ty : Ty} {faults : Fault → Prop}
    (outcome : ∀ cell : Value, cell.HasTy ty → Outcome (operator cell) (·.HasTy ty) faults) :
    Keeps (update operator) ty (fun _ => True) faults := by
  intro cell typed
  have result := outcome cell typed
  simp only [update]
  cases run : operator cell with
  | ok v =>
      rw [run] at result
      exact ⟨result, trivial⟩
  | error fault =>
      rw [run] at result
      exact ⟨typed, result⟩

theorem numeric?_cell (onInts : Int64 → Int64 → Int64) (onFloats : Float → Float → Float)
    {cell value : Value} {target : Ty} (numeric : target.isNumeric = true)
    (typed : cell.HasTy target) (fits : value.Fits target) :
    ∃ x y result, cell = .atom x ∧ value = .atom y ∧
      Atom.numeric? onInts onFloats x y = some result ∧ (Value.atom result).HasTy target := by
  cases target with
  | array index element => simp [Ty.isNumeric] at numeric
  | scalar s =>
      cases s with
      | int =>
          obtain ⟨m, rfl⟩ := typed.exists_int
          obtain ⟨n, rfl⟩ := (fits.hasTy (by simp)).exists_int
          exact ⟨_, _, _, rfl, rfl, rfl, hasTy_int _⟩
      | float =>
          obtain ⟨x, rfl⟩ := typed.exists_float
          rcases fits.numeric rfl with ⟨n, rfl⟩ | ⟨y, rfl⟩ <;>
            exact ⟨_, _, _, rfl, rfl, rfl, hasTy_float _⟩
      | _ => simp [Ty.isNumeric, Scalar.isNumeric] at numeric

theorem assign_set (value : Value) : assign Update.set.opcode value = store value := rfl

theorem assign_update {update : Update} {operator : Opcode → Value → Value → Except Fault Value}
    (which : (update, operator) = (.add, add) ∨ (update, operator) = (.subtract, sub) ∨
      (update, operator) = (.multiply, mul))
    {cell value : Value} (fine : ∀ n x, ¬ (cell = .int n ∧ value = .float x))
    (scalar : update = .add → cell.kind ≠ .array) :
    assign update.opcode value cell = Value.update (operator update.opcode · value) cell := by
  rcases which with equal | equal | equal <;> cases equal <;>
    rcases cell with (m | x | s | p) | target <;> rcases value with (n | y | t | q) | source <;>
    first
    | rfl
    | exact absurd ⟨rfl, rfl⟩ (fine _ _)
    | exact absurd rfl (scalar rfl)

theorem Fits.not_float {value : Value} (fits : value.Fits .int) (x : Float) :
    value ≠ .float x := by
  rintro rfl
  obtain ⟨n, equal⟩ := (fits.hasTy (by simp)).exists_int
  cases equal

theorem no_float_to_int {cell value : Value} {target : Ty} (typed : cell.HasTy target)
    (fits : value.Fits target) (n : Int64) (x : Float) :
    ¬ (cell = .int n ∧ value = .float x) := by
  rintro ⟨rfl, rfl⟩
  have int : target = .int := typed.ty_eq.symm
  subst int
  exact fits.not_float x rfl

theorem HasTy.kind_ne_array {cell : Value} {s : Scalar} (typed : cell.HasTy (.scalar s)) :
    cell.kind ≠ .array := by
  obtain ⟨a, rfl, -⟩ := typed.exists_atom
  cases a <;> simp [Value.kind, Atom.kind]

theorem keeps_assign_update {update : Update}
    {operator : Opcode → Value → Value → Except Fault Value}
    (which : (update, operator) = (.add, add) ∨ (update, operator) = (.subtract, sub) ∨
      (update, operator) = (.multiply, mul))
    {value : Value} {s : Scalar} (fits : value.Fits (.scalar s))
    (defined : ∀ cell : Value, cell.HasTy (.scalar s) →
      ∃ v, operator update.opcode cell value = .ok v ∧ v.HasTy (.scalar s)) :
    Keeps (assign update.opcode value) (.scalar s) (fun _ => True) (·.isResidual) := by
  intro cell typed
  have step := assign_update which (no_float_to_int typed fits) (fun _ => typed.kind_ne_array)
  rw [step]
  refine keeps_update (operator update.opcode · value) ?_ cell typed
  intro cell typed
  obtain ⟨v, result, hasTy⟩ := defined cell typed
  simp only [Outcome, result]
  exact hasTy

theorem keeps_assign_numeric {update : Update}
    {operator : Opcode → Value → Value → Except Fault Value}
    (which : (update, operator) = (.add, add) ∨ (update, operator) = (.subtract, sub) ∨
      (update, operator) = (.multiply, mul))
    {value : Value} {target : Ty} (numeric : target.isNumeric = true)
    (fits : value.Fits target) :
    Keeps (assign update.opcode value) target (fun _ => True) (·.isResidual) := by
  cases target with
  | array index element => simp [Ty.isNumeric] at numeric
  | scalar s =>
      refine keeps_assign_update which fits fun cell typed => ?_
      rcases which with equal | equal | equal <;> cases equal
      · obtain ⟨x, y, result, rfl, rfl, sum, hasTy⟩ :=
          numeric?_cell (· + ·) (· + ·) numeric typed fits
        exact ⟨_, by simp only [add, addAtoms, Atom.add, sum]; rfl, hasTy⟩
      · obtain ⟨x, y, result, rfl, rfl, difference, hasTy⟩ :=
          numeric?_cell (· - ·) (· - ·) numeric typed fits
        exact ⟨_, by simp only [sub, difference], hasTy⟩
      · obtain ⟨x, y, result, rfl, rfl, product, hasTy⟩ :=
          numeric?_cell (· * ·) (· * ·) numeric typed fits
        exact ⟨_, by simp only [mul, product], hasTy⟩

theorem keeps_assign_divide {value : Value} (fits : value.Fits .float) :
    Keeps (assign Update.divide.opcode value) .float (fun _ => True) (·.isResidual) := by
  intro cell typed
  obtain ⟨x, rfl⟩ := typed.exists_float
  have step : assign Update.divide.opcode value (.float x) =
      Value.update (div .moveDiv · value) (.float x) := by
    rcases value with (n | y | t | q) | source <;> rfl
  rw [step]
  refine keeps_update (div .moveDiv · value) ?_ (.float x) typed
  intro cell typed
  have quotient : Outcome (div .moveDiv cell value) _ _ :=
    div_numeric .moveDiv rfl rfl typed.fits fits
  simp only [Outcome] at quotient ⊢
  split
  · rename_i run
    rw [run] at quotient
    obtain ⟨y, rfl⟩ := quotient
    exact hasTy_float y
  · rename_i run
    rw [run] at quotient
    rw [quotient]
    rfl

/-- An assignment that the static types allow keeps the type of the cell. -/
theorem keeps_assign {update : Update} {value : Value} {target ty : Ty}
    (allowed : Grammar.updateAllowed update target ty = true) (fits : value.Fits ty) :
    Keeps (assign update.opcode value) target (fun _ => True) (·.isResidual) := by
  simp only [Grammar.updateAllowed, Bool.and_eq_true] at allowed
  obtain ⟨assignable, operator⟩ := allowed
  have stored := fits.assign assignable
  -- Strings and arrays can be assigned only where the types are equal.
  cases update with
  | set =>
      rw [assign_set]
      exact (keeps_store stored).mono (fun _ typed => typed) (fun _ _ done => done)
        (fun _ _ fault => ⟨fault.1, fault.2.elim⟩)
  | add =>
      simp only [Bool.or_eq_true, Bool.and_eq_true, decide_eq_true_eq] at operator
      rcases operator with (numbers | ⟨rfl, rfl⟩) | arrays
      · exact keeps_assign_numeric (.inl rfl) numbers.1 stored
      · refine keeps_assign_update (.inl rfl) stored fun cell typed => ?_
        obtain ⟨s, rfl⟩ := typed.exists_str
        obtain ⟨t, rfl⟩ := fits.exists_str
        exact ⟨_, rfl, hasTy_str _⟩
      · cases target with
        | scalar s => simp [Ty.isArray] at arrays
        | array index element =>
            obtain ⟨source, rfl, inside⟩ := (stored.hasTy (by simp)).exists_array
            intro cell typed
            obtain ⟨a, rfl, -⟩ := typed.exists_array
            exact keeps_editArray ((Sparse.merge_meets .moveAdd inside).mono
              (fun _ typed => typed) (fun _ _ typed => ⟨typed, trivial⟩)
              (fun _ _ impossible => impossible.elim)) (.array a) typed
  | subtract =>
      simp only [Bool.or_eq_true, Bool.and_eq_true, decide_eq_true_eq] at operator
      rcases operator with (numbers | ⟨rfl, rfl⟩) | arrays
      · exact keeps_assign_numeric (.inr (.inl rfl)) numbers.1 stored
      · refine keeps_assign_update (.inr (.inl rfl)) stored fun cell typed => ?_
        obtain ⟨s, rfl⟩ := typed.exists_str
        obtain ⟨t, rfl⟩ := fits.exists_str
        exact ⟨_, rfl, hasTy_str _⟩
      · cases target with
        | scalar s => simp [Ty.isArray] at arrays
        | array index element =>
            obtain ⟨source, rfl, -⟩ := (stored.hasTy (by simp)).exists_array
            intro cell typed
            obtain ⟨a, rfl, -⟩ := typed.exists_array
            exact ⟨typed, rfl⟩
  | multiply =>
      simp only [Bool.and_eq_true] at operator
      exact keeps_assign_numeric (.inr (.inr rfl)) operator.1 stored
  | divide =>
      simp only [Bool.and_eq_true, decide_eq_true_eq] at operator
      obtain ⟨rfl, -⟩ := operator
      exact keeps_assign_divide stored

end Value

end StackScript
