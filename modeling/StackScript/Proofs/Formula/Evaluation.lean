import StackScript.Proofs.Formula.Values
import StackScript.Proofs.Machine.Run
import StackScript.Proofs.Tree.Flow

namespace StackScript

/-! The code of a formula evaluates it. -/

namespace Machine

variable {unit : CodeUnit} {m m' m'' : Machine} {bytes bytes' : Nat}

/-- The machine gets to another one in no more steps than there are bytes of code on the way. -/
def Reaches (unit : CodeUnit) (bytes : Nat) (m m' : Machine) : Prop :=
  ∃ steps ≤ bytes, runFor unit steps m = (.running, m')

/-- Within so many bytes the machine divides by zero, without an assignment before. -/
def DividesByZero (unit : CodeUnit) (bytes : Nat) (m : Machine) : Prop :=
  ∃ steps ≤ bytes, ∃ m', runFor unit steps m = (.failed (.divisionByZero .div), m') ∧
    m'.statics = m.statics

/-- Within so many bytes the machine has computed a value, or divides by zero if there is none. -/
def Computes (unit : CodeUnit) (bytes : Nat) (m : Machine) (after : Atom → Machine) :
    Option Atom → Prop
  | some a => Reaches unit bytes m (after a)
  | none => DividesByZero unit bytes m

/-- The machine behind code of so many bytes that puts a value on the stack. -/
def pushed (bytes : Nat) (m : Machine) (a : Atom) : Machine :=
  { m with ip := m.ip + bytes, stack := m.stack.push (.value (.atom a)) }

theorem Reaches.trans (first : Reaches unit bytes m m') (second : Reaches unit bytes' m' m'') :
    Reaches unit (bytes + bytes') m m'' := by
  obtain ⟨steps, bound, run⟩ := first
  obtain ⟨steps', bound', run'⟩ := second
  exact ⟨steps + steps', Nat.add_le_add bound bound', (runFor_add run steps').trans run'⟩

theorem Reaches.dividesByZero (first : Reaches unit bytes m m')
    (second : DividesByZero unit bytes' m') (same : m'.statics = m.statics) :
    DividesByZero unit (bytes + bytes') m := by
  obtain ⟨steps, bound, run⟩ := first
  obtain ⟨steps', bound', last, run', kept⟩ := second
  exact ⟨steps + steps', Nat.add_le_add bound bound', last,
    (runFor_add run steps').trans run', kept.trans same⟩

theorem Reaches.mono (reaches : Reaches unit bytes m m') (more : bytes ≤ bytes') :
    Reaches unit bytes' m m' := by
  obtain ⟨steps, bound, run⟩ := reaches
  exact ⟨steps, Nat.le_trans bound more, run⟩

theorem DividesByZero.mono (divides : DividesByZero unit bytes m) (more : bytes ≤ bytes') :
    DividesByZero unit bytes' m := by
  obtain ⟨steps, bound, run⟩ := divides
  exact ⟨steps, Nat.le_trans bound more, run⟩

variable {after after' : Atom → Machine} {value : Option Atom}

theorem Computes.mono (computes : Computes unit bytes m after value) (more : bytes ≤ bytes') :
    Computes unit bytes' m after value := by
  cases value with
  | none => exact DividesByZero.mono computes more
  | some a => exact Reaches.mono computes more

theorem Reaches.computes (first : Reaches unit bytes m m') (same : m'.statics = m.statics)
    (second : Computes unit bytes' m' after value) :
    Computes unit (bytes + bytes') m after value := by
  cases value with
  | none => exact first.dividesByZero second same
  | some a => exact first.trans second

theorem Computes.bind {next : Atom → Option Atom} (first : Computes unit bytes m after value)
    (same : ∀ a, (after a).statics = m.statics)
    (second : ∀ a, value = some a → Computes unit bytes' (after a) after' (next a)) :
    Computes unit (bytes + bytes') m after' (value >>= next) := by
  cases value with
  | none => exact DividesByZero.mono first (Nat.le_add_right _ _)
  | some a => exact Reaches.computes first (same a) (second a rfl)

theorem reaches_step {instruction : Instruction} {width : Nat}
    (decoded : unit.instructionAt? m.ip = some (instruction, width))
    (executed : Action.execute unit.table instruction { m with ip := m.ip + width } =
      .ok .running m') : Reaches unit 1 m m' :=
  ⟨1, Nat.le_refl 1, runFor_one ((step_eq decoded).trans executed) rfl⟩

theorem reaches_of_execute {instruction : Instruction} {width : Nat}
    (decoded : unit.instructionAt? m.ip = some (instruction, width))
    (executed : Action.execute unit.table instruction { m with ip := m.ip + width } =
      .ok .running m') : Reaches unit width m m' :=
  (reaches_step decoded executed).mono (Instruction.decode?_width_pos decoded)

theorem dividesByZero_of_execute {instruction : Instruction} {width : Nat}
    (decoded : unit.instructionAt? m.ip = some (instruction, width))
    (executed : Action.execute unit.table instruction { m with ip := m.ip + width } =
      .error (.divisionByZero .div) m') (same : m'.statics = m.statics) :
    DividesByZero unit width m := by
  refine ⟨1, Instruction.decode?_width_pos decoded, m', ?_, same⟩
  rw [runFor, (step_eq decoded).trans executed]

end Machine

namespace Action

variable {m : Machine} {stack : Array Operand}

theorem push_eq {operand : Operand} (room : m.stack.size < Machine.stackLimit) :
    push operand m = .ok () { m with stack := m.stack.push operand } := by
  rw [push, if_pos room]

theorem pop_eq {operand : Operand} (top : m.stack = stack.push operand) :
    pop m = .ok operand { m with stack } := by
  simp only [pop, top, Array.back?_push, Array.pop_push]

theorem popValue_eq {value : Value} (top : m.stack = stack.push (.value value)) :
    popValue m = .ok value { m with stack } := by
  simp only [popValue, bind, EStateM.bind, pop_eq top]
  rfl

theorem binary_ok {operator : Value → Value → Except Fault Value} {lhs rhs result : Value}
    (top : m.stack = (stack.push (.value lhs)).push (.value rhs))
    (value : operator lhs rhs = .ok result) (room : stack.size < Machine.stackLimit) :
    binary operator m = .ok () { m with stack := stack.push (.value result) } := by
  simp only [binary, bind, EStateM.bind, popValue_eq top,
    popValue_eq (m := { m with stack := stack.push (.value lhs) }) rfl, Edit.ofExcept, value]
  exact push_eq room

theorem binary_error {operator : Value → Value → Except Fault Value} {lhs rhs : Value}
    {fault : Fault} (top : m.stack = (stack.push (.value lhs)).push (.value rhs))
    (value : operator lhs rhs = .error fault) :
    binary operator m = .error fault { m with stack } := by
  simp only [binary, bind, EStateM.bind, popValue_eq top,
    popValue_eq (m := { m with stack := stack.push (.value lhs) }) rfl, Edit.ofExcept, value]

theorem neg_ok {table : List Entry} {value result : Value}
    (top : m.stack = stack.push (.value value)) (negated : value.neg = .ok result)
    (room : stack.size < Machine.stackLimit) :
    execute table .neg m = .ok .running { m with stack := stack.push (.value result) } := by
  simp only [execute, bind, EStateM.bind, popValue_eq top, Edit.ofExcept, negated]
  rw [push_eq room]
  rfl

theorem jumpIfFalse_eq {table : List Entry} {target : UInt32} {b : Bool}
    (top : m.stack = stack.push (.value (.bool b))) :
    execute table (.jumpIfFalse target) m =
      .ok .running { m with stack, ip := if b then m.ip else target.toNat } := by
  simp only [execute, jumpIfFalse, bind, EStateM.bind, popValue_eq top]
  cases b <;> rfl

end Action

/-! The instructions of a formula. -/

def Connective.instruction : Connective → Instruction
  | .or => .arith .add
  | .and => .arith .multiply
  | .relation test => .compare test
  | .arith operation => .arith operation

theorem Connective.execute_eq (connective : Connective) (table : List Entry) (m : Machine) :
    Action.execute table connective.instruction m =
      (do Action.binary connective.operator; pure .running : Action Progress) m := by
  cases connective <;> rfl

theorem Connective.execute_ok {connective : Connective} {table : List Entry} {m : Machine}
    {stack : Array Operand} {lhs rhs result : Value}
    (top : m.stack = (stack.push (.value lhs)).push (.value rhs))
    (value : connective.operator lhs rhs = .ok result) (room : stack.size < Machine.stackLimit) :
    Action.execute table connective.instruction m =
      .ok .running { m with stack := stack.push (.value result) } := by
  rw [connective.execute_eq]
  simp only [bind, EStateM.bind, Action.binary_ok top value room]
  rfl

theorem Connective.execute_error {connective : Connective} {table : List Entry} {m : Machine}
    {stack : Array Operand} {lhs rhs : Value} {fault : Fault}
    (top : m.stack = (stack.push (.value lhs)).push (.value rhs))
    (value : connective.operator lhs rhs = .error fault) :
    Action.execute table connective.instruction m = .error fault { m with stack } := by
  rw [connective.execute_eq]
  simp only [bind, EStateM.bind, Action.binary_error top value]

namespace Formula

def expr : Formula → Expr
  | .number n _ => .literal (.int (Int64.ofNat n))
  | .truth b => .literal (.bool b)
  | .signed _ operand => .negate operand.expr
  | .binary .or lhs rhs => .arith .add lhs.expr rhs.expr
  | .binary .and lhs rhs => .arith .multiply lhs.expr rhs.expr
  | .binary (.relation test) lhs rhs => .compare test lhs.expr rhs.expr
  | .binary (.arith operation) lhs rhs => .arith operation lhs.expr rhs.expr
  | .choice condition whenTrue whenFalse => .choice condition.expr whenTrue.expr whenFalse.expr

def listing (e : Formula) : Listing :=
  e.expr.listing

theorem listing_binary (connective : Connective) (lhs rhs : Formula) :
    (binary connective lhs rhs).listing =
      lhs.listing ++ rhs.listing ++ [connective.instruction] := by
  cases connective <;> rfl

theorem listing_choice (condition whenTrue whenFalse : Formula) :
    (choice condition whenTrue whenFalse).listing =
      condition.listing ++
        [.jumpIfFalse (UInt32.ofNat (jumpSize + whenTrue.listing.width + jumpSize))] ++
        whenTrue.listing ++ [.jump (UInt32.ofNat (jumpSize + whenFalse.listing.width))] ++
        whenFalse.listing :=
  rfl

theorem width_choice (condition whenTrue whenFalse : Formula) :
    (choice condition whenTrue whenFalse).listing.width =
      condition.listing.width +
        (jumpSize + whenTrue.listing.width + jumpSize + whenFalse.listing.width) := by
  simp only [listing_choice, Listing.width_append, Listing.width_cons, Listing.width_nil,
    Nat.add_zero, Instruction.width_jump, Instruction.width_jumpIfFalse, Nat.add_assoc]

/-- How many places on the stack the evaluation takes. -/
def room : Formula → Nat
  | .number _ _ | .truth _ => 1
  | .signed _ operand => operand.room
  | .binary _ lhs rhs => max lhs.room (rhs.room + 1)
  | .choice condition whenTrue whenFalse =>
      max condition.room (max whenTrue.room whenFalse.room)

theorem room_pos (e : Formula) : 0 < e.room := by
  induction e with
  | number | truth => exact Nat.one_pos
  | signed sign operand induction => exact induction
  | binary connective lhs rhs left right => exact Nat.lt_of_lt_of_le left (Nat.le_max_left _ _)
  | choice condition whenTrue whenFalse test _ _ =>
      exact Nat.lt_of_lt_of_le test (Nat.le_max_left _ _)

theorem exists_scalar {e : Formula} {ty : Ty} (typed : e.ty? = some ty) :
    ∃ s, ty = .scalar s ∧ s ≠ .str := by
  induction e generalizing ty with
  | number | truth =>
      cases typed
      exact ⟨_, rfl, by decide⟩
  | signed sign operand induction =>
      simp only [ty?, Option.bind_eq_bind, Option.bind_eq_some_iff] at typed
      obtain ⟨ty', inner, typed⟩ := typed
      cases sign <;> simp only [Sign.ty?, Option.ite_none_right_eq_some, Option.some.injEq] at typed
      · exact typed.2 ▸ induction inner
      · exact ⟨.bool, typed.2.symm, by decide⟩
  | binary connective lhs rhs left right =>
      simp only [ty?, Option.bind_eq_bind, Option.bind_eq_some_iff] at typed
      obtain ⟨tyL, -, tyR, -, typed⟩ := typed
      rcases Connective.ty?_cases typed with ⟨-, -, -, rfl⟩ | ⟨-, -, rfl⟩ | ⟨_, -, -, -, rfl⟩
      · exact ⟨.bool, rfl, by decide⟩
      · exact ⟨.bool, rfl, by decide⟩
      · split
        · exact ⟨.int, rfl, by decide⟩
        · exact ⟨.float, rfl, by decide⟩
  | choice condition whenTrue whenFalse _ accepted _ =>
      simp only [ty?, Option.bind_eq_bind, Option.bind_eq_some_iff, Option.ite_none_right_eq_some,
        Option.some.injEq] at typed
      obtain ⟨-, -, tyT, typedT, tyF, -, -, rfl⟩ := typed
      exact accepted typedT

theorem ty?_ne_str {e : Formula} {ty : Ty} (typed : e.ty? = some ty) : ty ≠ .str := by
  obtain ⟨s, rfl, plain⟩ := exists_scalar typed
  exact fun same => plain (Ty.scalar.inj same)

variable {unit : CodeUnit} {m : Machine}

theorem literal_reaches {instruction : Instruction} {a : Atom}
    (stands : Stands unit.code m.ip [instruction]) (clean : instruction.NulFree)
    (plain : instruction.shift m.ip = instruction)
    (room : m.stack.size + 1 ≤ Machine.stackLimit)
    (executed : ∀ m : Machine, Action.execute unit.table instruction m =
      (do Action.push (.value (.atom a)); pure .running : Action Progress) m) :
    Machine.Reaches unit 1 m (m.pushed (Listing.width [instruction]) a) := by
  have decoded := stands.decode clean
  rw [plain] at decoded
  have run := executed { m with ip := m.ip + instruction.width }
  rw [Listing.width_cons, Listing.width_nil, Nat.add_zero]
  refine Machine.reaches_step decoded (run.trans ?_)
  simp only [bind, EStateM.bind,
    Action.push_eq (m := { m with ip := m.ip + instruction.width }) room]
  rfl

theorem literal_computes {instruction : Instruction} {a : Atom}
    (stands : Stands unit.code m.ip [instruction]) (clean : instruction.NulFree)
    (plain : instruction.shift m.ip = instruction)
    (room : m.stack.size + 1 ≤ Machine.stackLimit)
    (executed : ∀ m : Machine, Action.execute unit.table instruction m =
      (do Action.push (.value (.atom a)); pure .running : Action Progress) m) :
    Machine.Computes unit (Listing.width [instruction]) m
      (m.pushed (Listing.width [instruction])) (some a) := by
  refine (literal_reaches stands clean plain room executed).mono ?_
  rw [Listing.width_cons, Instruction.width_eq]
  omega

theorem signed_computes {sign : Sign} {a : Atom} {ty : Ty} {bytes : Nat}
    (stands : Stands unit.code (m.ip + bytes) [.neg]) (typed : sign.ty? a.ty = some ty)
    (room : m.stack.size < Machine.stackLimit) :
    Machine.Computes unit (Listing.width [.neg]) (m.pushed bytes a)
      (m.pushed (bytes + Listing.width [.neg])) (some (sign.apply a)) := by
  have decoded : unit.instructionAt? (m.pushed bytes a).ip = some (.neg, Instruction.neg.width) :=
    stands.decode trivial
  have top : (m.pushed bytes a).stack = m.stack.push (.value (.atom a)) := rfl
  have reaches := Machine.reaches_of_execute decoded (Action.neg_ok top (Sign.neg_eq typed) room)
  have same : m.pushed (bytes + Listing.width [.neg]) (sign.apply a) =
      { m.pushed bytes a with
        ip := (m.pushed bytes a).ip + Instruction.neg.width
        stack := m.stack.push (.value (.atom (sign.apply a))) } := by
    simp only [Machine.pushed, Listing.width_cons, Listing.width_nil, Nat.add_zero, Nat.add_assoc]
  rw [Machine.Computes, same]
  exact reaches

theorem binary_computes {connective : Connective} {a b : Atom} {ty : Ty} {bytes bytes' : Nat}
    (stands : Stands unit.code (m.ip + bytes + bytes') [connective.instruction])
    (typed : connective.ty? a.ty b.ty = some ty) (plain : a.ty ≠ .str)
    (room : m.stack.size < Machine.stackLimit) :
    Machine.Computes unit (Listing.width [connective.instruction])
      ((m.pushed bytes a).pushed bytes' b)
      (m.pushed (bytes + bytes' + Listing.width [connective.instruction]))
      (connective.combine? a b) := by
  have clean : connective.instruction.NulFree := by cases connective <;> trivial
  have unshifted (base : Nat) : connective.instruction.shift base = connective.instruction := by
    cases connective <;> rfl
  have decoded : unit.instructionAt? ((m.pushed bytes a).pushed bytes' b).ip =
      some (connective.instruction, connective.instruction.width) := by
    have decoded := stands.decode clean
    rwa [unshifted] at decoded
  have top : ((m.pushed bytes a).pushed bytes' b).stack =
      (m.stack.push (.value (.atom a))).push (.value (.atom b)) := rfl
  have computed := Connective.operator_eq typed plain
  rw [Listing.width_cons, Listing.width_nil, Nat.add_zero]
  cases value : connective.combine? a b with
  | none =>
      rw [value] at computed
      exact Machine.dividesByZero_of_execute decoded (Connective.execute_error top computed) rfl
  | some c =>
      rw [value] at computed
      have reaches := Machine.reaches_of_execute decoded (Connective.execute_ok top computed room)
      have same : m.pushed (bytes + bytes' + connective.instruction.width) c =
          { (m.pushed bytes a).pushed bytes' b with
            ip := ((m.pushed bytes a).pushed bytes' b).ip + connective.instruction.width
            stack := m.stack.push (.value (.atom c)) } := by
        simp only [Machine.pushed, Nat.add_assoc]
      rw [Machine.Computes, same]
      exact reaches

theorem choice_computes {condition whenTrue whenFalse : Listing} {b : Bool} {value : Option Atom}
    (addressable : unit.code.length < 2 ^ 32)
    (stands : Stands unit.code m.ip
      (condition ++ [.jumpIfFalse (UInt32.ofNat (jumpSize + whenTrue.width + jumpSize))] ++
        whenTrue ++ [.jump (UInt32.ofNat (jumpSize + whenFalse.width))] ++ whenFalse))
    (accepted : ∀ m' : Machine, m'.stack = m.stack → Stands unit.code m'.ip whenTrue →
      b = true → Machine.Computes unit whenTrue.width m' (m'.pushed whenTrue.width) value)
    (refused : ∀ m' : Machine, m'.stack = m.stack → Stands unit.code m'.ip whenFalse →
      b = false → Machine.Computes unit whenFalse.width m' (m'.pushed whenFalse.width) value) :
    Machine.Computes unit (jumpSize + whenTrue.width + jumpSize + whenFalse.width)
      (m.pushed condition.width (.bool b))
      (m.pushed
        (condition.width + (jumpSize + whenTrue.width + jumpSize + whenFalse.width))) value := by
  have placed := CodeUnit.choiceAt addressable stands
  obtain ⟨target, decoded, forward⟩ := placed.test
  have tested := Machine.reaches_of_execute (m := m.pushed condition.width (.bool b)) decoded
    (Action.jumpIfFalse_eq rfl)
  cases b with
  | true =>
      -- The accepted branch is followed by a jump behind the whole.
      obtain ⟨behind, decoded, forward⟩ := placed.jump
      have inside := accepted { m with ip := m.ip + condition.width + jumpSize } rfl placed.accepted
        rfl
      have left (a : Atom) : Machine.Computes unit jumpSize
          (Machine.pushed whenTrue.width { m with ip := m.ip + condition.width + jumpSize } a)
          (m.pushed
            (condition.width + (jumpSize + whenTrue.width + jumpSize + whenFalse.width)))
          (some a) := by
        have jumped := Machine.reaches_of_execute
          (m := Machine.pushed whenTrue.width { m with ip := m.ip + condition.width + jumpSize } a)
          decoded rfl
        simpa only [Machine.Computes, Machine.pushed, forward, Nat.add_assoc] using jumped
      have whole := tested.computes rfl (inside.bind (fun _ => rfl) fun a _ => left a)
      rw [show (value >>= fun a => some a) = value from bind_pure value] at whole
      exact whole.mono (by omega)
  | false =>
      have inside := refused { m with ip := target.toNat } rfl
        (by simpa only [forward] using placed.refused) rfl
      have same : Machine.pushed whenFalse.width { m with ip := target.toNat } =
          m.pushed
            (condition.width + (jumpSize + whenTrue.width + jumpSize + whenFalse.width)) := by
        funext a
        simp only [Machine.pushed, forward, Nat.add_assoc]
      rw [same] at inside
      exact (tested.computes rfl inside).mono (by omega)

theorem evaluates (addressable : unit.code.length < 2 ^ 32) {e : Formula} {ty : Ty}
    (typed : e.ty? = some ty) (stands : Stands unit.code m.ip e.listing)
    (room : m.stack.size + e.room ≤ Machine.stackLimit) :
    Machine.Computes unit e.listing.width m (m.pushed e.listing.width) e.eval? := by
  induction e generalizing m ty with
  | number n inRange => exact literal_computes stands trivial rfl room fun _ => rfl
  | truth b => exact literal_computes stands trivial rfl room fun _ => rfl
  | signed sign operand induction =>
      have listed : (signed sign operand).listing = operand.listing ++ [.neg] := rfl
      rw [listed] at stands ⊢
      simp only [ty?, Option.bind_eq_bind, Option.bind_eq_some_iff] at typed
      obtain ⟨ty', inner, typed⟩ := typed
      have space := operand.room_pos
      rw [Formula.room] at room
      rw [Listing.width_append, eval?]
      refine (induction inner stands.append_left room).bind (fun _ => rfl) fun a value => ?_
      obtain rfl := eval?_ty inner value
      exact signed_computes stands.append_right typed (by omega)
  | binary connective lhs rhs left right =>
      rw [listing_binary] at stands ⊢
      simp only [ty?, Option.bind_eq_bind, Option.bind_eq_some_iff] at typed
      obtain ⟨tyL, typedL, tyR, typedR, typed⟩ := typed
      have space := lhs.room_pos
      rw [Formula.room] at room
      rw [Listing.width_append, Listing.width_append, eval?, Nat.add_assoc]
      refine (left typedL stands.append_left.append_left (by omega)).bind (fun _ => rfl)
        fun a valueL => ?_
      have second := right typedR (m := m.pushed lhs.listing.width a)
        stands.append_left.append_right (by simp only [Machine.pushed, Array.size_push]; omega)
      refine second.bind (fun _ => rfl) fun b valueR => ?_
      obtain rfl := eval?_ty typedL valueL
      obtain rfl := eval?_ty typedR valueR
      have last := stands.behind_both
      rw [← Nat.add_assoc]
      exact binary_computes last typed (ty?_ne_str typedL) (by omega)
  | choice condition whenTrue whenFalse test accepted refused =>
      simp only [ty?, Option.bind_eq_bind, Option.bind_eq_some_iff,
        Option.ite_none_right_eq_some] at typed
      obtain ⟨tyC, typedC, tyT, typedT, tyF, typedF, ⟨rfl, rfl⟩, -⟩ := typed
      rw [Formula.room] at room
      rw [listing_choice] at stands
      have first := test typedC stands.append_left.append_left.append_left.append_left (by omega)
      rw [width_choice, eval?]
      refine first.bind (fun _ => rfl) fun a value => ?_
      obtain ⟨b, rfl⟩ := ty_eq_bool (eval?_ty typedC value).symm
      refine choice_computes addressable stands ?_ ?_
      · rintro m' same stands' rfl
        exact accepted typedT stands' (by rw [same]; omega)
      · rintro m' same stands' rfl
        exact refused typedF stands' (by rw [same]; omega)

end Formula

end StackScript
