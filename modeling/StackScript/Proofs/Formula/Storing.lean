import StackScript.Proofs.Formula.Evaluation

namespace StackScript

/-! Code that stores computed values in static cells. -/

namespace Action

variable {m : Machine} {stack : Array Operand} {table : List Entry} {i : Nat} {entry : Entry}
variable {cell cell' : Value}

theorem putAddr_eq (small : i < 2 ^ 32) (listed : table[i]? = some entry)
    (data : entry.storage = .data) (room : m.stack.size < Machine.stackLimit) :
    execute table (.putAddr (UInt32.ofNat i)) m =
      .ok .running
        { m with stack := m.stack.push (.address (.ofLocation (.static i))) } := by
  have index : (UInt32.ofNat i).toNat = i := UInt32.toNat_ofNat_of_lt' small
  have known : table[(UInt32.ofNat i).toNat]? = some entry := by rw [index, listed]
  simp only [execute, putAddr, entry_eq known, pure_bind, data, index]
  simp only [bind, EStateM.bind, push_eq room]
  rfl

theorem initVar_eq (small : i < 2 ^ 32) (listed : table[i]? = some entry)
    (data : entry.storage = .data) (held : m.statics[i]? = some cell) :
    execute table (.initVar (UInt32.ofNat i)) m =
      .ok .running { m with statics := m.statics.set i (Value.default entry.ty) } := by
  have index : (UInt32.ofNat i).toNat = i := UInt32.toNat_ofNat_of_lt' small
  have known : table[(UInt32.ofNat i).toNat]? = some entry := by rw [index, listed]
  simp only [execute, initVar, entry_eq known, pure_bind, data, index]
  simp only [bind, EStateM.bind, editCell, held]
  rfl

/-- A plain assignment stores the value on top of an address. -/
theorem assign_eq {value : Value}
    (top : m.stack = (stack.push (.address (.ofLocation (.static i)))).push (.value value))
    (held : m.statics[i]? = some cell) (stored : Value.store value cell = .ok () cell') :
    execute table (.assign .set) m =
      .ok .running { m with stack, statics := m.statics.set i cell' } := by
  have assigned : Value.assign Update.set.opcode value cell = .ok () cell' := by
    rw [← stored]
    unfold Value.assign
    rfl
  simp only [execute, assign, bind, EStateM.bind, popValue_eq top]
  rw [pop_eq (m := { m with stack := stack.push (.address (.ofLocation (.static i))) }) rfl]
  simp only [editAddress, editCell, Address.ofLocation, held, Value.editPath, assigned]
  rfl

end Action

theorem Value.store_eq {a b : Atom} (same : a.ty = b.ty) :
    Value.store (.atom a) (.atom b) = .ok () (.atom a) := by
  cases a <;> cases b <;> first | rfl | cases same

namespace Machine

variable {unit : CodeUnit} {m : Machine} {i : Nat} {entry : Entry} {cell : Atom}

/-- The machine behind code of so many bytes that puts the address of a static cell on the stack. -/
def addressed (bytes i : Nat) (m : Machine) : Machine :=
  { m with
    ip := m.ip + bytes
    stack := m.stack.push (.address (.ofLocation (.static i))) }

/-- The machine behind code of so many bytes that stores a value in a static cell. -/
def stored (bytes i : Nat) (m : Machine) (a : Atom) : Machine :=
  { m with ip := m.ip + bytes, statics := m.statics.set i (.atom a) }

/-- The code of an assignment to a static variable. -/
def assignment (i : Nat) (body : Listing) : Listing :=
  .putAddr (UInt32.ofNat i) :: (body ++ [.assign .set])

theorem width_assignment (i : Nat) (body : Listing) :
    (assignment i body).width =
      (Instruction.putAddr (UInt32.ofNat i)).width +
        (body.width + (Instruction.assign .set).width) := by
  simp [assignment]

theorem assign_computes {bytes bytes' : Nat} {a : Atom} {rest : Listing}
    (stands : Stands unit.code (m.ip + bytes + bytes') (.assign .set :: rest))
    (held : m.statics[i]? = some (.atom cell)) (fits : a.ty = cell.ty) :
    Computes unit (Instruction.assign .set).width (pushed bytes' (m.addressed bytes i) a)
      (m.stored (bytes + (bytes' + (Instruction.assign .set).width)) i) (some a) := by
  have decoded : unit.instructionAt? (pushed bytes' (m.addressed bytes i) a).ip =
      some (.assign .set, (Instruction.assign .set).width) := stands.decode trivial
  have top : (pushed bytes' (m.addressed bytes i) a).stack =
      (m.stack.push (.address (.ofLocation (.static i)))).push (.value (.atom a)) := rfl
  have reaches := reaches_of_execute decoded (Action.assign_eq top held (Value.store_eq fits))
  have same : m.stored (bytes + (bytes' + (Instruction.assign .set).width)) i a =
      { pushed bytes' (m.addressed bytes i) a with
        ip := (pushed bytes' (m.addressed bytes i) a).ip + (Instruction.assign .set).width
        stack := m.stack
        statics := (pushed bytes' (m.addressed bytes i) a).statics.set i (.atom a) } := by
    simp only [stored, pushed, addressed, Nat.add_assoc]
  rw [Computes, same]
  exact reaches

/-- However wide the code of the value is, what counts is the number of steps that it takes. -/
theorem assignment_computes_within {body : Listing} {value : Option Atom} {rest : Listing}
    {steps : Nat} (stands : Stands unit.code m.ip (assignment i body ++ rest)) (small : i < 2 ^ 32)
    (listed : unit.table[i]? = some entry) (data : entry.storage = .data)
    (held : m.statics[i]? = some (.atom cell)) (room : m.stack.size < stackLimit)
    (computes : ∀ m' : Machine, m'.stack.size = m.stack.size + 1 → Stands unit.code m'.ip body →
      Computes unit steps m' (m'.pushed body.width) value)
    (fits : ∀ a, value = some a → a.ty = cell.ty) :
    Computes unit ((Instruction.putAddr (UInt32.ofNat i)).width +
        (steps + (Instruction.assign .set).width)) m
      (m.stored (assignment i body).width i) value := by
  have whole := stands.append_left
  have place := whole.decode trivial
  have front : Reaches unit _ m (m.addressed (Instruction.putAddr (UInt32.ofNat i)).width i) :=
    reaches_of_execute place
      (Action.putAddr_eq (m := { m with ip := m.ip + (Instruction.putAddr (UInt32.ofNat i)).width })
        small listed data room)
  have inside := computes (m.addressed (Instruction.putAddr (UInt32.ofNat i)).width i)
    (Array.size_push _) whole.tail.append_left
  have together := front.computes rfl (inside.bind (fun _ => rfl) fun a computed =>
    assign_computes whole.tail.append_right held (fits a computed))
  rw [show (value >>= fun a => some a) = value from bind_pure value] at together
  rwa [width_assignment]

theorem assignment_computes {body : Listing} {value : Option Atom} {rest : Listing}
    (stands : Stands unit.code m.ip (assignment i body ++ rest)) (small : i < 2 ^ 32)
    (listed : unit.table[i]? = some entry) (data : entry.storage = .data)
    (held : m.statics[i]? = some (.atom cell)) (room : m.stack.size < stackLimit)
    (computes : ∀ m' : Machine, m'.stack.size = m.stack.size + 1 → Stands unit.code m'.ip body →
      Computes unit body.width m' (m'.pushed body.width) value)
    (fits : ∀ a, value = some a → a.ty = cell.ty) :
    Computes unit (assignment i body).width m (m.stored (assignment i body).width i) value := by
  have computes := assignment_computes_within stands small listed data held room computes fits
  rwa [← width_assignment] at computes

end Machine

end StackScript
