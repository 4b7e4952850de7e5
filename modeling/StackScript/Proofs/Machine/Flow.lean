import StackScript.Proofs.Machine.Effect

namespace StackScript

/-! Typed code, and the machines that run it: the active body and the callers that wait for it have
operands of the shapes that their code goes on with. -/

theorem Instruction.decode?_width_pos {bytes : List UInt8} {instruction : Instruction}
    {width : Nat} (decoded : decode? bytes = some (instruction, width)) : 0 < width := by
  cases bytes with
  | nil => cases decoded
  | cons byte rest =>
      simp only [decode?, Option.bind_eq_bind, Option.bind_eq_some_iff] at decoded
      obtain ⟨op, -, ⟨i, w⟩, -, equal⟩ := decoded
      cases equal
      exact Nat.succ_pos w

/-- Instructions that stay in the body they stand in. -/
def Instruction.isLocal : Instruction → Bool
  | .call _ | .ret _ => false
  | _ => true

theorem Instruction.Effect.isLocal {table : List Entry} {instruction : Instruction}
    {before after : List Shape} (effect : instruction.Effect table before after) :
    instruction.isLocal = true := by
  cases effect <;> rfl

/-- Shapes of the arguments of a call, the last one on top. -/
def argumentShapes (params : List Ty) : List Shape :=
  params.reverse.map .value

namespace CodeUnit

/-- The instruction at a place, and its width. -/
def instructionAt? (unit : CodeUnit) (ip : Nat) : Option (Instruction × Nat) :=
  Instruction.decode? (unit.code.drop ip)

theorem lt_length_of_instructionAt? {unit : CodeUnit} {ip width : Nat} {instruction : Instruction}
    (decoded : unit.instructionAt? ip = some (instruction, width)) : ip < unit.code.length := by
  by_contra outside
  rw [instructionAt?, List.drop_eq_nil_of_le (Nat.le_of_not_lt outside)] at decoded
  cases decoded

/-- With operands of the given shapes, code leads from a place forward to a goal. -/
inductive LeadsTo (unit : CodeUnit) (goal : Nat → List Shape → Prop) : Nat → List Shape → Prop
  | arrive {ip : Nat} {shapes : List Shape} (reached : goal ip shapes) : LeadsTo unit goal ip shapes
  | step {ip width : Nat} {instruction : Instruction} {before after : List Shape}
      (decoded : unit.instructionAt? ip = some (instruction, width))
      (effect : instruction.Effect unit.table before after)
      (rest : LeadsTo unit goal (ip + width) after) : LeadsTo unit goal ip before
  | call {ip width : Nat} {index code : UInt32} {entry : Entry} {params : List Ty} {shape : Shape}
      {shapes : List Shape} (decoded : unit.instructionAt? ip = some (.call index, width))
      (found : unit.table[index.toNat]? = some entry)
      (storage : entry.storage = .function params code) (covers : shape.Covers (.value entry.ty))
      (rest : LeadsTo unit goal (ip + width) (shape :: shapes)) :
      LeadsTo unit goal ip (argumentShapes params ++ shapes)
  | jump {ip width : Nat} {target : UInt32} {shapes : List Shape}
      (decoded : unit.instructionAt? ip = some (.jump target, width))
      (forward : ip < target.toNat) (rest : LeadsTo unit goal target.toNat shapes) :
      LeadsTo unit goal ip shapes
  | branch {ip width : Nat} {target : UInt32} {shapes : List Shape}
      (decoded : unit.instructionAt? ip = some (.jumpIfFalse target, width))
      (forward : ip < target.toNat) (onTrue : LeadsTo unit goal (ip + width) shapes)
      (onFalse : LeadsTo unit goal target.toNat shapes) :
      LeadsTo unit goal ip (.value .bool :: shapes)

/-- The body of a function ends with its own return, and leaves nothing on the stack. -/
def Returns (unit : CodeUnit) (index : UInt32) (ip : Nat) (shapes : List Shape) : Prop :=
  shapes = [] ∧ ∃ width, unit.instructionAt? ip = some (.ret index, width)

/-- Code outside of functions ends with a stop. -/
def Stops (unit : CodeUnit) (ip : Nat) (shapes : List Shape) : Prop :=
  shapes = [] ∧ ∃ width, unit.instructionAt? ip = some (.stop, width)

/-- Where the body of a function, or the code outside of functions, leads to. -/
def Ends (unit : CodeUnit) (main : Nat → List Shape → Prop) :
    Option UInt32 → Nat → List Shape → Prop
  | none => main
  | some index => unit.Returns index

/-- The code of every function in the table is the body of this function. -/
def Linked (unit : CodeUnit) : Prop :=
  ∀ (index code : UInt32) (entry : Entry) (params : List Ty),
    unit.table[index.toNat]? = some entry → entry.storage = .function params code →
      unit.LeadsTo (unit.Returns index) code.toNat (argumentShapes params)

end CodeUnit

/-- A body that waits for a call to return: where it goes on, what it called, and its operands apart
from the arguments of the call. -/
structure Pending where
  resume : Nat
  callee : UInt32
  operands : List Operand

/-- Where control is: in a function or outside of functions, with the operands of the active body
and the bodies that wait for it, the innermost first. -/
structure Activity where
  ip : Nat
  owner : Option UInt32
  operands : List Operand
  waiting : List Pending

def Activity.stack (a : Activity) : List Operand :=
  a.operands ++ a.waiting.flatMap Pending.operands

/-- The bodies that wait for the function `owner` have frames of the layout. -/
inductive Waits (unit : CodeUnit) (main : Nat → List Shape → Prop) :
    Layout → List Pending → Option UInt32 → Prop
  | nobody : Waits unit main [] [] none
  | caller {layout : Layout} {waiting : List Pending} {owner : Option UInt32} {index : UInt32}
      {entry : Entry} {operands : List Operand} {shape : Shape} {shapes : List Shape}
      {resume : Nat} (owners : List UInt32) (rest : Waits unit main layout waiting owner)
      (found : unit.table[index.toNat]? = some entry)
      (shaped : List.Forall₂ (Operand.Shaped unit.table layout) operands shapes)
      (covers : shape.Covers (.value entry.ty))
      (leads : unit.LeadsTo (unit.Ends main owner) resume (shape :: shapes)) :
      Waits unit main (layout ++ [(resume, owners)])
        ({ resume, callee := index, operands } :: waiting) (some index)

theorem Waits.length {unit : CodeUnit} {main : Nat → List Shape → Prop} {layout : Layout}
    {waiting : List Pending} {owner : Option UInt32} (waits : Waits unit main layout waiting owner) :
    waiting.length = layout.length := by
  induction waits with
  | nobody => rfl
  | caller owners rest found shaped covers leads induction => simp [induction]

theorem Waits.allocate {unit : CodeUnit} {main : Nat → List Shape → Prop}
    {layout layout' : Layout} {waiting : List Pending} {owner : Option UInt32}
    (waits : Waits unit main layout waiting owner) (allocates : layout.Allocates layout') :
    Waits unit main layout' waiting owner := by
  cases allocates with
  | same => exact waits
  | cell front resume owners index =>
      generalize whole : front ++ [(resume, owners)] = layout at waits
      cases waits with
      | nobody => simp at whole
      | caller owners' rest found shaped covers leads =>
          obtain ⟨rfl, last⟩ := List.append_inj' whole rfl
          cases last
          exact .caller (owners ++ [index]) rest found shaped covers leads

/-- The machine is at an activity, and the code there is typed for it. -/
def Configured (unit : CodeUnit) (main : Nat → List Shape → Prop) (a : Activity) (m : Machine) :
    Prop :=
  ∃ layout shapes, m.Rests unit.table a.ip layout a.stack ∧
    Waits unit main layout a.waiting a.owner ∧
    List.Forall₂ (Operand.Shaped unit.table layout) a.operands shapes ∧
    unit.LeadsTo (unit.Ends main a.owner) a.ip shapes

/-- How control moves in a step: forward in a body, into a function, or back to its caller. -/
inductive Activity.Moves (unit : CodeUnit) : Activity → Activity → Prop
  | forward {a : Activity} {ip width : Nat} {instruction : Instruction} {operands : List Operand}
      (decoded : unit.instructionAt? a.ip = some (instruction, width))
      (stays : instruction.isLocal = true) (later : a.ip < ip) :
      Moves unit a { a with ip, operands }
  | enter {a : Activity} {width : Nat} {index code : UInt32} {entry : Entry} {params : List Ty}
      {arguments rest : List Operand}
      (decoded : unit.instructionAt? a.ip = some (.call index, width))
      (found : unit.table[index.toNat]? = some entry)
      (storage : entry.storage = .function params code) (room : a.waiting.length < Machine.frameLimit)
      (split : a.operands = arguments ++ rest) (all : arguments.length = params.length) :
      Moves unit a
        { ip := code.toNat
          owner := some index
          operands := arguments
          waiting := { resume := a.ip + width, callee := index, operands := rest } :: a.waiting }
  | leave {a : Activity} {width : Nat} {index : UInt32} {entry : Entry} {owner : Option UInt32}
      {caller : Pending} {waiting : List Pending} {result : Value}
      (decoded : unit.instructionAt? a.ip = some (.ret index, width))
      (active : a.owner = some index) (found : unit.table[index.toNat]? = some entry)
      (typed : result.HasTy entry.ty) (empty : a.operands = [])
      (called : a.waiting = caller :: waiting) :
      Moves unit a
        { ip := caller.resume
          owner
          operands := .value result :: caller.operands
          waiting }

theorem Machine.step_eq {unit : CodeUnit} {m : Machine} {instruction : Instruction} {width : Nat}
    (decoded : unit.instructionAt? m.ip = some (instruction, width)) :
    Machine.step unit m =
      Action.execute unit.table instruction { m with ip := m.ip + width } := by
  rw [CodeUnit.instructionAt?] at decoded
  simp only [Machine.step]
  split
  · rename_i none
    rw [none] at decoded
    cases decoded
  · rw [decoded]

variable {unit : CodeUnit} {main : Nat → List Shape → Prop}

theorem Machine.Rests.fetch {table : List Entry} {ip : Nat} {layout : Layout}
    {operands : List Operand} {m : Machine} (rests : m.Rests table ip layout operands)
    (width : Nat) :
    Machine.Rests table (ip + width) layout operands { m with ip := m.ip + width } := by
  refine ⟨{ rests.typed with }, ?_, rests.layout_eq, rests.stack_eq⟩
  simp only [rests.ip_eq]

theorem Action.setIp_meets {table : List Entry} {ip : Nat} {layout : Layout}
    {operands : List Operand} {fail : Fault → Machine → Prop} (target : Nat) :
    Meets (Machine.Rests table ip layout operands) (Action.setIp target)
      (fun _ => Machine.Rests table target layout operands) fail :=
  Meets.modify fun _ rests => ⟨{ rests.typed with }, rfl, rests.layout_eq, rests.stack_eq⟩

theorem Action.jumpIfFalse_meets {table : List Entry} {ip : Nat} {layout : Layout}
    {operands : List Operand} {condition : Operand} {fail : Fault → Machine → Prop}
    (truth : condition.Shaped table layout (.value .bool)) (target : UInt32) :
    Meets (Machine.Rests table ip layout (condition :: operands)) (Action.jumpIfFalse target)
      (fun _ m => m.Rests table ip layout operands ∨ m.Rests table target.toNat layout operands)
      fail := by
  apply Meets.bind ((Action.popValue_meets truth).mono (fun _ rests => rests)
    (fun _ _ done => done) (fun _ _ impossible => impossible.elim))
  intro v
  apply Meets.of_start (fun _ start => start.1)
  intro fits
  obtain ⟨b, rfl⟩ := fits.exists_bool
  cases b with
  | true => exact Meets.pure fun _ start => .inl start.2
  | false =>
      exact (Action.setIp_meets target.toNat).mono (fun _ start => start.2)
        (fun _ _ rests => .inr rests) (fun _ _ fault => fault)

/-- What a step from an activity promises. -/
def StepMeets (unit : CodeUnit) (main : Nat → List Shape → Prop) (a : Activity) (m : Machine) :
    Prop :=
  match Machine.step unit m with
  | .ok .running m' => ∃ b, Configured unit main b m' ∧ a.Moves unit b
  | .ok .stopped _ => False
  | .error fault _ => fault.Possible unit.table

theorem stepMeets_of_execute {a : Activity} {m : Machine} {layout : Layout}
    {instruction : Instruction} {width : Nat}
    (decoded : unit.instructionAt? a.ip = some (instruction, width))
    (rests : m.Rests unit.table a.ip layout a.stack)
    (meets : Meets (Machine.Rests unit.table (a.ip + width) layout a.stack)
      (Action.execute unit.table instruction)
      (fun progress m' => progress = .running ∧ ∃ b, Configured unit main b m' ∧ a.Moves unit b)
      (fun fault _ => fault.Possible unit.table)) : StepMeets unit main a m := by
  have executed := meets _ (rests.fetch width)
  rw [StepMeets, Machine.step_eq (by rw [rests.ip_eq]; exact decoded)]
  split
  · rename_i run
    rw [run] at executed
    exact executed.2
  · rename_i run
    rw [run] at executed
    cases executed.1
  · rename_i run
    rw [run] at executed
    exact executed

theorem stepMeets_effect {a : Activity} {m : Machine} {layout : Layout}
    {instruction : Instruction} {width : Nat} {before after : List Shape}
    (decoded : unit.instructionAt? a.ip = some (instruction, width))
    (rests : m.Rests unit.table a.ip layout a.stack)
    (waits : Waits unit main layout a.waiting a.owner)
    (shaped : List.Forall₂ (Operand.Shaped unit.table layout) a.operands before)
    (effect : instruction.Effect unit.table before after)
    (leads : unit.LeadsTo (unit.Ends main a.owner) (a.ip + width) after) :
    StepMeets unit main a m := by
  refine stepMeets_of_execute decoded rests ((effect.execute shaped).mono (fun _ rests => rests)
    ?_ (fun _ _ fault => fault))
  rintro progress m' ⟨running, layout', operands, allocates, shaped', rests'⟩
  refine ⟨running, { a with ip := a.ip + width, operands }, ?_, ?_⟩
  · exact ⟨layout', after, rests', waits.allocate allocates, shaped', leads⟩
  · exact .forward decoded effect.isLocal
      (Nat.lt_add_of_pos_right (Instruction.decode?_width_pos decoded))

theorem stepMeets_jump {a : Activity} {m : Machine} {layout : Layout} {target : UInt32}
    {width : Nat} {shapes : List Shape}
    (decoded : unit.instructionAt? a.ip = some (.jump target, width))
    (rests : m.Rests unit.table a.ip layout a.stack)
    (waits : Waits unit main layout a.waiting a.owner)
    (shaped : List.Forall₂ (Operand.Shaped unit.table layout) a.operands shapes)
    (forward : a.ip < target.toNat)
    (leads : unit.LeadsTo (unit.Ends main a.owner) target.toNat shapes) :
    StepMeets unit main a m := by
  refine stepMeets_of_execute decoded rests (Meets.bind (Action.setIp_meets target.toNat) fun _ =>
    Meets.pure fun m' rests' => ?_)
  refine ⟨rfl, { a with ip := target.toNat }, ?_, .forward decoded rfl forward⟩
  exact ⟨layout, shapes, rests', waits, shaped, leads⟩

theorem stepMeets_branch {a : Activity} {m : Machine} {layout : Layout} {target : UInt32}
    {width : Nat} {shapes : List Shape}
    (decoded : unit.instructionAt? a.ip = some (.jumpIfFalse target, width))
    (rests : m.Rests unit.table a.ip layout a.stack)
    (waits : Waits unit main layout a.waiting a.owner)
    (shaped : List.Forall₂ (Operand.Shaped unit.table layout) a.operands
      (.value .bool :: shapes))
    (forward : a.ip < target.toNat)
    (onTrue : unit.LeadsTo (unit.Ends main a.owner) (a.ip + width) shapes)
    (onFalse : unit.LeadsTo (unit.Ends main a.owner) target.toNat shapes) :
    StepMeets unit main a m := by
  obtain ⟨ip, owner, operands, waiting⟩ := a
  cases shaped with
  | @cons condition _ operands _ truth shaped =>
      refine stepMeets_of_execute decoded rests
        (Meets.bind (Action.jumpIfFalse_meets truth target) fun _ => Meets.pure ?_)
      rintro m' (accepted | refused)
      · refine ⟨rfl, { ip := ip + width, owner, operands, waiting }, ?_, .forward decoded rfl
          (Nat.lt_add_of_pos_right (Instruction.decode?_width_pos decoded))⟩
        exact ⟨layout, shapes, accepted, waits, shaped, onTrue⟩
      · refine ⟨rfl, { ip := target.toNat, owner, operands, waiting }, ?_,
          .forward decoded rfl forward⟩
        exact ⟨layout, shapes, refused, waits, shaped, onFalse⟩

theorem frames_size {table : List Entry} {ip : Nat} {layout : Layout} {operands : List Operand}
    {m : Machine} (rests : m.Rests table ip layout operands) :
    m.frames.size = layout.length := by
  rw [← rests.layout_eq, Machine.layout, List.length_map, Array.length_toList]

theorem Action.call_meets {table : List Entry} {ip : Nat} {layout : Layout}
    {operands : List Operand} {index code : UInt32} {entry : Entry} {params : List Ty}
    (found : table[index.toNat]? = some entry) (storage : entry.storage = .function params code) :
    Meets (Machine.Rests table ip layout operands) (Action.call table index)
      (fun _ m => layout.length < Machine.frameLimit ∧
        m.Rests table code.toNat (layout ++ [(ip, [])]) operands)
      (fun fault _ => fault.Possible table) := by
  simp only [Action.call, entry_eq found, pure_bind, storage]
  refine Meets.through (fun m m' => m' = m ∧ m.Rests table ip layout operands)
    (Meets.get fun _ start => ⟨rfl, start⟩) fun m => ?_
  refine Meets.of_start (fun _ start => start.2) fun rests => ?_
  by_cases room : m.frames.size < Machine.frameLimit
  · simp only [room, if_true]
    refine Meets.set fun _ _ => ⟨frames_size rests ▸ room, ?_, rfl, ?_, rests.stack_eq⟩
    · refine { rests.typed with cells := fun frame member => ?_ }
      simp only [Array.toList_push, List.mem_append, List.mem_singleton] at member
      rcases member with member | rfl
      · exact rests.typed.cells frame member
      · exact fun cell none => absurd none List.not_mem_nil
    · simp [Machine.layout, ← rests.layout_eq, Frame.outline, rests.ip_eq]
  · simp only [room, if_false]
    exact Meets.throw fun _ _ => Fault.possible_of_residual rfl

theorem stepMeets_call {a : Activity} {m : Machine} {layout : Layout} {index code : UInt32}
    {entry : Entry} {params : List Ty} {width : Nat} {shape : Shape} {shapes : List Shape}
    (linked : unit.Linked) (decoded : unit.instructionAt? a.ip = some (.call index, width))
    (rests : m.Rests unit.table a.ip layout a.stack)
    (waits : Waits unit main layout a.waiting a.owner)
    (shaped : List.Forall₂ (Operand.Shaped unit.table layout) a.operands
      (argumentShapes params ++ shapes))
    (found : unit.table[index.toNat]? = some entry)
    (storage : entry.storage = .function params code) (covers : shape.Covers (.value entry.ty))
    (leads : unit.LeadsTo (unit.Ends main a.owner) (a.ip + width) (shape :: shapes)) :
    StepMeets unit main a m := by
  obtain ⟨arguments, rest, split, front, back⟩ := shaped_split shaped
  refine stepMeets_of_execute decoded rests
    (Meets.bind (Action.call_meets found storage) fun _ => Meets.pure ?_)
  rintro m' ⟨room, rests'⟩
  -- The arguments go to the callee, and what is below them waits with the caller.
  rw [Activity.stack, split, List.append_assoc] at rests'
  refine ⟨rfl, _, ?_, .enter decoded found storage ?_ split ?_⟩
  · refine ⟨layout ++ [(a.ip + width, [])], argumentShapes params, ?_, ?_, ?_,
      linked index code entry params found storage⟩
    · exact rests'
    · exact .caller [] waits found back covers leads
    · exact shaped_grow front (layout.grows_append _)
  · rwa [waits.length]
  · simpa [argumentShapes] using front.length_eq

theorem stepMeets_ret {a : Activity} {m : Machine} {layout : Layout} {index : UInt32}
    {width : Nat} (decoded : unit.instructionAt? a.ip = some (.ret index, width))
    (rests : m.Rests unit.table a.ip layout a.stack)
    (waits : Waits unit main layout a.waiting a.owner) (active : a.owner = some index)
    (empty : a.operands = []) : StepMeets unit main a m := by
  refine stepMeets_of_execute decoded rests ?_
  obtain ⟨ip, owner, operands, waiting⟩ := a
  obtain rfl : owner = some index := active
  obtain rfl : operands = [] := empty
  cases waits with
  | @caller front waiting owner _ entry operands shape shapes resume owners waits found shaped
      covers leads =>
      refine Meets.bind (Action.ret_meets found) fun _ => Meets.pure ?_
      rintro m' ⟨value, typed, rests'⟩
      have top : (Operand.value value).Shaped unit.table front (.value entry.ty) := typed.fits
      refine ⟨rfl, ⟨resume, owner, .value value :: operands, waiting⟩, ?_,
        .leave decoded rfl found typed rfl rfl⟩
      exact ⟨front, shape :: shapes, rests', waits, .cons (top.cover covers) shaped, leads⟩

/-- A step of a typed machine keeps it typed, unless the code outside of functions has arrived
where it leads to. -/
theorem Configured.step {a : Activity} {m : Machine} (configured : Configured unit main a m)
    (linked : unit.Linked) :
    (a.owner = none ∧ ∃ shapes, main a.ip shapes ∧ shapes.length = a.operands.length) ∨
      StepMeets unit main a m := by
  obtain ⟨layout, shapes, rests, waits, shaped, leads⟩ := configured
  generalize place : a.ip = ip at leads
  cases leads with
  | arrive reached =>
      cases owner : a.owner with
      | none =>
          rw [owner] at reached
          exact .inl ⟨rfl, shapes, place ▸ reached, shaped.length_eq.symm⟩
      | some index =>
          rw [owner] at reached
          obtain ⟨rfl, width, decoded⟩ := reached
          have empty := List.forall₂_nil_right_iff.mp shaped
          rw [← place] at decoded
          exact .inr (stepMeets_ret decoded rests waits owner empty)
  | step decoded effect rest =>
      subst place
      exact .inr (stepMeets_effect decoded rests waits shaped effect rest)
  | call decoded found storage covers rest =>
      subst place
      exact .inr (stepMeets_call linked decoded rests waits shaped found storage covers rest)
  | jump decoded forward rest =>
      subst place
      exact .inr (stepMeets_jump decoded rests waits shaped forward rest)
  | branch decoded forward onTrue onFalse =>
      subst place
      exact .inr (stepMeets_branch decoded rests waits shaped forward onTrue onFalse)

end StackScript
