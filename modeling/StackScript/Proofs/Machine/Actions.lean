import StackScript.Proofs.Machine.Cells

namespace StackScript

/-! What the parts of a step do on a machine whose operands are known. -/

theorem modify_last {α : Type} (front : List α) (last : α) (change : α → α) :
    (front ++ [last]).modify front.length change = front ++ [change last] := by
  induction front with
  | nil => rfl
  | cons a front induction => simpa using induction

/-- Faults that a typed program may have: those that the types leave open, and any fault where an
index list is too long for its count to fit an instruction. -/
def Fault.Possible (table : List Entry) (fault : Fault) : Prop :=
  fault.isResidual = true ∨ ¬ ∀ entry ∈ table, entry.Narrow

theorem Fault.possible_of_residual {table : List Entry} {fault : Fault}
    (residual : fault.isResidual = true) : fault.Possible table :=
  .inl residual

namespace Action

variable {table : List Entry} {ip : Nat} {layout : Layout} {operands : List Operand}
variable {β : Type} {result : β → Prop} {faults : Fault → Prop}

theorem push_meets (operand : Operand) :
    Meets (Machine.Rests table ip layout operands) (push operand)
      (fun _ => Machine.Rests table ip layout (operand :: operands))
      (fun fault _ => fault = .stackOverflow) := by
  intro m rests
  by_cases room : m.stack.size < Machine.stackLimit
  · simp only [push, room, if_true]
    refine ⟨{ rests.typed with }, rests.ip_eq, rests.layout_eq, ?_⟩
    simp [rests.stack_eq]
  · simp only [push, room, if_false]

theorem pop_meets (operand : Operand) :
    Meets (Machine.Rests table ip layout (operand :: operands)) pop
      (fun popped m => popped = operand ∧ m.Rests table ip layout operands)
      (fun _ _ => False) := by
  intro m rests
  have listed : m.stack.toList = operands.reverse ++ [operand] := by
    rw [← List.reverse_cons, ← rests.stack_eq, List.reverse_reverse]
  have last : m.stack.back? = some operand := by
    rw [← Array.getLast?_toList, listed, List.getLast?_concat]
  simp only [pop, last]
  refine ⟨trivial, { rests.typed with }, rests.ip_eq, rests.layout_eq, ?_⟩
  simp [listed]

theorem entry_eq {index : UInt32} {entry : Entry} (found : table[index.toNat]? = some entry) :
    Action.entry table index = pure entry := by
  simp only [Action.entry, found]
  rfl

theorem editCell_meets {location : Location} {ty : Ty} {edit : Edit Value β}
    (roots : location.Roots table layout ty) (keeps : Value.Keeps edit ty result faults) :
    Meets (Machine.Rests table ip layout operands) (editCell location edit)
      (fun b m => result b ∧ m.Rests table ip layout operands) (fun fault _ => faults fault) := by
  intro m rests
  rw [← rests.layout_eq] at roots
  obtain ⟨value, inside, typed⟩ := Machine.exists_cell rests.typed roots
  have edited := keeps value typed
  rw [editCell_eq, inside]
  simp only
  cases run : edit value with
  | ok b value' =>
      rw [run] at edited
      refine ⟨edited.2, rests.typed.withCell roots edited.1, ?_, ?_, ?_⟩
      · rw [Machine.withCell_ip, rests.ip_eq]
      · rw [Machine.withCell_layout, rests.layout_eq]
      · rw [Machine.withCell_stack, rests.stack_eq]
  | error fault value' =>
      rw [run] at edited
      exact edited.2

theorem editAddress_meets {address : Address} {ty : Ty} {edit : Edit Value β}
    (refers : address.Refers table layout ty) (keeps : Value.Keeps edit ty result faults) :
    Meets (Machine.Rests table ip layout operands) (editAddress address edit)
      (fun b m => result b ∧ m.Rests table ip layout operands) (fun fault _ => faults fault) := by
  obtain ⟨start, roots, path⟩ := refers
  exact editCell_meets roots (Value.keeps_editPath path keeps)

/-- Reading never faults, since all that an address passes through is created. -/
theorem popValue_exact {operand : Operand} {ty : Ty} (exact : operand.Exact table layout ty) :
    Meets (Machine.Rests table ip layout (operand :: operands)) popValue
      (fun v m => v.HasTy ty ∧ m.Rests table ip layout operands) (fun _ _ => False) := by
  apply Meets.bind (pop_meets operand)
  intro popped
  apply Meets.of_start (fun _ start => start.1)
  rintro rfl
  cases popped with
  | value v => exact Meets.pure fun m start => ⟨exact, start.2⟩
  | address address =>
      exact (editAddress_meets exact (Value.keeps_get ty)).start fun _ start => start.2

theorem popValue_meets {operand : Operand} {ty : Ty}
    (shaped : operand.Shaped table layout (.value ty)) :
    Meets (Machine.Rests table ip layout (operand :: operands)) popValue
      (fun v m => v.Fits ty ∧ m.Rests table ip layout operands) (fun _ _ => False) := by
  obtain ⟨content, exact, assignable⟩ := shaped.exists_exact
  exact (popValue_exact exact).mono (fun _ rests => rests)
    (fun _ _ done => ⟨done.1.fits.assign assignable, done.2⟩) (fun _ _ impossible => impossible)

theorem popIndexes_meets {taken : List Operand} {tys : List Ty}
    (shaped : List.Forall₂ (Operand.Shaped table layout) taken (tys.map .value)) :
    Meets (Machine.Rests table ip layout (taken ++ operands)) (popIndexes taken.length)
      (fun _ => Machine.Rests table ip layout operands) (fun _ _ => False) := by
  induction taken generalizing tys with
  | nil => exact Meets.pure fun _ rests => rests
  | cons operand taken induction =>
      cases tys with
      | nil => cases shaped
      | cons ty tys =>
          cases shaped with
          | cons first others =>
              refine Meets.bind (popValue_meets first) fun _ => ?_
              refine Meets.bind ((induction others).mono (fun _ start => start.2)
                (fun _ _ rests => rests) (fun _ _ impossible => impossible)) fun _ => ?_
              exact Meets.pure fun _ rests => rests

/-- The operands below are untouched, and an operand of a shape lies on them. -/
def Yields (table : List Entry) (ip : Nat) (layout : Layout) (operands : List Operand)
    (shape : Shape) (m : Machine) : Prop :=
  ∃ operand : Operand, operand.Shaped table layout shape ∧
    m.Rests table ip layout (operand :: operands)

theorem push_yields {operand : Operand} {shape : Shape}
    (shaped : operand.Shaped table layout shape) :
    Meets (Machine.Rests table ip layout operands) (push operand)
      (fun _ => Yields table ip layout operands shape) (fun fault _ => fault.Possible table) :=
  (push_meets operand).mono (fun _ rests => rests) (fun _ _ rests => ⟨operand, shaped, rests⟩)
    (fun _ _ overflow => overflow ▸ Fault.possible_of_residual rfl)

/-- A dynamic record is found only where the active frame allocated it. -/
theorem dynamicLocation_cases (index : UInt32) (m : Machine) :
    dynamicLocation index m = .error (.unboundDynamicVariable index) m ∨
      ∃ frame slot value, m.frames.back? = some frame ∧
        frame.cells[slot]? = some (index, value) ∧
        dynamicLocation index m = .ok (.frame (m.frames.size - 1) slot) m := by
  simp only [dynamicLocation]
  split
  · rename_i frame slot back _
    cases cell : frame.cells[slot]? with
    | none => exact .inl rfl
    | some content =>
        obtain ⟨owner, value⟩ := content
        by_cases same : owner = index
        · subst same
          exact .inr ⟨frame, slot, value, back, cell, by simp⟩
        · simp [same]
  · exact .inl rfl

theorem dynamicLocation_meets {index : UInt32} {entry : Entry}
    (found : table[index.toNat]? = some entry) :
    Meets (Machine.Rests table ip layout operands) (dynamicLocation index)
      (fun location m => location.Roots table layout entry.ty ∧ m.Rests table ip layout operands)
      (fun fault _ => fault.Possible table) := by
  intro m rests
  rcases dynamicLocation_cases index m with run | ⟨frame, slot, value, back, cell, run⟩
  · rw [run]
    exact Fault.possible_of_residual rfl
  · rw [run]
    refine ⟨?_, rests⟩
    have active : layout[m.frames.size - 1]? = some frame.outline := by
      rw [Array.back?_eq_getElem?] at back
      rw [← rests.layout_eq, Machine.layout, List.getElem?_map, Array.getElem?_toList, back]
      rfl
    refine .frame active ?_ found
    simp [Frame.outline, cell]

theorem allocate_meets {index : UInt32} {entry : Entry} {value : Value} {front : Layout}
    {resume : Nat} {owners : List UInt32} (found : table[index.toNat]? = some entry)
    (typed : value.HasTy entry.ty) :
    Meets (Machine.Rests table ip (front ++ [(resume, owners)]) operands) (allocate index value)
      (fun _ => Machine.Rests table ip (front ++ [(resume, owners ++ [index])]) operands)
      (fun _ _ => False) := by
  intro m rests
  obtain ⟨below, frame, frames, back, same, outline⟩ := Machine.exists_active rests.layout_eq
  have last : m.frames.size - 1 = below.length := by
    rw [← Array.length_toList, frames]
    simp
  have inside : index.toNat < m.slots.length := by
    rw [rests.typed.slots_length]
    exact (List.getElem?_eq_some_iff.mp found).1
  have changed (change : Frame → Frame) :
      (m.frames.modify (m.frames.size - 1) change).toList = below ++ [change frame] := by
    rw [Array.toList_modify, frames, last, modify_last]
  simp only [allocate, back, inside, if_true]
  refine ⟨⟨rests.typed.statics_length, rests.typed.statics, ?_, ?_⟩, rests.ip_eq, ?_,
    rests.stack_eq⟩
  · intro g member c cell
    simp only [changed, List.mem_append, List.mem_singleton] at member
    rcases member with member | rfl
    · exact rests.typed.cells g (by rw [frames]; exact List.mem_append_left _ member) c cell
    · rcases List.mem_append.mp cell with cell | cell
      · exact rests.typed.cells frame (by simp [frames]) c cell
      · rw [List.mem_singleton.mp cell]
        exact ⟨entry, found, typed⟩
  · simpa using rests.typed.slots_length
  · simp only [Machine.layout, changed, List.map_append, List.map_cons, List.map_nil, same]
    simp only [Frame.outline, Prod.mk.injEq] at outline
    simp [Frame.outline, outline.1, outline.2]

/-- The machine behind a return: the active frame is gone, and the caller goes on. -/
theorem rests_left {m : Machine} {front : Layout} {outline : Nat × List UInt32}
    {below : List Frame} {frame : Frame} (rests : m.Rests table ip (front ++ [outline]) operands)
    (frames : m.frames.toList = below ++ [frame]) (same : below.map Frame.outline = front) :
    Machine.Rests table frame.resume front operands
      { m with ip := frame.resume, frames := m.frames.pop } where
  typed :=
    { rests.typed with
      cells := by
        intro g member
        simp only [Array.toList_pop, frames, List.dropLast_concat] at member
        exact rests.typed.cells g (by rw [frames]; exact List.mem_append_left _ member) }
  ip_eq := rfl
  layout_eq := by
    simp only [Machine.layout, Array.toList_pop, frames, List.dropLast_concat, same]
  stack_eq := rests.stack_eq

/-- A return fails and changes nothing, or it leaves the active frame with a cell of its own. -/
theorem ret_cases (index : UInt32) (m : Machine) :
    (m.frames.back? = none ∧ ret index m = .error .noReturnPoint m) ∨
      ret index m = .error (.unboundDynamicVariable index) m ∨
      ∃ (frame : Frame) (slot : Nat) (value : Value), m.frames.back? = some frame ∧
        frame.cells[slot]? = some (index, value) ∧
        ret index m =
          push (.value value) { m with ip := frame.resume, frames := m.frames.pop } := by
  cases back : m.frames.back? with
  | none =>
      refine .inl ⟨rfl, ?_⟩
      simp only [ret, bind, EStateM.bind, Edit.get_apply, back]
      rfl
  | some frame =>
      rcases dynamicLocation_cases index m with run | ⟨frame', slot, value, back', cell, run⟩
      · refine .inr (.inl ?_)
        simp only [ret, bind, EStateM.bind, Edit.get_apply, back, run]
      · obtain rfl := Option.some.inj (back.symm.trans back')
        refine .inr (.inr ⟨frame, slot, value, rfl, cell, ?_⟩)
        simp only [ret, bind, EStateM.bind, Edit.get_apply, back, run, cell, Edit.set_apply]

theorem ret_meets {index : UInt32} {entry : Entry} {front : Layout} {resume : Nat}
    {owners : List UInt32} (found : table[index.toNat]? = some entry) :
    Meets (Machine.Rests table ip (front ++ [(resume, owners)]) operands) (ret index)
      (fun _ m => ∃ value, value.HasTy entry.ty ∧
        m.Rests table resume front (.value value :: operands))
      (fun fault _ => fault.Possible table) := by
  intro m rests
  obtain ⟨below, frame, frames, back, same, outline⟩ := Machine.exists_active rests.layout_eq
  obtain ⟨rfl, rfl⟩ := Prod.mk.inj outline
  rcases ret_cases index m with ⟨none, -⟩ | run | ⟨frame', slot, value, back', cell, run⟩
  · rw [back] at none
    cases none
  · rw [run]
    exact Fault.possible_of_residual rfl
  · obtain rfl := Option.some.inj (back.symm.trans back')
    obtain ⟨entry', found', typed⟩ := rests.typed.cells frame (by simp [frames]) _
      (List.mem_of_getElem? cell)
    rw [found] at found'
    obtain rfl := Option.some.inj found'
    rw [run]
    exact (push_meets (.value value)).mono (fun _ rests => rests)
      (fun _ _ rests => ⟨value, typed, rests⟩)
      (fun _ _ overflow => overflow ▸ Fault.possible_of_residual rfl) _ (rests_left rests frames same)

theorem allocate_outside {index : UInt32} {value : Value} {post : Unit → Machine → Prop} :
    Meets (Machine.Rests table ip [] operands) (allocate index value) post
      (fun fault _ => fault.Possible table) := by
  intro m rests
  have none : m.frames.back? = none := by
    rw [← Array.getLast?_toList, List.getLast?_eq_none_iff]
    simpa [Machine.layout] using rests.layout_eq
  simp only [allocate, none]
  exact Fault.possible_of_residual rfl

theorem assign_meets {update : Update} {value place : Operand} {target ty : Ty}
    (allowed : Grammar.updateAllowed update target ty = true)
    (valueShaped : value.Shaped table layout (.value ty))
    (placeShaped : place.Shaped table layout (.place target)) :
    Meets (Machine.Rests table ip layout (value :: place :: operands)) (assign update.opcode)
      (fun _ => Machine.Rests table ip layout operands)
      (fun fault _ => fault.Possible table) := by
  refine Meets.bind ((popValue_meets valueShaped).mono (fun _ rests => rests)
    (fun _ _ done => done) (fun _ _ impossible => impossible.elim)) fun v => ?_
  refine Meets.of_start (fun _ start => start.1) fun fits => ?_
  refine Meets.bind ((pop_meets place).mono (fun _ start => start.2)
    (fun _ _ done => done) (fun _ _ impossible => impossible.elim)) fun popped => ?_
  refine Meets.of_start (fun _ start => start.1) ?_
  rintro rfl
  cases popped with
  | value v => exact placeShaped.elim
  | address address =>
      exact (editAddress_meets placeShaped (Value.keeps_assign allowed fits)).mono
        (fun _ start => start.2) (fun _ _ done => done.2)
        (fun _ _ residual => Fault.possible_of_residual residual)

/-- Reading the operand gives a value with the property. -/
def Reads (table : List Entry) (layout : Layout) (operand : Operand) (content : Value → Prop) :
    Prop :=
  ∀ (ip : Nat) (operands : List Operand),
    Meets (Machine.Rests table ip layout (operand :: operands)) popValue
      (fun v m => content v ∧ m.Rests table ip layout operands) (fun _ _ => False)

theorem binary_gives {operator : Value → Value → Except Fault Value} {rhs lhs : Operand}
    {right left given : Value → Prop} (readRhs : Reads table layout rhs right)
    (readLhs : Reads table layout lhs left)
    (outcome : ∀ a b, left a → right b → Outcome (operator a b) given faults) :
    Meets (Machine.Rests table ip layout (rhs :: lhs :: operands)) (binary operator)
      (fun _ m => ∃ v, given v ∧ m.Rests table ip layout (.value v :: operands))
      (fun fault _ => faults fault ∨ fault = .stackOverflow) := by
  apply Meets.bind ((readRhs ip (lhs :: operands)).mono (fun _ rests => rests)
    (fun _ _ done => done) (fun _ _ impossible => impossible.elim))
  intro b
  apply Meets.of_start (fun _ start => start.1)
  intro readB
  apply Meets.bind ((readLhs ip operands).mono (fun _ start => start.2)
    (fun _ _ done => done) (fun _ _ impossible => impossible.elim))
  intro a
  apply Meets.of_start (fun _ start => start.1)
  intro readA
  have applied := outcome a b readA readB
  refine Meets.through (fun v m => given v ∧ m.Rests table ip layout operands)
    (Meets.ofExcept ?_ ?_) fun v => ?_
  · intro v m run start
    rw [run] at applied
    exact ⟨applied, start.2⟩
  · intro fault m run _
    rw [run] at applied
    exact .inl applied
  · apply Meets.of_start (fun _ start => start.1)
    intro fine
    exact (push_meets (.value v)).mono (fun _ start => start.2)
      (fun _ _ rests => ⟨v, fine, rests⟩) (fun _ _ overflow => .inr overflow)

theorem execute_putDAddr (table : List Entry) (index : UInt32) :
    execute table (.putDAddr index) =
      (do (do push (.address (.ofLocation (← dynamicLocation index)))); pure .running) := by
  simp only [execute, bind_assoc]

theorem execute_neg (table : List Entry) :
    execute table .neg =
      (do (do push (.value (← Edit.ofExcept (← popValue).neg))); pure .running) := by
  simp only [execute, bind_assoc]

theorem neg_gives {operand : Operand} {content given : Value → Prop}
    (read : Reads table layout operand content)
    (negates : ∀ a, content a → ∃ v, a.neg = .ok v ∧ given v) :
    Meets (Machine.Rests table ip layout (operand :: operands))
      (do push (.value (← Edit.ofExcept (← popValue).neg)))
      (fun _ m => ∃ v, given v ∧ m.Rests table ip layout (.value v :: operands))
      (fun fault _ => fault = .stackOverflow) := by
  apply Meets.bind ((read ip operands).mono (fun _ rests => rests) (fun _ _ done => done)
    (fun _ _ impossible => impossible.elim))
  intro a
  apply Meets.of_start (fun _ start => start.1)
  intro fine
  obtain ⟨v, negated, given⟩ := negates a fine
  rw [negated]
  exact (push_meets (.value v)).mono (fun _ start => start.2) (fun _ _ rests => ⟨v, given, rests⟩)
    (fun _ _ overflow => overflow)

theorem binary_meets {operator : Value → Value → Except Fault Value} {rhs lhs : Operand}
    {tyR tyL ty : Ty} {shape : Shape}
    (outcome : ∀ a b : Value, a.Fits tyL → b.Fits tyR →
      Outcome (operator a b) (·.Fits ty) (·.isResidual))
    (covers : shape.Covers (.value ty)) (right : rhs.Shaped table layout (.value tyR))
    (left : lhs.Shaped table layout (.value tyL)) :
    Meets (Machine.Rests table ip layout (rhs :: lhs :: operands)) (binary operator)
      (fun _ => Yields table ip layout operands shape) (fun fault _ => fault.Possible table) := by
  apply (binary_gives (fun _ _ => popValue_meets right) (fun _ _ => popValue_meets left)
    outcome).mono
  · exact fun _ rests => rests
  · rintro _ m ⟨v, fits, rests⟩
    have shaped : (Operand.value v).Shaped table layout (.value ty) := fits
    exact ⟨_, shaped.cover covers, rests⟩
  · rintro fault _ (residual | rfl)
    · exact Fault.possible_of_residual residual
    · exact Fault.possible_of_residual rfl

end Action

end StackScript
