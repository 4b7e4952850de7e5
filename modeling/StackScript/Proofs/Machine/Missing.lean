import StackScript.Proofs.Machine.Changes
import StackScript.Proofs.Value.Definite

namespace StackScript

/-! A fault for want of a cell: values never cause it, so an instruction has it only if it looks up
a record that the active frame has no cell for, or allocates a cell where no frame is active. -/

/-- The active frame has a cell that the record allocated, and the machine knows its slot. -/
def Machine.Live (m : Machine) (index : UInt32) : Prop :=
  ∃ frame slot value, m.frames.back? = some frame ∧
    (m.slots[index.toNat]?).join = some slot ∧ frame.cells[slot]? = some (index, value)

theorem Machine.live_iff_owner {m : Machine} {index : UInt32} :
    m.Live index ↔
      (m.frames.back?.bind fun frame => (m.slots[index.toNat]?).join.bind fun slot =>
        frame.cells[slot]?.map Prod.fst) = some index := by
  simp only [Machine.Live, Option.bind_eq_some_iff, Option.map_eq_some_iff, Prod.exists]
  constructor
  · rintro ⟨frame, slot, value, back, known, cell⟩
    exact ⟨frame, back, slot, known, index, value, cell, rfl⟩
  · rintro ⟨frame, back, slot, known, _, value, cell, rfl⟩
    exact ⟨frame, slot, value, back, known, cell⟩

instance (m : Machine) (index : UInt32) : Decidable (m.Live index) :=
  decidable_of_iff _ Machine.live_iff_owner.symm

/-- The record whose cell an instruction looks up in the active frame. -/
def Instruction.seeks? (table : List Entry) : Instruction → Option UInt32
  | .putDAddr index | .syscall index _ | .ret index => some index
  | .putAddr index =>
      if (table[index.toNat]?).map Entry.storage = some .data then none else some index
  | .initVar index =>
      if (table[index.toNat]?).map Entry.storage = some .data then none else some index
  | _ => none

namespace Instruction

variable {table : List Entry} {i : Instruction} {index : UInt32}

theorem seeks?_of_jump (jumps : i.target?.isSome = true) : i.seeks? table = none := by
  cases i <;> first | rfl | cases jumps

theorem allocates?_of_seeks (sought : i.seeks? table = some index) : i.allocates? = none := by
  cases i <;> first | rfl | cases sought

end Instruction

namespace Action

open Machine

variable {α β : Type} {table : List Entry} {index : UInt32} {m m' : Machine}

theorem push_sure (operand : Operand) : (push operand).Sure := by
  intro m fault m' run
  simp only [push] at run
  split at run <;> cases run
  rfl

theorem pop_sure : Edit.Sure pop := by
  intro m fault m' run
  simp only [pop] at run
  split at run <;> cases run
  rfl

theorem entry_sure (table : List Entry) (index : UInt32) : (entry table index).Sure := by
  apply Edit.Sure.ofExcept
  split
  · exact .ok _
  · exact .error rfl

theorem editCell_sure {location : Location} {edit : Edit Value β} (sure : edit.Sure) :
    (editCell location edit).Sure := by
  intro m fault m' run
  simp only [editCell_eq] at run
  split at run
  · cases run
    rfl
  · split at run <;> cases run
    exact sure _ _ _ ‹_›

theorem editAddress_sure {address : Address} {edit : Edit Value β} (sure : edit.Sure) :
    (editAddress address edit).Sure :=
  editCell_sure (Value.editPath_sure sure address.path)

theorem popValue_sure : Edit.Sure popValue := by
  apply pop_sure.bind
  rintro (v | address)
  · exact .pure v
  · exact editAddress_sure .get

theorem popIndexes_sure (count : Nat) : (popIndexes count).Sure := by
  induction count with
  | zero => exact .pure []
  | succ count induction => exact popValue_sure.bind fun last => induction.bind fun front => .pure _

theorem indexAddress_sure (count : UInt8) : (indexAddress count).Sure := by
  apply (popIndexes_sure count.toNat).bind
  intro indexes
  apply pop_sure.bind
  rintro (v | address)
  · exact .throw rfl
  · refine (editAddress_sure (Value.editArray_sure ?_)).bind fun key => push_sure _
    refine Edit.Sure.get.bind fun array => ?_
    refine (Edit.Sure.ofExcept (array.checkKey_definite indexes)).bind fun key => ?_
    exact (Sparse.materialize_sure indexes).bind fun _ => .pure key

theorem assign_sure (op : Opcode) : (assign op).Sure := by
  apply popValue_sure.bind
  intro v
  apply pop_sure.bind
  rintro (target | address)
  · exact .throw rfl
  · exact editAddress_sure (Value.assign_sure op v)

theorem binary_sure {operator : Value → Value → Except Fault Value}
    (definite : ∀ a b, Definite (operator a b)) : (binary operator).Sure :=
  popValue_sure.bind fun rhs => popValue_sure.bind fun lhs =>
    (Edit.Sure.ofExcept (definite lhs rhs)).bind fun v => push_sure (.value v)

theorem arith_sure (operation : Arithmetic) : (arith operation).Sure := by
  have applied : arith operation = binary operation.apply := by
    cases operation <;> rfl
  rw [applied]
  exact binary_sure operation.apply_definite

theorem compare_sure (relation : Relation) : (compare relation).Sure :=
  binary_sure fun _ _ => Value.compare_definite.map Value.bool

theorem putMemberAddr_sure : Edit.Sure putMemberAddr := by
  apply Edit.Sure.get.bind
  intro m
  split
  · exact .pure ()
  · exact .throw rfl

theorem jumpIfFalse_sure (target : UInt32) : (jumpIfFalse target).Sure := by
  apply popValue_sure.bind
  intro v
  split
  · exact .pure ()
  · exact nofun
  · exact .throw rfl

theorem call_sure (table : List Entry) (index : UInt32) : (call table index).Sure := by
  apply (entry_sure table index).bind
  intro entry
  split
  · apply Edit.Sure.get.bind
    intro m
    split
    · exact .set _
    · exact .throw rfl
  · exact .throw rfl

/-! Cells of the active frame. -/

theorem dynamicLocation_of_live (live : m.Live index) :
    ∃ slot, dynamicLocation index m = .ok (.frame (m.frames.size - 1) slot) m := by
  obtain ⟨frame, slot, value, back, known, cell⟩ := live
  exact ⟨slot, by simp only [dynamicLocation, back, known, cell, if_true]⟩

theorem dynamicLocation_of_not_live (missing : ¬ m.Live index) :
    dynamicLocation index m = .error (.unboundDynamicVariable index) m := by
  simp only [dynamicLocation]
  split
  · rename_i frame slot back known
    split
    · rename_i owner value cell
      apply if_neg
      rintro rfl
      exact missing ⟨frame, slot, value, back, known, cell⟩
    · rfl
  · rfl

/-- An action that misses no cell but one that it seeks in the active frame. -/
def Seeks (index : UInt32) (action : Action α) : Prop :=
  ∀ m fault m', action m = .error fault m' →
    fault.missing? = none ∨ fault = .unboundDynamicVariable index ∧ ¬ m.Live index

theorem Seeks.bind {x : Action α} {f : α → Action β} (first : Seeks index x)
    (second : ∀ a, (f a).Sure) : Seeks index (x >>= f) := by
  intro m fault m' run
  change EStateM.bind x f m = _ at run
  rw [EStateM.bind] at run
  split at run
  · exact .inl (second _ _ _ _ run)
  · rename_i failed
    cases run
    exact first _ _ _ failed

/-- Reading something first does not change what is sought. -/
theorem Seeks.after {x : Action α} {f : α → Action β} (sure : x.Sure)
    (same : ∀ m a m', x m = .ok a m' → m' = m) (second : ∀ a, Seeks index (f a)) :
    Seeks index (x >>= f) := by
  intro m fault m' run
  change EStateM.bind x f m = _ at run
  rw [EStateM.bind] at run
  split at run
  · rename_i a m₁ read
    obtain rfl := same _ _ _ read
    exact second _ _ _ _ run
  · rename_i failed
    cases run
    exact .inl (sure _ _ _ failed)

theorem Seeks.of_sure {action : Action α} (sure : action.Sure) : Seeks index action :=
  fun _ _ _ run => .inl (sure _ _ _ run)

theorem dynamicLocation_seeks (index : UInt32) : Seeks index (dynamicLocation index) := by
  intro m fault m' run
  by_cases live : m.Live index
  · obtain ⟨slot, found⟩ := dynamicLocation_of_live live
    rw [found] at run
    cases run
  · rw [dynamicLocation_of_not_live live] at run
    cases run
    exact .inr ⟨rfl, live⟩

theorem entry_same (m : Machine) (entry' : Entry) (m' : Machine)
    (run : entry table index m = .ok entry' m') : m' = m := by
  simp only [entry, Edit.ofExcept] at run
  split at run <;> cases run
  rfl

theorem ret_seeks (index : UInt32) : Seeks index (ret index) := by
  refine Seeks.after .get (fun _ _ _ read => by cases read; rfl) fun m => ?_
  split
  · exact .of_sure (.throw rfl)
  · apply (dynamicLocation_seeks index).bind
    rintro (place | ⟨frame, slot⟩)
    · exact .throw rfl
    · simp only
      split
      · exact .throw rfl
      · exact (Edit.Sure.set _).bind fun _ => push_sure _

theorem syscall_seeks (index : UInt32) (name : String) : Seeks index (syscall index name) := by
  unfold syscall
  split
  · exact .of_sure (.throw rfl)
  · rename_i builtin known
    apply (dynamicLocation_seeks index).bind
    intro location
    exact (editCell_sure .get).bind fun argument =>
      (Edit.Sure.ofExcept (builtin.call_definite argument)).bind fun v => push_sure (.value v)

theorem initVar_seeks (table : List Entry) (index : UInt32) :
    Seeks index (initVar table index) := by
  refine Seeks.after (entry_sure table index) entry_same fun entry => ?_
  have reset (location : Location) :
      Edit.Sure (editCell location (set (Value.default entry.ty))) := editCell_sure (.set _)
  split
  · exact .of_sure ((Edit.Sure.pure _).bind reset)
  · exact (dynamicLocation_seeks index).bind reset
  · exact .of_sure ((Edit.Sure.throw rfl).bind reset)

theorem putAddr_seeks (table : List Entry) (index : UInt32) :
    Seeks index (putAddr table index) := by
  refine Seeks.after (entry_sure table index) entry_same fun entry => ?_
  split
  · exact .of_sure (push_sure _)
  · exact (dynamicLocation_seeks index).bind fun location => push_sure _

theorem putAddr_sure (data : (table[index.toNat]?).map Entry.storage = some .data) :
    (putAddr table index).Sure := by
  obtain ⟨entry, found, storage⟩ := Option.map_eq_some_iff.mp data
  rw [putAddr, entry_eq found, pure_bind, storage]
  exact push_sure _

theorem initVar_sure (data : (table[index.toNat]?).map Entry.storage = some .data) :
    (initVar table index).Sure := by
  obtain ⟨entry, found, storage⟩ := Option.map_eq_some_iff.mp data
  rw [initVar, entry_eq found, pure_bind, storage]
  exact (Edit.Sure.pure (Location.static index.toNat)).bind fun _ => editCell_sure (.set _)

theorem allocate_active (index : UInt32) (value : Value) :
    Meets (fun m => m.frames.size ≠ 0) (allocate index value) (fun _ _ => True)
      (fun fault _ => fault.missing? = none) := by
  intro m active
  simp only [allocate]
  cases back : m.frames.back? with
  | none =>
      rw [Array.back?_eq_getElem?, Array.getElem?_eq_none_iff] at back
      omega
  | some frame =>
      by_cases listed : index.toNat < m.slots.length
      · simp only [listed, if_true]
      · simp only [listed, if_false]
        rfl

theorem execute_sure {i : Instruction} (still : i.seeks? table = none)
    (other : i.allocates? = none) : (execute table i).Sure := by
  have runs {action : Action Unit} (sure : action.Sure) :
      Edit.Sure (do action; pure Progress.running) := sure.bind fun _ => .pure _
  cases i with
  | nop => exact .pure _
  | stop => exact .pure _
  | putAddr index =>
      apply runs (putAddr_sure _)
      by_contra dynamic
      rw [Instruction.seeks?, if_neg dynamic] at still
      cases still
  | putMemberAddr index => exact runs putMemberAddr_sure
  | putIndAddr count => exact runs (indexAddress_sure count)
  | putInt n => exact runs (push_sure _)
  | putFloat bits => exact runs (push_sure _)
  | putString s => exact runs (push_sure _)
  | putBoolean b => exact runs (push_sure _)
  | assign update => exact runs (assign_sure update.opcode)
  | compare relation => exact runs (compare_sure relation)
  | arith operation => exact runs (arith_sure operation)
  | neg =>
      exact popValue_sure.bind fun v => (Edit.Sure.ofExcept Value.neg_definite).bind fun v =>
        runs (push_sure (.value v))
  | jumpIfFalse target => exact runs (jumpIfFalse_sure target)
  | jump target => exact nofun
  | call index => exact runs (call_sure table index)
  | initVar index =>
      apply runs (initVar_sure _)
      by_contra dynamic
      rw [Instruction.seeks?, if_neg dynamic] at still
      cases still
  | allocVar index => cases other
  | allocVars index => cases other
  | ret index => cases still
  | syscall index name => cases still
  | putDAddr index => cases still

theorem execute_seeks {i : Instruction} (sought : i.seeks? table = some index) :
    Seeks index (execute table i) := by
  have runs {action : Action Unit} (seeks : Seeks index action) :
      Seeks index (do action; pure Progress.running) := seeks.bind fun _ => .pure _
  cases i with
  | putDAddr other =>
      cases sought
      exact (dynamicLocation_seeks index).bind fun location =>
        (push_sure _).bind fun _ => .pure _
  | syscall other name =>
      cases sought
      exact runs (syscall_seeks index name)
  | ret other =>
      cases sought
      exact runs (ret_seeks index)
  | putAddr other =>
      rw [Instruction.seeks?] at sought
      split at sought <;> cases sought
      exact runs (putAddr_seeks table index)
  | initVar other =>
      rw [Instruction.seeks?] at sought
      split at sought <;> cases sought
      exact runs (initVar_seeks table index)
  | _ => cases sought

theorem execute_allocates {i : Instruction} (sound : m.Sound table)
    (named : i.allocates? = some index) (active : m.frames.size ≠ 0) :
    Meets (· = m) (execute table i) (fun _ _ => True) (fun fault _ => fault.missing? = none) := by
  have begin (m' : Machine) (start : m' = m) : Under table m 0 m' := under_start sound m' start
  have allocates (value : Value) :
      Meets (fun m => m.frames.size ≠ 0) (do allocate index value; pure Progress.running)
        (fun _ _ => True) (fun fault _ => fault.missing? = none) :=
    (allocate_active index value).bind fun _ => Meets.pure fun _ _ => trivial
  cases i with
  | allocVar other =>
      cases named
      simp only [execute]
      exact meets_entry (fun entry _ => (allocates _).start fun _ start => start ▸ active)
        fun _ _ => rfl
  | allocVars other =>
      cases named
      simp only [execute, allocVars, bind_assoc]
      refine meets_entry (fun entry _ => ?_) fun _ _ => rfl
      apply Meets.bind
      · exact (popValue_under.and popValue_sure.meets).mono
          (fun m' start => ⟨begin m' start, trivial⟩) (fun _ _ done => done.1.1)
          (fun _ _ failed => failed.2)
      · intro argument
        have kept (m' : Machine) (under : Under table m 1 m') : m'.frames.size ≠ 0 := by
          rw [under.steady.frames_size]
          exact active
        split
        · exact (allocates _).start kept
        · exact Meets.throw fun _ _ => rfl
  | _ => cases named

/-- A step misses the cell of a record only if it seeks it in the active frame, or allocates a cell
where no frame is active. -/
theorem execute_missing {i : Instruction} (sound : m.Sound table)
    (run : execute table i m = .error (.unboundDynamicVariable index) m') :
    i.seeks? table = some index ∧ ¬ m.Live index ∨
      i.allocates?.isSome = true ∧ m.frames.size = 0 := by
  cases named : i.allocates? with
  | some other =>
      refine .inr ⟨rfl, ?_⟩
      by_contra active
      cases (execute_allocates sound named active).error rfl run
  | none =>
      cases sought : i.seeks? table with
      | none => cases execute_sure sought named _ _ _ run
      | some other =>
          rcases execute_seeks sought _ _ _ run with none | ⟨same, missing⟩
          · cases none
          · cases same
            exact .inl ⟨rfl, missing⟩

end Action

namespace Machine

variable {unit : CodeUnit} {index : UInt32} {m m' : Machine}

theorem step_missing (sound : m.Sound unit.table)
    (stepped : step unit m = .error (.unboundDynamicVariable index) m') :
    ∃ i width, unit.instructionAt? m.ip = some (i, width) ∧
      (i.seeks? unit.table = some index ∧ ¬ m.Live index ∨
        i.allocates?.isSome = true ∧ m.frames.size = 0) := by
  cases decoded : unit.instructionAt? m.ip with
  | none =>
      rw [CodeUnit.instructionAt?] at decoded
      simp only [step] at stepped
      split at stepped
      · cases stepped
      · rw [decoded] at stepped
        cases stepped
  | some found =>
      obtain ⟨i, width⟩ := found
      rw [step_eq decoded] at stepped
      have fetched : Sound unit.table { m with ip := m.ip + width } :=
        ⟨{ sound.typed with }, sound.stack⟩
      have missing := Action.execute_missing fetched stepped
      exact ⟨i, width, rfl, missing⟩

theorem step_putDAddr_missing {width : Nat}
    (decoded : unit.instructionAt? m.ip = some (.putDAddr index, width))
    (missing : ¬ m.Live index) :
    step unit m = .error (.unboundDynamicVariable index) { m with ip := m.ip + width } := by
  have fetched : ¬ Live { m with ip := m.ip + width } index := missing
  rw [step_eq decoded]
  change EStateM.bind (Action.dynamicLocation index) _ _ = _
  rw [EStateM.bind, Action.dynamicLocation_of_not_live fetched]

end Machine

end StackScript
