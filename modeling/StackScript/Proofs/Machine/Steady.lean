import StackScript.Proofs.Machine.Effect
import StackScript.Proofs.Value.Preservation

namespace StackScript

/-! What the parts of a step keep on any machine whose values are well typed. No operand is known
here: it may be missing, and an address may refer to no cell or to a cell of another type. -/

/-- A location is a live cell of a record of the variable table. -/
inductive Location.BelongsTo (table : List Entry) (layout : Layout) : Location → UInt32 → Prop
  | static {index : UInt32} {entry : Entry} (found : table[index.toNat]? = some entry)
      (data : entry.storage = .data) : BelongsTo table layout (.static index.toNat) index
  | frame {frame slot : Nat} {outline : Nat × List UInt32} {index : UInt32}
      (active : layout[frame]? = some outline) (owned : outline.2[slot]? = some index) :
      BelongsTo table layout (.frame frame slot) index

theorem Location.BelongsTo.roots {table : List Entry} {layout : Layout} {location : Location}
    {index : UInt32} {entry : Entry} (belongs : location.BelongsTo table layout index)
    (found : table[index.toNat]? = some entry) : location.Roots table layout entry.ty := by
  cases belongs with
  | static found' _ => exact .static found
  | frame active owned => exact .frame active owned found

theorem Location.Roots.unique {table : List Entry} {layout : Layout} {location : Location}
    {ty ty' : Ty} (roots : location.Roots table layout ty)
    (roots' : location.Roots table layout ty') : ty = ty' := by
  cases roots with
  | static found =>
      cases roots' with
      | static found' => rw [Option.some.inj (found.symm.trans found')]
  | frame active owned found =>
      cases roots' with
      | frame active' owned' found' =>
          obtain rfl := Option.some.inj (active.symm.trans active')
          obtain rfl := Option.some.inj (owned.symm.trans owned')
          rw [Option.some.inj (found.symm.trans found')]

namespace Machine

structure Sound (table : List Entry) (m : Machine) : Prop where
  typed : m.Typed table
  stack : ∀ v, .value v ∈ m.stack.toList → v.WellTyped

/-- At a position of the stack is an address that starts at a location. -/
def HoldsAt (m : Machine) (position : Nat) (root : Location) : Prop :=
  ∃ address : Address, m.stack[position]? = some (.address address) ∧ address.root = root

/-- Neither the uppermost operands nor the active frame are a way to a location. -/
def OutOfReach (m : Machine) (pops : Nat) (location : Location) : Prop :=
  ∃ frame slot, location = .frame frame slot ∧ frame + 1 < m.frames.size ∧
    ∀ position slot', m.stack.size ≤ position + pops → ¬ m.HoldsAt position (.frame frame slot')

/-- Control and frames are the same, apart from the content of cells that the uppermost operands or
the active frame are a way to, and every address on the stack was there before. -/
structure Steady (pops : Nat) (m m' : Machine) : Prop where
  ip_eq : m'.ip = m.ip
  layout_eq : m'.layout = m.layout
  slots_eq : m'.slots = m.slots
  size_le : m.stack.size ≤ m'.stack.size + pops
  held : ∀ {position : Nat} {root : Location}, m'.HoldsAt position root → m.HoldsAt position root
  frames : ∀ {frame : Nat}, (∀ slot, m.OutOfReach pops (.frame frame slot)) →
    m'.frames[frame]? = m.frames[frame]?

namespace Steady

variable {pops pops' : Nat} {start m m' : Machine} {table : List Entry}

theorem refl (m : Machine) : m.Steady 0 m where
  ip_eq := rfl
  layout_eq := rfl
  slots_eq := rfl
  size_le := Nat.le_refl _
  held := id
  frames := fun _ => rfl

theorem frames_size (steady : start.Steady pops m) : m.frames.size = start.frames.size := by
  have length := congrArg List.length steady.layout_eq
  simpa [layout] using length

end Steady

theorem OutOfReach.mono {pops pops' : Nat} {m : Machine} {location : Location}
    (out : m.OutOfReach pops' location) (le : pops ≤ pops') : m.OutOfReach pops location := by
  obtain ⟨frame, slot, rfl, below, clear⟩ := out
  exact ⟨frame, slot, rfl, below, fun position slot' bound => clear position slot' (by omega)⟩

namespace Steady

variable {pops pops' : Nat} {start m m' : Machine} {table : List Entry}

theorem mono (steady : start.Steady pops m) (le : pops ≤ pops') : start.Steady pops' m where
  ip_eq := steady.ip_eq
  layout_eq := steady.layout_eq
  slots_eq := steady.slots_eq
  size_le := by
    have bound := steady.size_le
    omega
  held := steady.held
  frames := fun out => steady.frames fun slot => (out slot).mono le

theorem pop (steady : start.Steady pops m) :
    start.Steady (pops + 1) { m with stack := m.stack.pop } where
  ip_eq := steady.ip_eq
  layout_eq := steady.layout_eq
  slots_eq := steady.slots_eq
  size_le := by
    have bound := steady.size_le
    simp only [Array.size_pop]
    omega
  held := by
    rintro position root ⟨address, found, rfl⟩
    simp only [Array.getElem?_pop] at found
    split at found
    · exact steady.held ⟨address, found, rfl⟩
    · cases found
  frames := fun out => steady.frames fun slot => (out slot).mono (Nat.le_succ pops)

theorem push (steady : start.Steady pops m) {operand : Operand}
    (known : ∀ address, operand = .address address →
      start.HoldsAt m.stack.size address.root) :
    start.Steady pops { m with stack := m.stack.push operand } where
  ip_eq := steady.ip_eq
  layout_eq := steady.layout_eq
  slots_eq := steady.slots_eq
  size_le := by
    have bound := steady.size_le
    simp only [Array.size_push]
    omega
  held := by
    rintro position root ⟨address, found, rfl⟩
    simp only [Array.getElem?_push] at found
    split at found
    · rename_i top
      subst top
      exact known address (Option.some.inj found)
    · exact steady.held ⟨address, found, rfl⟩
  frames := steady.frames

theorem withCell (steady : start.Steady pops m) {location : Location} {value : Value}
    (reach : ¬ start.OutOfReach pops location) :
    start.Steady pops (m.withCell location value) where
  ip_eq := by rw [withCell_ip, steady.ip_eq]
  layout_eq := by rw [withCell_layout, steady.layout_eq]
  slots_eq := by rw [withCell_slots, steady.slots_eq]
  size_le := by
    rw [withCell_stack]
    exact steady.size_le
  held := by
    intro position root held
    rw [HoldsAt, withCell_stack] at held
    exact steady.held held
  frames := by
    intro frame out
    rw [withCell_frames, steady.frames out]
    rintro slot rfl
    exact reach (out slot)

end Steady

/-- What a step has done so far to a machine whose values are well typed. -/
structure Under (table : List Entry) (start : Machine) (pops : Nat) (m : Machine) : Prop where
  sound : m.Sound table
  steady : start.Steady pops m

theorem Under.mono {table : List Entry} {start m : Machine} {pops pops' : Nat}
    (under : Under table start pops m) (le : pops ≤ pops') : Under table start pops' m :=
  ⟨under.sound, under.steady.mono le⟩

end Machine

namespace Action

open Machine

variable {table : List Entry} {start : Machine} {pops : Nat} {β : Type} {result : β → Prop}

/-- An operand that was popped: what remains of the stack is as long as what was below it. -/
def Popped (start : Machine) (operand : Operand) (m : Machine) : Prop :=
  match operand with
  | .value v => v.WellTyped
  | .address address => start.HoldsAt m.stack.size address.root

theorem push_under {operand : Operand}
    (typed : ∀ v, operand = .value v → v.WellTyped) :
    Meets (fun m => Under table start pops m ∧
        ∀ address, operand = .address address → start.HoldsAt m.stack.size address.root)
      (push operand) (fun _ => Under table start pops) (fun _ => Under table start pops) := by
  rintro m ⟨under, known⟩
  by_cases room : m.stack.size < stackLimit
  · simp only [push, room, if_true]
    refine ⟨⟨{ under.sound.typed with }, ?_⟩, under.steady.push known⟩
    intro v member
    simp only [Array.toList_push, List.mem_append, List.mem_singleton] at member
    rcases member with old | new
    · exact under.sound.stack v old
    · exact typed v new.symm
  · simp only [push, room, if_false]
    exact under

theorem pushValue_under {v : Value} (typed : v.WellTyped) :
    Meets (Under table start pops) (push (.value v)) (fun _ => Under table start pops)
      (fun _ => Under table start pops) := by
  have known : ∀ v', Operand.value v = .value v' → v'.WellTyped := by
    rintro _ ⟨⟩
    exact typed
  exact (push_under known).start fun _ under => ⟨under, nofun⟩

theorem pop_under :
    Meets (Under table start pops) pop
      (fun operand m => Under table start (pops + 1) m ∧ Popped start operand m)
      (fun _ => Under table start (pops + 1)) := by
  intro m under
  cases last : m.stack.back? with
  | none =>
      simp only [pop, last]
      exact under.mono (Nat.le_succ pops)
  | some operand =>
      simp only [pop, last]
      refine ⟨⟨⟨{ under.sound.typed with }, ?_⟩, under.steady.pop⟩, ?_⟩
      · intro v member
        simp only [Array.toList_pop] at member
        exact under.sound.stack v (List.dropLast_subset _ member)
      · rw [Array.back?_eq_getElem?] at last
        cases operand with
        | value v =>
            apply under.sound.stack v
            rw [← Array.getElem?_toList] at last
            exact List.mem_of_getElem? last
        | address address =>
            simp only [Popped, Array.size_pop]
            exact under.steady.held ⟨address, last, rfl⟩

theorem reach_of_popped {m : Machine} {address : Address}
    (under : Under table start pops m) (popped : Popped start (.address address) m) :
    ¬ start.OutOfReach pops address.root := by
  rintro ⟨frame, slot, root, below, clear⟩
  apply clear m.stack.size slot under.steady.size_le
  rw [← root]
  exact popped

theorem editCell_under {location : Location} {edit : Edit Value β} {size : Nat}
    (reach : ¬ start.OutOfReach pops location)
    (keeps : ∀ ty, location.Roots table start.layout ty →
      Value.Keeps edit ty result fun _ => True) :
    Meets (fun m => Under table start pops m ∧ m.stack.size = size) (editCell location edit)
      (fun b m => (Under table start pops m ∧ m.stack.size = size) ∧ result b)
      (fun _ => Under table start pops) := by
  rintro m ⟨under, length⟩
  have replaced {ty : Ty} {value : Value} (roots : location.Roots table m.layout ty)
      (hasTy : value.HasTy ty) : Under table start pops (m.withCell location value) := by
    refine ⟨⟨under.sound.typed.withCell roots hasTy, ?_⟩, under.steady.withCell reach⟩
    rw [withCell_stack]
    exact under.sound.stack
  rw [editCell_eq]
  cases inside : m.cell? location with
  | none => exact under
  | some value =>
      obtain ⟨ty, roots, typed⟩ := under.sound.typed.cell inside
      have edited := keeps ty (under.steady.layout_eq ▸ roots) value typed
      simp only
      cases run : edit value with
      | ok b value' =>
          rw [run] at edited
          exact ⟨⟨replaced roots edited.1, by rw [withCell_stack, length]⟩, edited.2⟩
      | error fault value' =>
          rw [run] at edited
          exact replaced roots edited.1

theorem editAddress_under {address : Address} {edit : Edit Value β}
    (preserves : Value.Preserves edit result) :
    Meets (fun m => Under table start pops m ∧ Popped start (.address address) m)
      (editAddress address edit)
      (fun b m => (Under table start pops m ∧ Popped start (.address address) m) ∧ result b)
      (fun _ => Under table start pops) := by
  rintro m ⟨under, popped⟩
  have edited := editCell_under (reach_of_popped under popped)
    (fun ty _ => Value.preserves_editPath preserves address.path ty) m ⟨under, rfl⟩
  rw [editAddress]
  cases run : editCell address.root (Value.editPath edit address.path) m with
  | ok b m' =>
      rw [run] at edited
      obtain ⟨⟨under', size⟩, done⟩ := edited
      refine ⟨⟨under', ?_⟩, done⟩
      rw [Popped, size]
      exact popped
  | error fault m' =>
      rw [run] at edited
      exact edited

theorem popValue_under :
    Meets (Under table start pops) popValue
      (fun v m => Under table start (pops + 1) m ∧ v.WellTyped)
      (fun _ => Under table start (pops + 1)) := by
  apply Meets.bind pop_under
  intro operand
  cases operand with
  | value v => exact Meets.pure fun _ start => start
  | address address =>
      exact (editAddress_under Value.preserves_get).mono (fun _ start => start)
        (fun _ _ done => ⟨done.1.1, done.2⟩) (fun _ _ under => under)

theorem popIndexes_under (count : Nat) :
    Meets (Under table start pops) (popIndexes count)
      (fun _ => Under table start (pops + count)) (fun _ => Under table start (pops + count)) := by
  induction count generalizing pops with
  | zero => exact Meets.pure fun _ under => under
  | succ count induction =>
      have total : pops + (count + 1) = pops + 1 + count := by omega
      rw [total]
      apply Meets.bind
      · exact popValue_under.mono (fun _ under => under) (fun _ _ done => done)
          (fun _ _ under => under.mono (by omega))
      · intro last
        apply Meets.bind
        · exact induction.start fun _ start => start.1
        · exact fun front => Meets.pure fun _ under => under

theorem indexAddress_under (count : UInt8) :
    Meets (Under table start pops) (indexAddress count)
      (fun _ => Under table start (pops + (count.toNat + 1)))
      (fun _ => Under table start (pops + (count.toNat + 1))) := by
  have reached (indexes : List Value) :
      Value.Preserves (Value.editArray (Sparse.reach indexes)) fun _ => True :=
    Value.preserves_editArray fun _ _ => (Sparse.reach_meets indexes).mono
      (fun _ typed => typed) (fun _ _ done => ⟨done.1, trivial⟩) (fun _ _ fault => fault.1)
  apply Meets.bind
  · exact (popIndexes_under count.toNat).mono (fun _ under => under) (fun _ _ done => done)
      (fun _ _ under => under.mono (by omega))
  intro indexes
  apply Meets.bind pop_under
  intro operand
  cases operand with
  | value v => exact Meets.throw fun _ start => start.1
  | address address =>
      apply Meets.bind (editAddress_under (reached indexes))
      intro key
      have none : ∀ v, Operand.address (address.element key) = .value v → v.WellTyped := nofun
      apply (push_under none).start
      rintro _ ⟨⟨under, popped⟩, -⟩
      refine ⟨under, ?_⟩
      rintro _ ⟨⟩
      exact popped

theorem assign_under (update : Update) :
    Meets (Under table start pops) (assign update.opcode)
      (fun _ => Under table start (pops + 2)) (fun _ => Under table start (pops + 2)) := by
  apply Meets.bind
  · exact popValue_under.mono (fun _ under => under) (fun _ _ done => done)
      (fun _ _ under => under.mono (by omega))
  intro v
  apply Meets.of_start (fun _ start => start.2)
  intro typed
  apply Meets.bind (pop_under.mono (fun _ start => start.1) (fun _ _ done => done)
    (fun _ _ under => under))
  intro operand
  cases operand with
  | value v => exact Meets.throw fun _ start => start.1
  | address address =>
      exact (editAddress_under (Value.preserves_assign update typed)).mono
        (fun _ start => start) (fun _ _ done => done.1.1) (fun _ _ under => under)

theorem binary_under {operator : Value → Value → Except Fault Value}
    (outcome : ∀ a b : Value, a.WellTyped → b.WellTyped →
      Outcome (operator a b) Value.WellTyped fun _ => True) :
    Meets (Under table start pops) (binary operator)
      (fun _ => Under table start (pops + 2)) (fun _ => Under table start (pops + 2)) := by
  apply Meets.bind
  · exact popValue_under.mono (fun _ under => under) (fun _ _ done => done)
      (fun _ _ under => under.mono (by omega))
  intro b
  apply Meets.of_start (fun _ start => start.2)
  intro second
  apply Meets.bind (popValue_under.mono (fun _ start => start.1) (fun _ _ done => done)
    (fun _ _ under => under))
  intro a
  apply Meets.of_start (fun _ start => start.2)
  intro first
  have computed := outcome a b first second
  apply Meets.through fun v m => Under table start (pops + 2) m ∧ v.WellTyped
  · apply Meets.ofExcept
    · intro v m run start
      rw [run] at computed
      exact ⟨start.1, computed⟩
    · exact fun _ _ _ start => start.1
  · intro v
    apply Meets.of_start (fun _ start => start.2)
    intro typed
    exact (pushValue_under typed).mono (fun _ start => start.1) (fun _ _ under => under)
      (fun _ _ under => under)

theorem dynamicLocation_under (index : UInt32) :
    Meets (Under table start pops) (dynamicLocation index)
      (fun location m => Under table start pops m ∧
        location.BelongsTo table start.layout index ∧
        ∃ slot, location = .frame (start.frames.size - 1) slot)
      (fun _ => Under table start pops) := by
  intro m under
  rcases dynamicLocation_cases index m with run | ⟨frame, slot, value, back, cell, run⟩
  · rw [run]
    exact under
  · rw [run]
    have size := under.steady.frames_size
    have active : start.layout[m.frames.size - 1]? = some frame.outline := by
      rw [Array.back?_eq_getElem?] at back
      rw [← under.steady.layout_eq, layout, List.getElem?_map, Array.getElem?_toList, back]
      rfl
    refine ⟨under, .frame active ?_, slot, by rw [size]⟩
    simp [Frame.outline, cell]

theorem reach_of_active {slot : Nat} :
    ¬ start.OutOfReach pops (.frame (start.frames.size - 1) slot) := by
  rintro ⟨frame, slot', equal, below, -⟩
  cases equal
  omega

theorem reach_of_static {index : Nat} : ¬ start.OutOfReach pops (.static index) := by
  rintro ⟨frame, slot, equal, -⟩
  cases equal

end Action

end StackScript
