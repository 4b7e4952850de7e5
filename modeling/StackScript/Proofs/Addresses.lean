import StackScript.Proofs.Calls
import StackScript.Proofs.StoreTyping

namespace StackScript

/-! Addresses on the operand stack of a compiled program refer to live cells of the records that
they were pushed for. -/

variable {unit : CodeUnit} {table : List Entry} {layout layout' : Layout} {root : Location}
variable {m m' : Machine} {i : Instruction} {index : UInt32} {position : Nat}

theorem Location.BelongsTo.grow (belongs : root.BelongsTo table layout index)
    (grows : layout.Grows layout') : root.BelongsTo table layout' index := by
  cases belongs with
  | static found data => exact .static found data
  | @frame frame slot outline _ active owned =>
      obtain ⟨_, rest, active'⟩ := grows _ _ active
      apply Location.BelongsTo.frame active'
      rw [List.getElem?_append_left (List.getElem?_eq_some_iff.mp owned).1, owned]

namespace Machine

theorem layout_allocated (m : Machine) (index : UInt32) (value : Value) :
    (m.allocated index value).layout =
      m.layout.modify (m.frames.size - 1) fun outline => (outline.1, outline.2 ++ [index]) := by
  apply List.ext_getElem?
  intro frame
  simp only [layout, allocated, Array.toList_modify, List.getElem?_map, List.getElem?_modify]
  cases m.frames.toList[frame]? with
  | none => rfl
  | some f => split <;> simp [Frame.outline]

theorem grows_allocated (m : Machine) (index : UInt32) (value : Value) :
    m.layout.Grows (m.allocated index value).layout := by
  intro frame outline active
  rw [layout_allocated, List.getElem?_modify, active]
  split
  · exact ⟨outline.1, [index], rfl⟩
  · exact ⟨outline.1, [], by simp⟩

theorem Does.holdsAt (does : m.Does table i m') (held : m'.HoldsAt position root) :
    m.HoldsAt position root ∨
      ∃ index, i.points? = some index ∧ position = m.stack.size ∧
        root.BelongsTo table m'.layout index ∧
          ∀ frame slot, root = .frame frame slot → frame + 1 = m.frames.size := by
  cases does with
  | stays _ steady => exact .inl (steady.held held)
  | jumps _ steady => exact .inl (steady.held held)
  | allocates _ steady _ _ _ => exact .inl (steady.held held)
  | enters _ _ => exact .inl held
  | leaves _ =>
      obtain ⟨address, found, rfl⟩ := held
      simp only [Array.getElem?_push] at found
      split at found
      · cases found
      · exact .inl ⟨address, found, rfl⟩
  | points named belongs active =>
      obtain ⟨address, found, rfl⟩ := held
      simp only [Array.getElem?_push] at found
      split at found
      · cases found
        exact .inr ⟨_, named, ‹_›, belongs, active⟩
      · exact .inl ⟨address, found, rfl⟩

theorem Fails.holdsAt (fails : m.Fails i m') (held : m'.HoldsAt position root) :
    m.HoldsAt position root := by
  cases fails with
  | stays steady => exact steady.held held
  | leaves _ => exact held

/-- Only a return takes cells away, those of the active frame. -/
theorem Does.layout_cases (does : m.Does table i m') :
    m.layout.Grows m'.layout ∨ (∃ index, i = .ret index) ∧ m'.layout = m.layout.dropLast := by
  have grows (same : m'.layout = m.layout) : m.layout.Grows m'.layout := by
    simpa [same] using m.layout.grows_append []
  cases does with
  | stays _ steady => exact .inl (grows steady.layout_eq)
  | jumps _ steady => exact .inl (grows steady.layout_eq)
  | points _ _ _ => exact .inl (grows rfl)
  | allocates _ steady _ _ _ =>
      apply Or.inl
      rw [← steady.layout_eq]
      exact grows_allocated _ _ _
  | enters _ _ =>
      apply Or.inl
      have pushed := m.layout.grows_append [(m.ip, [])]
      simpa [Machine.layout, Frame.outline] using pushed
  | leaves _ => exact .inr ⟨⟨_, rfl⟩, by simp [Machine.layout, List.map_dropLast]⟩

theorem Fails.layout_cases (fails : m.Fails i m') :
    m.layout.Grows m'.layout ∨ (∃ index, i = .ret index) ∧ m'.layout = m.layout.dropLast := by
  cases fails with
  | stays steady =>
      apply Or.inl
      simpa [steady.layout_eq] using m.layout.grows_append []
  | leaves _ => exact .inr ⟨⟨_, rfl⟩, by simp [Machine.layout, List.map_dropLast]⟩

end Machine

theorem Layout.grows_dropLast (layout : Layout) : Layout.Grows layout.dropLast layout := by
  rcases List.eq_nil_or_concat layout with rfl | ⟨front, last, rfl⟩
  · exact Layout.grows_append [] []
  · rw [List.concat_eq_append, List.dropLast_concat]
    exact Layout.grows_append front [last]

/-! At a return, no operand refers to the frame that is left. -/

theorem Operand.Shaped.roots {address : Address} {shape : Shape}
    (shaped : (Operand.address address).Shaped table layout shape) :
    ∃ ty, address.root.Roots table layout ty := by
  cases shape with
  | value target =>
      obtain ⟨_, ⟨start, roots, -⟩, -⟩ := shaped
      exact ⟨start, roots⟩
  | place ty =>
      obtain ⟨start, roots, -⟩ := shaped
      exact ⟨start, roots⟩

/-- Bodies that wait hold no address into the frame of the active one. -/
theorem Waits.roots {main : Nat → List Shape → Prop} {waiting : List Pending}
    {owner : Option UInt32} (waits : Waits unit main layout waiting owner) {address : Address}
    (member : .address address ∈ waiting.flatMap Pending.operands) :
    ∃ ty, address.root.Roots unit.table layout.dropLast ty := by
  induction waits with
  | nobody => cases member
  | caller owners rest found shaped covers leads induction =>
      rw [List.dropLast_concat]
      rcases List.mem_append.mp member with own | below
      · obtain ⟨shape, shaped⟩ := Stmt.exists_of_forall₂ shaped own
        exact shaped.roots
      · obtain ⟨ty, roots⟩ := induction below
        exact ⟨ty, roots.grow (Layout.grows_dropLast _)⟩

namespace Configured

variable {a : Activity} {width : Nat}

theorem empty_at_ret (configured : Configured unit unit.Stops a m)
    (returns : unit.instructionAt? m.ip = some (.ret index, width)) : a.operands = [] := by
  rw [configured.ip_eq] at returns
  obtain ⟨layout, shapes, rests, waits, shaped, leads⟩ := configured
  rcases leads.arrives_or_goes_on with reached | ⟨instruction, width', decoded, more, -⟩
  · have none : shapes = [] := by
      cases owner : a.owner with
      | none =>
          rw [owner] at reached
          exact reached.1
      | some callee =>
          rw [owner] at reached
          exact reached.1
    rw [none] at shaped
    exact List.forall₂_nil_right_iff.mp shaped
  · rw [returns] at decoded
    cases decoded
    exact absurd rfl more

theorem belongs_below (configured : Configured unit unit.Stops a m)
    (returns : unit.instructionAt? m.ip = some (.ret index, width))
    (held : m.HoldsAt position root) {other : UInt32}
    (belongs : root.BelongsTo unit.table m.layout other) :
    root.BelongsTo unit.table m.layout.dropLast other := by
  have empty := configured.empty_at_ret returns
  obtain ⟨layout, shapes, rests, waits, shaped, leads⟩ := configured
  obtain ⟨address, found, rfl⟩ := held
  have member : .address address ∈ a.waiting.flatMap Pending.operands := by
    have stack := rests.stack_eq
    rw [Activity.stack, empty, List.nil_append] at stack
    rw [← stack, List.mem_reverse]
    rw [← Array.getElem?_toList] at found
    exact List.mem_of_getElem? found
  obtain ⟨ty, roots⟩ := waits.roots member
  rw [rests.layout_eq] at belongs ⊢
  generalize address.root = root at belongs roots
  cases belongs with
  | static found data => exact .static found data
  | @frame frame slot outline _ active owned =>
      cases roots with
      | frame active' owned' found' =>
          obtain ⟨_, rest, same⟩ := Layout.grows_dropLast layout _ _ active'
          have inside := (List.getElem?_eq_some_iff.mp active').1
          rw [List.getElem?_dropLast, if_pos (by simpa using inside)] at active'
          rw [active] at active'
          obtain rfl := Option.some.inj active'
          refine .frame ?_ owned
          rw [List.getElem?_dropLast, if_pos (by simpa using inside), active]

end Configured

/-! Runs. -/

/-- Where an operand starts, if it is an address. -/
def Operand.root? : Operand → Option Location
  | .value _ => none
  | .address a => some a.root

/-- In the step `born` an instruction pushed the address of the record `index`, and since then the
stack has been higher than where it lies. -/
structure Machine.Pushed (unit : CodeUnit) (born steps position : Nat) (index : UInt32) : Prop where
  earlier : born < steps
  pushes : ∃ (m : Machine) (i : Instruction) (width : Nat), After unit born m ∧
    unit.instructionAt? m.ip = some (i, width) ∧ (i = .putAddr index ∨ i = .putDAddr index) ∧
      m.stack.size = position
  stays : ∀ t, born < t → t ≤ steps → position < ((initial unit.table).later unit t).stack.size

theorem Instruction.points?_eq (pushes : i.points? = some index) :
    i = .putAddr index ∨ i = .putDAddr index := by
  cases i with
  | putAddr other =>
      cases pushes
      exact .inl rfl
  | putDAddr other =>
      cases pushes
      exact .inr rfl
  | _ => cases pushes

/-- Where an address on the stack of the next machine comes from, and that it still belongs to the
record that it belonged to. -/
theorem Configured.next_holdsAt {a : Activity} (configured : Configured unit unit.Stops a m)
    (sound : m.Sound unit.table) (held : (m.next unit).HoldsAt position root) :
    (m.HoldsAt position root ∧ ∀ index, root.BelongsTo unit.table m.layout index →
        root.BelongsTo unit.table (m.next unit).layout index) ∨
      ∃ i width index, unit.instructionAt? m.ip = some (i, width) ∧ i.points? = some index ∧
        position = m.stack.size ∧ root.BelongsTo unit.table (m.next unit).layout index := by
  -- A layout that grows keeps what belongs to a record, and a return takes nothing that is held.
  have keeps {i : Instruction} {width : Nat} (decoded : unit.instructionAt? m.ip = some (i, width))
      (held : m.HoldsAt position root) {layout : Layout}
      (cases : m.layout.Grows layout ∨ (∃ index, i = .ret index) ∧ layout = m.layout.dropLast)
      (other : UInt32) (belongs : root.BelongsTo unit.table m.layout other) :
      root.BelongsTo unit.table layout other := by
    rcases cases with grows | ⟨⟨index, rfl⟩, rfl⟩
    · exact belongs.grow grows
    · exact configured.belongs_below decoded held belongs
  cases stepped : Machine.step unit m with
  | ok progress m' =>
      have left : m.next unit = m' := by simp [Machine.next, Edit.outcome, stepped]
      rw [left] at held ⊢
      rcases (Machine.step_does sound stepped).2 with ⟨rfl, -⟩ | ⟨i, width, decoded, does⟩
      · exact .inl ⟨held, fun _ belongs => belongs⟩
      · rcases does.holdsAt held with before | ⟨index, named, top, belongs, -⟩
        · exact .inl ⟨before, keeps decoded before does.layout_cases⟩
        · exact .inr ⟨i, width, index, decoded, named, top, belongs⟩
  | error fault m' =>
      have left : m.next unit = m' := by simp [Machine.next, Edit.outcome, stepped]
      rw [left] at held ⊢
      rcases (Machine.step_fails sound stepped).2 with rfl | ⟨i, width, decoded, fails⟩
      · exact .inl ⟨held, fun _ belongs => belongs⟩
      · have before := fails.holdsAt held
        exact .inl ⟨before, keeps decoded before fails.layout_cases⟩

namespace Builds

variable {source : String}

/-- Every address on the stack starts at a live cell of the record that it was pushed for. A run
ends with its first fault or stop; the state that this leaves is covered, and there is no state
behind it. -/
theorem address_live (builds : Builds source unit) (steps : Nat) {address : Address}
    (held : ((Machine.initial unit.table).later unit steps).stack[position]? =
      some (.address address)) :
    ∃ born index, Machine.Pushed unit born steps position index ∧
      address.root.BelongsTo unit.table
        ((Machine.initial unit.table).later unit steps).layout index := by
  have known : ((Machine.initial unit.table).later unit steps).HoldsAt position address.root :=
    ⟨address, held, rfl⟩
  clear held
  generalize address.root = root at known
  induction steps with
  | zero =>
      obtain ⟨address, found, -⟩ := known
      simp [Machine.later, Machine.runFor, Machine.initial] at found
  | succ steps induction =>
      have high : position < ((Machine.initial unit.table).later unit (steps + 1)).stack.size := by
        obtain ⟨address, found, -⟩ := known
        exact (Array.getElem?_eq_some_iff.mp found).1
      have extend {born : Nat} {index : UInt32}
          (pushed : Machine.Pushed unit born steps position index) :
          Machine.Pushed unit born (steps + 1) position index := by
        refine ⟨Nat.lt_succ_of_lt pushed.earlier, pushed.pushes, ?_⟩
        intro t later bound
        rcases Nat.le_succ_iff.mp bound with before | rfl
        · exact pushed.stays t later before
        · exact high
      by_cases running : (Machine.runFor unit steps (Machine.initial unit.table)).1 = .running
      · have after := Machine.runFor_later running
        obtain ⟨a, configured, -⟩ :=
          builds.configured.run builds.linked trivial (fun _ _ => trivial) after
        rw [Machine.later_succ after] at known ⊢
        rcases configured.next_holdsAt (Machine.After.sound after) known with
          ⟨before, keeps⟩ | ⟨i, width, index, decoded, named, top, belongs⟩
        · obtain ⟨born, index, pushed, belongs⟩ := induction before
          exact ⟨born, index, extend pushed, keeps index belongs⟩
        · refine ⟨steps, index, ⟨Nat.lt_succ_self steps,
            ⟨_, i, width, after, decoded, Instruction.points?_eq named, top.symm⟩, ?_⟩, belongs⟩
          intro t later bound
          obtain rfl : t = steps + 1 := by omega
          exact high
      · rw [Machine.later_ended running] at known ⊢
        obtain ⟨born, index, pushed, belongs⟩ := induction known
        exact ⟨born, index, extend pushed, belongs⟩

theorem result_address_live :
    ∃ (address : Address) (born : Nat) (index : UInt32), address.root = .frame 0 0 ∧
      Machine.Pushed (compile "function f(int n) of int { f = n } int r r = f(1)").unit born 13 1
        index ∧
      address.root.BelongsTo
        (compile "function f(int n) of int { f = n } int r r = f(1)").unit.table
        ((Machine.initial
          (compile "function f(int n) of int { f = n } int r r = f(1)").unit.table).later
            (compile "function f(int n) of int { f = n } int r r = f(1)").unit 13).layout index := by
  have builds : Builds "function f(int n) of int { f = n } int r r = f(1)"
      (compile "function f(int n) of int { f = n } int r r = f(1)").unit :=
    .of_compile (by decide +kernel) (by decide +kernel) (by decide +kernel)
  have root : (((Machine.initial
      (compile "function f(int n) of int { f = n } int r r = f(1)").unit.table).later
        (compile "function f(int n) of int { f = n } int r r = f(1)").unit 13).stack[1]?).bind
          Operand.root? = some (.frame 0 0) := by decide +kernel
  obtain ⟨operand, held, start⟩ := Option.bind_eq_some_iff.mp root
  cases operand with
  | value v => cases start
  | address address =>
      obtain ⟨born, index, live⟩ := builds.address_live 13 held
      exact ⟨address, born, index, Option.some.inj start, live⟩

end Builds

end StackScript
