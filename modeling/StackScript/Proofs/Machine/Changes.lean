import StackScript.Proofs.Machine.Flow
import StackScript.Proofs.Machine.Steady

namespace StackScript

/-! Everything that a step can do to a machine whose values are well typed, for arbitrary code. -/

namespace Instruction

/-- How many operands an instruction takes at most. -/
def pops : Instruction → Nat
  | .putIndAddr count => count.toNat + 1
  | .assign _ | .compare _ | .arith _ => 2
  | .neg | .jumpIfFalse _ | .allocVars _ => 1
  | _ => 0

/-- The record that an instruction pushes an address of. -/
def points? : Instruction → Option UInt32
  | .putAddr index | .putDAddr index => some index
  | _ => none

/-- The record that an instruction allocates a cell for. -/
def allocates? : Instruction → Option UInt32
  | .allocVar index | .allocVars index => some index
  | _ => none

theorem allocates?_of_jump {i : Instruction} (jumps : i.target?.isSome = true) :
    i.allocates? = none := by
  cases i <;> first | rfl | cases jumps

/-- An instruction that goes on behind itself with the same frames and without a new address. -/
def isPlain (i : Instruction) : Bool :=
  i.isLocal && i.points?.isNone && i.allocates?.isNone && i.target?.isNone

end Instruction

namespace Machine

/-- The machine with another cell in its active frame. -/
def allocated (m : Machine) (index : UInt32) (value : Value) : Machine :=
  { m with
    frames := m.frames.modify (m.frames.size - 1) fun f =>
      { f with cells := f.cells ++ [(index, value)] }
    slots := m.slots.set index.toNat (m.frames.back?.map fun f => f.cells.length) }

/-- What an instruction that does not fault does. The machine stands behind it at first. -/
inductive Does (table : List Entry) (m : Machine) : Instruction → Machine → Prop
  | stays {i : Instruction} {m' : Machine} (plain : i.isPlain = true ∨ ∃ target, i = .jumpIfFalse target)
      (steady : m.Steady i.pops m') : Does table m i m'
  | jumps {i : Instruction} {target : UInt32} {m' : Machine} (named : i.target? = some target)
      (steady : Steady i.pops { m with ip := target.toNat } m') : Does table m i m'
  | points {i : Instruction} {index : UInt32} {location : Location}
      (named : i.points? = some index) (belongs : location.BelongsTo table m.layout index)
      (active : ∀ frame slot, location = .frame frame slot → frame + 1 = m.frames.size) :
      Does table m i { m with stack := m.stack.push (.address (.ofLocation location)) }
  | allocates {i : Instruction} {index : UInt32} {value : Value} {m' : Machine}
      (named : i.allocates? = some index) (steady : m.Steady i.pops m')
      (size : m'.stack.size + i.pops = m.stack.size) (active : m.frames.size ≠ 0)
      (listed : index.toNat < m'.slots.length) : Does table m i (m'.allocated index value)
  | enters {index code : UInt32} {entry : Entry} {params : List Ty}
      (found : table[index.toNat]? = some entry) (storage : entry.storage = .function params code) :
      Does table m (.call index)
        { m with
          ip := code.toNat
          frames := m.frames.push { resume := m.ip, cells := [] } }
  | leaves {index : UInt32} {frame : Frame} {result : Value} (back : m.frames.back? = some frame) :
      Does table m (.ret index)
        { m with
          ip := frame.resume
          frames := m.frames.pop
          stack := m.stack.push (.value result) }

/-- What an instruction has done when it faults. A return has left the frame if there is no room
for the result. -/
inductive Fails (m : Machine) : Instruction → Machine → Prop
  | stays {i : Instruction} {m' : Machine} (steady : m.Steady i.pops m') : Fails m i m'
  | leaves {index : UInt32} {frame : Frame} (back : m.frames.back? = some frame) :
      Fails m (.ret index) { m with ip := frame.resume, frames := m.frames.pop }

end Machine

namespace Action

open Machine

variable {table : List Entry} {m : Machine}

theorem meets_entry {index : UInt32} {α : Type} {pre : Machine → Prop} {f : Entry → Action α}
    {post : α → Machine → Prop} {fail : Fault → Machine → Prop}
    (known : ∀ entry, table[index.toNat]? = some entry → Meets pre (f entry) post fail)
    (unknown : ∀ m, pre m → fail .invalidInstruction m) :
    Meets pre (entry table index >>= f) post fail := by
  cases found : table[index.toNat]? with
  | none =>
      intro m start
      have refused : (entry table index >>= f) m = .error .invalidInstruction m := by
        simp only [bind, EStateM.bind, entry, found]
        rfl
      rw [refused]
      exact unknown m start
  | some entry =>
      rw [entry_eq found, pure_bind]
      exact known entry found

theorem under_start (sound : m.Sound table) (m' : Machine) (start : m' = m) :
    Under table m 0 m' := by
  rw [start]
  exact ⟨sound, .refl m⟩

theorem does_throw {α : Type} {fault : Fault} {i : Instruction}
    {post : α → Machine → Prop} (sound : m.Sound table) :
    Meets (· = m) (throw fault : Action α) post
      (fun _ m' => m'.Sound table ∧ m.Fails i m') := by
  apply Meets.throw
  rintro _ rfl
  exact ⟨sound, .stays ((Steady.refl _).mono (Nat.zero_le _))⟩

theorem does_of_under {i : Instruction} {action : Action Unit} (plain : i.isPlain = true)
    (meets : Meets (Under table m 0) action (fun _ => Under table m i.pops)
      (fun _ => Under table m i.pops)) :
    Meets (Under table m 0) (do action; pure Progress.running)
      (fun _ m' => m'.Sound table ∧ m.Does table i m')
      (fun _ m' => m'.Sound table ∧ m.Fails i m') := by
  apply Meets.through fun _ => Under table m i.pops
  · exact meets.mono (fun _ under => under) (fun _ _ under => under)
      (fun _ _ under => ⟨under.sound, .stays under.steady⟩)
  · exact fun _ => Meets.pure fun _ under => ⟨under.sound, .stays (.inl plain) under.steady⟩

theorem initVar_under (index : UInt32) :
    Meets (Under table m 0) (initVar table index) (fun _ => Under table m 0)
      (fun _ => Under table m 0) := by
  apply meets_entry
  · intro entry found
    have reset {location : Location} (roots : location.Roots table m.layout entry.ty)
        (reach : ¬ m.OutOfReach 0 location) :
        Meets (Under table m 0) (editCell location (set (Value.default entry.ty)))
          (fun _ => Under table m 0) (fun _ => Under table m 0) := by
      have keeps (ty : Ty) (roots' : location.Roots table m.layout ty) :
          Value.Keeps (set (Value.default entry.ty)) ty (fun _ => True) fun _ => True :=
        (Value.keeps_set (roots.unique roots' ▸ Value.hasTy_default entry.ty)).mono
          (fun _ typed => typed) (fun _ _ done => done) (fun _ _ fault => ⟨fault.1, trivial⟩)
      exact fun m' under => ((editCell_under reach keeps).mono (fun _ start => start)
        (fun _ _ done => done.1.1) (fun _ _ under => under)) m' ⟨under, rfl⟩
    cases storage : entry.storage with
    | data => exact reset (.static found) reach_of_static
    | function params code =>
        exact Meets.through (fun _ _ => False) (Meets.throw fun _ under => under) fun _ =>
          Meets.absurd fun _ impossible => impossible
    | ddata =>
        apply Meets.bind (dynamicLocation_under index)
        intro location
        apply Meets.of_start (fun _ start => start.2)
        rintro ⟨belongs, slot, rfl⟩
        exact (reset (belongs.roots found) reach_of_active).mono (fun _ start => start.1)
          (fun _ _ under => under) (fun _ _ under => under)
  · exact fun _ under => under

theorem syscall_under (index : UInt32) (name : String) :
    Meets (Under table m 0) (syscall index name) (fun _ => Under table m 0)
      (fun _ => Under table m 0) := by
  cases known : Builtin.ofName? name with
  | none =>
      simp only [syscall, known]
      exact Meets.throw fun _ under => under
  | some builtin =>
      simp only [syscall, known]
      apply Meets.bind (dynamicLocation_under index)
      intro location
      apply Meets.of_start (fun _ start => start.2)
      rintro ⟨-, slot, rfl⟩
      apply Meets.through fun _ m' => Under table m 0 m'
      · exact fun m' start => ((editCell_under reach_of_active
          fun ty _ => Value.preserves_get ty).mono (fun _ start => start)
          (fun _ _ done => done.1.1) (fun _ _ under => under)) m' ⟨start.1, rfl⟩
      · intro argument
        have called := builtin.call_wellTyped argument
        apply Meets.through fun v m' => Under table m 0 m' ∧ v.WellTyped
        · apply Meets.ofExcept
          · intro v m' run start
            rw [run] at called
            exact ⟨start, called⟩
          · exact fun _ _ _ under => under
        · intro v
          apply Meets.of_start (fun _ start => start.2)
          intro typed
          exact (pushValue_under typed).mono (fun _ start => start.1) (fun _ _ under => under)
            (fun _ _ under => under)

theorem putMemberAddr_under :
    Meets (Under table m 0) putMemberAddr (fun _ => Under table m 0)
      (fun _ => Under table m 0) := by
  apply Meets.through fun _ m' => Under table m 0 m'
  · exact Meets.get fun _ under => under
  · intro m'
    split
    · exact Meets.pure fun _ under => under
    · exact Meets.throw fun _ under => under

theorem neg_under :
    Meets (Under table m 0) (do push (.value (← Edit.ofExcept (← popValue).neg)))
      (fun _ => Under table m 1) (fun _ => Under table m 1) := by
  apply Meets.bind popValue_under
  intro v
  have negated := Value.neg_wellTyped (a := v)
  apply Meets.through fun v m' => Under table m 1 m' ∧ v.WellTyped
  · apply Meets.ofExcept
    · intro v m' run start
      rw [run] at negated
      exact ⟨start.1, negated⟩
    · exact fun _ _ _ start => start.1
  · intro v
    apply Meets.of_start (fun _ start => start.2)
    intro typed
    exact (pushValue_under typed).mono (fun _ start => start.1) (fun _ _ under => under)
      (fun _ _ under => under)

theorem does_points {i : Instruction} {index : UInt32} {location : Location}
    (sound : m.Sound table) (named : i.points? = some index)
    (belongs : location.BelongsTo table m.layout index)
    (active : ∀ frame slot, location = .frame frame slot → frame + 1 = m.frames.size) :
    Meets (· = m) (push (.address (.ofLocation location)))
      (fun _ m' => m'.Sound table ∧ m.Does table i m')
      (fun _ m' => m'.Sound table ∧ m.Fails i m') := by
  intro s start
  rw [start]
  by_cases room : m.stack.size < stackLimit
  · simp only [push, room, if_true]
    refine ⟨⟨{ sound.typed with }, ?_⟩, .points named belongs active⟩
    intro v member
    simp only [Array.toList_push, List.mem_append, List.mem_singleton] at member
    rcases member with old | new
    · exact sound.stack v old
    · cases new
  · simp only [push, room, if_false]
    exact ⟨sound, .stays ((Steady.refl m).mono (Nat.zero_le _))⟩

theorem does_dynamic {i : Instruction} {index : UInt32} (sound : m.Sound table)
    (named : i.points? = some index) :
    Meets (· = m) (do push (.address (.ofLocation (← dynamicLocation index))))
      (fun _ m' => m'.Sound table ∧ m.Does table i m')
      (fun _ m' => m'.Sound table ∧ m.Fails i m') := by
  intro s start
  rw [start]
  have found := dynamicLocation_under index m (under_start sound m rfl)
  rcases dynamicLocation_cases index m with run | ⟨frame, slot, value, back, cell, run⟩
  · simp only [bind, EStateM.bind, run]
    exact ⟨sound, .stays ((Steady.refl m).mono (Nat.zero_le _))⟩
  · rw [run] at found
    obtain ⟨-, belongs, -⟩ := found
    simp only [bind, EStateM.bind, run]
    apply does_points sound named belongs _ m rfl
    rintro frame slot ⟨⟩
    have some : m.frames.size ≠ 0 := by
      intro none
      rw [Array.eq_empty_of_size_eq_zero none] at back
      cases back
    omega

theorem popValue_size {size : Nat} :
    Meets (fun m => m.stack.size = size) popValue (fun _ m => m.stack.size + 1 = size)
      (fun _ _ => True) := by
  have popped : Meets (fun m => m.stack.size = size) pop (fun _ m => m.stack.size + 1 = size)
      (fun _ _ => True) := by
    rintro m rfl
    cases last : m.stack.back? with
    | none =>
        simp only [pop, last]
    | some operand =>
        have some : m.stack.size ≠ 0 := by
          intro none
          rw [Array.eq_empty_of_size_eq_zero none] at last
          cases last
        simp only [pop, last, Array.size_pop]
        omega
  apply Meets.bind popped
  intro operand
  cases operand with
  | value v => exact Meets.pure fun _ size => size
  | address address =>
      intro m size
      simp only [editAddress, editCell_eq]
      cases m.cell? address.root with
      | none => trivial
      | some value =>
          simp only
          cases Value.editPath get address.path value with
          | ok v value' =>
              simp only [withCell_stack]
              exact size
          | error fault value' => trivial

theorem allocate_under {start : Machine} {pops : Nat} {index : UInt32} {entry : Entry} {v : Value}
    (found : table[index.toNat]? = some entry) (typed : v.HasTy entry.ty) :
    Meets (fun m => Under table start pops m ∧ m.stack.size + pops = start.stack.size)
      (allocate index v)
      (fun _ m' => m'.Sound table ∧ start.frames.size ≠ 0 ∧
        ∃ m, start.Steady pops m ∧ m.stack.size + pops = start.stack.size ∧
          m' = m.allocated index v)
      (fun _ => Under table start pops) := by
  rintro m ⟨under, size⟩
  cases back : m.frames.back? with
  | none =>
      simp only [allocate, back]
      exact under
  | some frame =>
      have inside : index.toNat < m.slots.length := by
        rw [under.sound.typed.slots_length]
        exact (List.getElem?_eq_some_iff.mp found).1
      have active : m.frames.size ≠ 0 := by
        intro none
        rw [Array.eq_empty_of_size_eq_zero none] at back
        cases back
      have run : allocate index v m = .ok () (m.allocated index v) := by
        simp [allocate, back, inside, allocated]
      obtain ⟨front, ⟨resume, owners⟩, outlines⟩ :
          ∃ front last, m.layout = front ++ [last] := by
        rcases List.eq_nil_or_concat m.layout with none | ⟨front, last, outlines⟩
        · have size := congrArg List.length none
          rw [layout, List.length_map, Array.length_toList, List.length_nil] at size
          exact absurd size active
        · exact ⟨front, last, by rw [outlines, List.concat_eq_append]⟩
      have rests : m.Rests table m.ip (front ++ [(resume, owners)]) m.stack.toList.reverse :=
        ⟨under.sound.typed, rfl, outlines, rfl⟩
      have allocated := (allocate_meets found typed).ok rests run
      rw [run]
      refine ⟨⟨allocated.typed, under.sound.stack⟩, ?_, m, under.steady, size, rfl⟩
      rw [← under.steady.frames_size]
      exact active

theorem does_allocates {i : Instruction} {index : UInt32} {entry : Entry} {v : Value}
    (named : i.allocates? = some index) (found : table[index.toNat]? = some entry)
    (typed : v.HasTy entry.ty) :
    Meets (fun m' => Under table m i.pops m' ∧ m'.stack.size + i.pops = m.stack.size)
      (do allocate index v; pure Progress.running)
      (fun _ m' => m'.Sound table ∧ m.Does table i m')
      (fun _ m' => m'.Sound table ∧ m.Fails i m') := by
  apply Meets.bind
  · exact (allocate_under found typed).mono (fun _ under => under) (fun _ _ done => done)
      (fun _ _ under => ⟨under.sound, .stays under.steady⟩)
  · intro _
    apply Meets.pure
    rintro _ ⟨sound, active, m', steady, size, rfl⟩
    refine ⟨sound, .allocates named steady size active ?_⟩
    have length := sound.typed.slots_length
    rw [allocated, List.length_set] at length
    rw [length]
    exact (List.getElem?_eq_some_iff.mp found).1

theorem does_running {i : Instruction} {action : Action Unit}
    (meets : Meets (· = m) action (fun _ m' => m'.Sound table ∧ m.Does table i m')
      (fun _ m' => m'.Sound table ∧ m.Fails i m')) :
    Meets (· = m) (do action; pure Progress.running)
      (fun _ m' => m'.Sound table ∧ m.Does table i m')
      (fun _ m' => m'.Sound table ∧ m.Fails i m') :=
  Meets.bind meets fun _ => Meets.pure fun _ done => done

theorem does_putAddr (sound : m.Sound table) (index : UInt32) :
    Meets (· = m) (putAddr table index)
      (fun _ m' => m'.Sound table ∧ m.Does table (.putAddr index) m')
      (fun _ m' => m'.Sound table ∧ m.Fails (.putAddr index) m') := by
  apply meets_entry
  · intro entry found
    cases storage : entry.storage with
    | data => exact does_points sound rfl (.static found storage) nofun
    | ddata => exact does_dynamic sound rfl
    | function params code => exact does_dynamic sound rfl
  · rintro _ rfl
    exact ⟨sound, .stays (Steady.refl _)⟩

theorem does_jumpIfFalse (sound : m.Sound table) (target : UInt32) :
    Meets (· = m) (jumpIfFalse target)
      (fun _ m' => m'.Sound table ∧ m.Does table (.jumpIfFalse target) m')
      (fun _ m' => m'.Sound table ∧ m.Fails (.jumpIfFalse target) m') := by
  apply Meets.bind
  · exact popValue_under.mono (under_start sound) (fun _ _ done => done)
      (fun _ _ under => ⟨under.sound, .stays under.steady⟩)
  · intro v
    split
    · exact Meets.pure fun _ start => ⟨start.1.sound, .stays (.inr ⟨target, rfl⟩) start.1.steady⟩
    · apply Meets.modify
      rintro m' ⟨⟨sound', steady⟩, -⟩
      exact ⟨⟨{ sound'.typed with }, sound'.stack⟩, .jumps rfl { steady with ip_eq := rfl }⟩
    · exact Meets.throw fun _ start => ⟨start.1.sound, .stays start.1.steady⟩

theorem does_call (sound : m.Sound table) (index : UInt32) :
    Meets (· = m) (call table index)
      (fun _ m' => m'.Sound table ∧ m.Does table (.call index) m')
      (fun _ m' => m'.Sound table ∧ m.Fails (.call index) m') := by
  apply meets_entry
  · intro entry found
    cases storage : entry.storage with
    | data => exact does_throw sound
    | ddata => exact does_throw sound
    | function params code =>
        apply Meets.through fun m' m'' => m' = m ∧ m'' = m
        · exact Meets.get fun _ start => ⟨start, start⟩
        intro m'
        apply Meets.of_start (fun _ start => start.1)
        rintro rfl
        by_cases room : m'.frames.size < frameLimit
        · simp only [room, if_true]
          apply Meets.set
          intro _ _
          refine ⟨⟨⟨sound.typed.statics_length, sound.typed.statics, ?_,
            sound.typed.slots_length⟩, sound.stack⟩, .enters found storage⟩
          intro frame member
          simp only [Array.toList_push, List.mem_append, List.mem_singleton] at member
          rcases member with old | rfl
          · exact sound.typed.cells frame old
          · exact fun cell none => absurd none List.not_mem_nil
        · simp only [room, if_false]
          exact (does_throw sound).mono (fun _ start => start.2) (fun _ _ done => done)
            (fun _ _ failed => failed)
  · rintro _ rfl
    exact ⟨sound, .stays (Steady.refl _)⟩

theorem sound_left (sound : m.Sound table) (frame : Frame) :
    Sound table { m with ip := frame.resume, frames := m.frames.pop } where
  typed :=
    { statics_length := sound.typed.statics_length
      statics := sound.typed.statics
      cells := by
        intro f member
        simp only [Array.toList_pop] at member
        exact sound.typed.cells f (List.dropLast_subset _ member)
      slots_length := sound.typed.slots_length }
  stack := sound.stack

theorem does_ret (sound : m.Sound table) (index : UInt32) :
    Meets (· = m) (ret index)
      (fun _ m' => m'.Sound table ∧ m.Does table (.ret index) m')
      (fun _ m' => m'.Sound table ∧ m.Fails (.ret index) m') := by
  intro s start
  rw [start]
  rcases ret_cases index m with ⟨-, run⟩ | run | ⟨frame, slot, value, back, cell, run⟩
  · rw [run]
    exact ⟨sound, .stays (Steady.refl m)⟩
  · rw [run]
    exact ⟨sound, .stays (Steady.refl m)⟩
  · rw [run]
    have typed : value.WellTyped := by
      have active := back
      rw [Array.back?_eq_getElem?, ← Array.getElem?_toList] at active
      obtain ⟨entry, -, typed⟩ := sound.typed.cells frame (List.mem_of_getElem? active) _
        (List.mem_of_getElem? cell)
      exact typed.wellTyped
    have left := sound_left sound frame
    by_cases room : m.stack.size < stackLimit
    · simp only [push, room, if_true]
      refine ⟨⟨{ left.typed with }, ?_⟩, .leaves back⟩
      intro v member
      simp only [Array.toList_push, List.mem_append, List.mem_singleton] at member
      rcases member with old | new
      · exact left.stack v old
      · cases new
        exact typed
    · simp only [push, room, if_false]
      exact ⟨left, .leaves back⟩

theorem arith_under (operation : Arithmetic) :
    Meets (Under table m 0) (arith operation) (fun _ => Under table m 2)
      (fun _ => Under table m 2) := by
  have applied : arith operation = binary operation.apply := by
    cases operation <;> rfl
  rw [applied]
  exact binary_under fun _ _ first second => operation.apply_wellTyped first second

theorem compare_under (relation : Relation) :
    Meets (Under table m 0) (compare relation) (fun _ => Under table m 2)
      (fun _ => Under table m 2) := by
  apply binary_under
  intro a b _ _
  cases Value.compare relation.opcode a b with
  | ok holds => exact Value.wellTyped_atom (.bool holds)
  | error fault => trivial

theorem does_allocVar (sound : m.Sound table) (index : UInt32) :
    Meets (· = m) (execute table (.allocVar index))
      (fun _ m' => m'.Sound table ∧ m.Does table (.allocVar index) m')
      (fun _ m' => m'.Sound table ∧ m.Fails (.allocVar index) m') := by
  simp only [execute]
  apply meets_entry
  · intro entry found
    exact (does_allocates rfl found (Value.hasTy_default entry.ty)).start
      fun m' start => ⟨under_start sound m' start, by rw [start]; rfl⟩
  · rintro _ rfl
    exact ⟨sound, .stays (Steady.refl _)⟩

theorem does_allocVars (sound : m.Sound table) (index : UInt32) :
    Meets (· = m) (execute table (.allocVars index))
      (fun _ m' => m'.Sound table ∧ m.Does table (.allocVars index) m')
      (fun _ m' => m'.Sound table ∧ m.Fails (.allocVars index) m') := by
  simp only [execute, allocVars, bind_assoc]
  apply meets_entry
  · intro entry found
    apply Meets.bind
    · exact (popValue_under.and popValue_size).mono
        (fun m' start => ⟨under_start sound m' start, congrArg (·.stack.size) start⟩)
        (fun _ _ done => done) (fun _ _ under => ⟨under.1.sound, .stays under.1.steady⟩)
    · intro argument
      apply Meets.of_start (fun _ start => start.1.2)
      intro typed
      by_cases accepts : entry.ty.accepts argument.ty = true
      · simp only [accepts, if_true]
        exact (does_allocates rfl found (Value.HasTy.widen typed accepts)).start
          fun _ start => ⟨start.1.1, start.2⟩
      · simp only [accepts]
        exact Meets.through (fun _ _ => False)
          (Meets.throw fun _ start => ⟨start.1.1.sound, .stays start.1.1.steady⟩)
          fun _ => Meets.absurd fun _ impossible => impossible
  · rintro _ rfl
    exact ⟨sound, .stays ((Steady.refl _).mono (Nat.zero_le _))⟩

theorem execute_does (sound : m.Sound table) (i : Instruction) :
    Meets (· = m) (execute table i) (fun _ m' => m'.Sound table ∧ m.Does table i m')
      (fun _ m' => m'.Sound table ∧ m.Fails i m') := by
  have begin := under_start sound
  have literal {i : Instruction} {a : Atom} (plain : i.isPlain = true) (none : i.pops = 0) :
      Meets (· = m) (do push (.value (.atom a)); pure Progress.running)
        (fun _ m' => m'.Sound table ∧ m.Does table i m')
        (fun _ m' => m'.Sound table ∧ m.Fails i m') := by
    refine (does_of_under plain ?_).start begin
    rw [none]
    exact pushValue_under (Value.wellTyped_atom a)
  have still {i : Instruction} {progress : Progress} (plain : i.isPlain = true) :
      Meets (· = m) (pure progress : Action Progress)
        (fun _ m' => m'.Sound table ∧ m.Does table i m')
        (fun _ m' => m'.Sound table ∧ m.Fails i m') := by
    apply Meets.pure
    rintro _ rfl
    exact ⟨sound, .stays (.inl plain) ((Steady.refl _).mono (Nat.zero_le _))⟩
  cases i with
  | nop => exact still rfl
  | stop => exact still rfl
  | putAddr index => exact does_running (does_putAddr sound index)
  | putDAddr index =>
      rw [execute_putDAddr]
      exact does_running (does_dynamic sound rfl)
  | putMemberAddr index => exact (does_of_under rfl putMemberAddr_under).start begin
  | putIndAddr count =>
      refine (does_of_under rfl ?_).start begin
      have indexed : Meets (Under table m 0) (indexAddress count) _ _ := indexAddress_under count
      rwa [Nat.zero_add] at indexed
  | putInt n => exact literal rfl rfl
  | putFloat bits => exact literal rfl rfl
  | putString s => exact literal rfl rfl
  | putBoolean b => exact literal rfl rfl
  | assign update => exact (does_of_under rfl (assign_under update)).start begin
  | compare relation => exact (does_of_under rfl (compare_under relation)).start begin
  | arith operation => exact (does_of_under rfl (arith_under operation)).start begin
  | neg =>
      rw [execute_neg]
      exact (does_of_under rfl neg_under).start begin
  | jumpIfFalse target => exact does_running (does_jumpIfFalse sound target)
  | jump target =>
      apply does_running
      apply Meets.modify
      rintro _ rfl
      exact ⟨⟨{ sound.typed with }, sound.stack⟩, .jumps rfl (.refl _)⟩
  | call index => exact does_running (does_call sound index)
  | ret index => exact does_running (does_ret sound index)
  | syscall index name => exact (does_of_under rfl (syscall_under index name)).start begin
  | initVar index => exact (does_of_under rfl (initVar_under index)).start begin
  | allocVar index => exact does_allocVar sound index
  | allocVars index => exact does_allocVars sound index

end Action

namespace Machine

variable {unit : CodeUnit} {m m' : Machine}

/-- A step that does not fault changes nothing at the end of the code, and anywhere else does what
the instruction there does. -/
theorem step_does {progress : Progress} (sound : m.Sound unit.table)
    (stepped : step unit m = .ok progress m') :
    m'.Sound unit.table ∧ (m' = m ∧ progress = .stopped ∨
      ∃ instruction width, unit.instructionAt? m.ip = some (instruction, width) ∧
        Does unit.table { m with ip := m.ip + width } instruction m') := by
  cases decoded : unit.instructionAt? m.ip with
  | none =>
      rw [CodeUnit.instructionAt?] at decoded
      simp only [step] at stepped
      split at stepped
      · cases stepped
        exact ⟨sound, .inl ⟨rfl, rfl⟩⟩
      · rw [decoded] at stepped
        cases stepped
  | some found =>
      obtain ⟨instruction, width⟩ := found
      rw [step_eq decoded] at stepped
      have fetched : Sound unit.table { m with ip := m.ip + width } :=
        ⟨{ sound.typed with }, sound.stack⟩
      obtain ⟨sound', does⟩ := (Action.execute_does fetched instruction).ok rfl stepped
      exact ⟨sound', .inr ⟨instruction, width, rfl, does⟩⟩

theorem step_fails {fault : Fault} (sound : m.Sound unit.table)
    (stepped : step unit m = .error fault m') :
    m'.Sound unit.table ∧ (m' = m ∨
      ∃ instruction width, unit.instructionAt? m.ip = some (instruction, width) ∧
        Fails { m with ip := m.ip + width } instruction m') := by
  cases decoded : unit.instructionAt? m.ip with
  | none =>
      rw [CodeUnit.instructionAt?] at decoded
      simp only [step] at stepped
      split at stepped
      · cases stepped
      · rw [decoded] at stepped
        cases stepped
        exact ⟨sound, .inl rfl⟩
  | some found =>
      obtain ⟨instruction, width⟩ := found
      rw [step_eq decoded] at stepped
      have fetched : Sound unit.table { m with ip := m.ip + width } :=
        ⟨{ sound.typed with }, sound.stack⟩
      obtain ⟨sound', fails⟩ := (Action.execute_does fetched instruction).error rfl stepped
      exact ⟨sound', .inr ⟨instruction, width, rfl, fails⟩⟩

end Machine

end StackScript
