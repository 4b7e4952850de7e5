import Mathlib.Algebra.Group.Nat.Defs
import StackScript.Machine.Step
import StackScript.Proofs.Code.Placement

namespace StackScript

/-! A machine over code that stands further back: its instruction pointer and the places where its
frames resume are larger, and nothing else differs. -/

/-- Where the code of a function starts. -/
def Entry.code? (entry : Entry) : Option UInt32 :=
  match entry.storage with
  | .function _ code => some code
  | _ => none

/-- The record of the variable table with the code of a function further back. -/
def Entry.moved (base : Nat) (entry : Entry) : Entry :=
  match entry.storage with
  | .function params code =>
      { entry with storage := .function params (code + UInt32.ofNat base) }
  | _ => entry

@[simp] theorem Entry.moved_ty (base : Nat) (entry : Entry) : (entry.moved base).ty = entry.ty := by
  rw [moved]
  split <;> rfl

theorem toNat_add_ofNat {base : Nat} {word : UInt32} (fits : base + word.toNat < 2 ^ 32) :
    (word + UInt32.ofNat base).toNat = word.toNat + base := by
  rw [UInt32.toNat_add, UInt32.toNat_ofNat']
  omega

namespace Machine

def moved (base : Nat) (m : Machine) : Machine :=
  { m with
    ip := m.ip + base
    frames := m.frames.map fun frame => { frame with resume := frame.resume + base } }

/-- What a part of a step gives, with the machine that it leaves moved. -/
def movedResult {α : Type} (base : Nat) :
    EStateM.Result Fault Machine α → EStateM.Result Fault Machine α
  | .ok a m => .ok a (m.moved base)
  | .error fault m => .error fault (m.moved base)

variable {base : Nat} {m : Machine}

@[simp] theorem moved_stack (base : Nat) (m : Machine) : (m.moved base).stack = m.stack := rfl

@[simp] theorem moved_statics (base : Nat) (m : Machine) : (m.moved base).statics = m.statics := rfl

@[simp] theorem moved_slots (base : Nat) (m : Machine) : (m.moved base).slots = m.slots := rfl

@[simp] theorem moved_frames_size (base : Nat) (m : Machine) :
    (m.moved base).frames.size = m.frames.size := Array.size_map

theorem moved_back? (base : Nat) (m : Machine) :
    (m.moved base).frames.back? =
      m.frames.back?.map fun frame => { frame with resume := frame.resume + base } :=
  Array.back?_map

/-- Changes of the cells of a frame do not depend on where it resumes. -/
theorem moved_modify (base frame : Nat) (m : Machine)
    (change : List (UInt32 × Value) → List (UInt32 × Value)) :
    (m.moved base).frames.modify frame (fun f => { f with cells := change f.cells }) =
      (moved base { m with
        frames := m.frames.modify frame fun f => { f with cells := change f.cells } }).frames := by
  apply Array.ext_getElem?
  intro position
  simp only [moved, Array.getElem?_modify, Array.getElem?_map]
  split <;> cases m.frames[position]? <;> rfl

end Machine

namespace Action

open Machine

variable {α β : Type} {base : Nat}

/-- On a moved machine the second action does what the first one does, moved. -/
def Follows (base : Nat) (x y : Action α) : Prop :=
  ∀ m, y (m.moved base) = movedResult base (x m)

namespace Follows

variable {x y : Action α} {f g : α → Action β}

theorem pure (a : α) : Follows base (Pure.pure a : Action α) (Pure.pure a) :=
  fun _ => rfl

theorem throw (fault : Fault) :
    Follows base (MonadExcept.throw fault : Action α) (MonadExcept.throw fault) :=
  fun _ => rfl

theorem bind (first : Follows base x y) (second : ∀ a, Follows base (f a) (g a)) :
    Follows base (x >>= f) (y >>= g) := by
  intro m
  change EStateM.bind y g (m.moved base) = movedResult base (EStateM.bind x f m)
  rw [EStateM.bind, EStateM.bind, first m]
  cases x m with
  | ok a m' => exact second a m'
  | error fault m' => rfl

theorem seq {y' : Action β} {x' : Action β} (first : Follows base x y)
    (second : Follows base x' y') : Follows base (x >>= fun _ => x') (y >>= fun _ => y') :=
  first.bind fun _ => second

theorem ofExcept (result : Except Fault α) :
    Follows base (Edit.ofExcept result) (Edit.ofExcept result) := by
  cases result <;> exact fun _ => rfl

end Follows

theorem push_follows (operand : Operand) : Follows base (push operand) (push operand) := by
  intro m
  by_cases room : m.stack.size < stackLimit
  · simp only [push, moved_stack, room, if_true]
    rfl
  · simp only [push, moved_stack, room, if_false]
    rfl

theorem pop_follows : Follows base pop pop := by
  intro m
  simp only [pop, moved_stack]
  cases m.stack.back? <;> rfl

theorem dynamicLocation_follows (index : UInt32) :
    Follows base (dynamicLocation index) (dynamicLocation index) := by
  intro m
  simp only [dynamicLocation, moved_back?, moved_slots, moved_frames_size]
  cases m.frames.back? with
  | none => rfl
  | some frame =>
      cases (m.slots[index.toNat]?).join with
      | none => rfl
      | some slot =>
          simp only [Option.map_some]
          cases frame.cells[slot]? with
          | none => rfl
          | some cell =>
              by_cases owned : cell.1 = index
              · simp only [owned, if_true]
                rfl
              · simp only [owned, if_false]
                rfl

theorem editCell_follows (location : Location) (edit : Edit Value β) :
    Follows base (editCell location edit) (editCell location edit) := by
  intro m
  cases location with
  | static index =>
      simp only [editCell, moved_statics]
      cases m.statics[index]? with
      | none => rfl
      | some value =>
          simp only
          cases edit value <;> rfl
  | frame frame slot =>
      have found : ((m.moved base).frames[frame]?.bind fun f => f.cells[slot]?) =
          m.frames[frame]?.bind fun f => f.cells[slot]? := by
        simp only [moved, Array.getElem?_map]
        cases m.frames[frame]? <;> rfl
      have changed (cell : UInt32 × Value) : (m.moved base).frames.modify frame
            (fun f => { f with cells := f.cells.set slot cell }) =
          (moved base { m with
            frames := m.frames.modify frame fun f =>
              { f with cells := f.cells.set slot cell } }).frames :=
        moved_modify base frame m fun cells => cells.set slot cell
      simp only [editCell, found]
      cases m.frames[frame]?.bind fun f => f.cells[slot]? with
      | none => rfl
      | some cell =>
          simp only [changed]
          cases edit cell.2 <;> rfl

theorem editAddress_follows (address : Address) (edit : Edit Value β) :
    Follows base (editAddress address edit) (editAddress address edit) :=
  editCell_follows address.root _

theorem popValue_follows : Follows base popValue popValue := by
  apply pop_follows.bind
  intro operand
  cases operand with
  | value v => exact .pure v
  | address address => exact editAddress_follows address get

theorem allocate_follows (index : UInt32) (value : Value) :
    Follows base (allocate index value) (allocate index value) := by
  intro m
  have changed : (m.moved base).frames.modify (m.frames.size - 1)
        (fun f => { f with cells := f.cells ++ [(index, value)] }) =
      (moved base { m with
        frames := m.frames.modify (m.frames.size - 1) fun f =>
          { f with cells := f.cells ++ [(index, value)] } }).frames :=
    moved_modify base (m.frames.size - 1) m fun cells => cells ++ [(index, value)]
  simp only [allocate, moved_back?, moved_frames_size, moved_slots, changed]
  cases m.frames.back? with
  | none => rfl
  | some frame =>
      simp only [Option.map_some]
      by_cases listed : index.toNat < m.slots.length
      · simp only [listed, if_true]
        rfl
      · simp only [listed, if_false]
        rfl

theorem popIndexes_follows (count : Nat) : Follows base (popIndexes count) (popIndexes count) := by
  induction count with
  | zero => exact .pure []
  | succ count induction =>
      exact popValue_follows.bind fun last => induction.bind fun front => .pure (front ++ [last])

theorem indexAddress_follows (count : UInt8) :
    Follows base (indexAddress count) (indexAddress count) := by
  apply (popIndexes_follows count.toNat).bind
  intro indexes
  apply pop_follows.bind
  intro operand
  cases operand with
  | value v => exact .throw _
  | address address =>
      exact (editAddress_follows address _).bind fun key => push_follows _

theorem assign_follows (op : Opcode) : Follows base (assign op) (assign op) := by
  apply popValue_follows.bind
  intro value
  apply pop_follows.bind
  intro operand
  cases operand with
  | value v => exact .throw _
  | address address => exact editAddress_follows address _

theorem binary_follows (operator : Value → Value → Except Fault Value) :
    Follows base (binary operator) (binary operator) :=
  popValue_follows.bind fun rhs => popValue_follows.bind fun lhs =>
    (Follows.ofExcept (operator lhs rhs)).bind fun v => push_follows (.value v)

theorem setIp_follows (ip : Nat) : Follows base (setIp ip) (setIp (ip + base)) :=
  fun _ => rfl

theorem entry_follows {table : List Entry} {index : UInt32} {f g : Entry → Action α}
    (known : ∀ entry, table[index.toNat]? = some entry →
      Follows base (f entry) (g (entry.moved base))) :
    Follows base (entry table index >>= f) (entry (table.map (Entry.moved base)) index >>= g) := by
  intro m
  simp only [entry, List.getElem?_map]
  cases found : table[index.toNat]? with
  | none => rfl
  | some entry => exact known entry found m

/-- Functions stay within the range of addresses when they are moved. -/
def Fits (base : Nat) (table : List Entry) : Prop :=
  ∀ entry ∈ table, ∀ code, entry.code? = some code → base + code.toNat < 2 ^ 32

variable {table : List Entry}

theorem call_follows (fits : Fits base table) (index : UInt32) :
    Follows base (call table index) (call (table.map (Entry.moved base)) index) := by
  apply entry_follows
  intro entry found m
  cases storage : entry.storage with
  | data | ddata =>
      simp only [Entry.moved, storage]
      rfl
  | function params code =>
      have start : (code + UInt32.ofNat base).toNat = code.toNat + base :=
        toNat_add_ofNat (fits entry (List.mem_of_getElem? found) code
          (by rw [Entry.code?, storage]))
      simp only [Entry.moved, storage, start]
      change (if (m.moved base).frames.size < frameLimit then _ else _ : Action Unit) _ =
        movedResult base ((if m.frames.size < frameLimit then _ else _ : Action Unit) m)
      rw [moved_frames_size]
      split
      · have pushed : (m.moved base).frames.push { resume := m.ip + base, cells := [] } =
            (m.frames.push { resume := m.ip, cells := [] }).map
              fun frame => { frame with resume := frame.resume + base } := by
          rw [Array.map_push]
          rfl
        change EStateM.Result.ok () { m.moved base with
          ip := code.toNat + base
          frames := (m.moved base).frames.push { resume := m.ip + base, cells := [] } } = _
        rw [pushed]
        rfl
      · rfl

theorem ret_follows (index : UInt32) : Follows base (ret index) (ret index) := by
  intro m
  have located := (dynamicLocation_follows index : Follows base _ _) m
  cases back : m.frames.back? with
  | none =>
      have back' : (m.moved base).frames.back? = none := by rw [moved_back?, back]; rfl
      simp only [ret, bind, EStateM.bind, Edit.get_apply, back, back']
      rfl
  | some frame =>
      have back' : (m.moved base).frames.back? =
          some { frame with resume := frame.resume + base } := by rw [moved_back?, back]; rfl
      simp only [ret, bind, EStateM.bind, Edit.get_apply, back, back', located]
      cases dynamicLocation index m with
      | error fault m' => rfl
      | ok location m' =>
          simp only [movedResult]
          cases location with
          | static _ => rfl
          | frame _ slot =>
              simp only
              cases frame.cells[slot]? with
              | none => rfl
              | some cell =>
                  have popped : (m.moved base).frames.pop =
                      m.frames.pop.map fun frame => { frame with resume := frame.resume + base } :=
                    Array.map_pop.symm
                  simp only [popped]
                  exact push_follows (.value cell.2)
                    { m with ip := frame.resume, frames := m.frames.pop }

theorem syscall_follows (index : UInt32) (name : String) :
    Follows base (syscall index name) (syscall index name) := by
  cases known : Builtin.ofName? name with
  | none =>
      simp only [syscall, known]
      exact .throw _
  | some builtin =>
      simp only [syscall, known]
      exact (dynamicLocation_follows index).bind fun location =>
        (editCell_follows location get).bind fun argument =>
          (Follows.ofExcept (builtin.call argument)).bind fun v => push_follows (.value v)

theorem initVar_follows (index : UInt32) :
    Follows base (initVar table index) (initVar (table.map (Entry.moved base)) index) := by
  apply entry_follows
  intro entry found
  rw [Entry.moved_ty]
  cases storage : entry.storage with
  | data =>
      simp only [Entry.moved, storage]
      exact (Follows.pure _).bind fun location => editCell_follows location _
  | ddata =>
      simp only [Entry.moved, storage]
      exact (dynamicLocation_follows index).bind fun location => editCell_follows location _
  | function params code =>
      simp only [Entry.moved, storage]
      exact (Follows.throw _).bind fun location => editCell_follows location _

theorem putAddr_follows (index : UInt32) :
    Follows base (putAddr table index) (putAddr (table.map (Entry.moved base)) index) := by
  apply entry_follows
  intro entry found
  cases storage : entry.storage with
  | data =>
      simp only [Entry.moved, storage]
      exact (Follows.pure _).bind fun location => push_follows _
  | ddata | function params code =>
      simp only [Entry.moved, storage]
      exact (dynamicLocation_follows index).bind fun location => push_follows _

theorem allocVars_follows (index : UInt32) :
    Follows base (allocVars table index) (allocVars (table.map (Entry.moved base)) index) := by
  apply entry_follows
  intro entry found
  rw [Entry.moved_ty]
  apply popValue_follows.bind
  intro argument
  split
  · exact allocate_follows index _
  · exact .throw _

theorem putMemberAddr_follows : Follows base putMemberAddr putMemberAddr := by
  intro m
  simp only [putMemberAddr, bind, EStateM.bind, Edit.get_apply, moved_stack]
  rcases m.stack.back? with _ | operand
  · rfl
  · cases operand <;> rfl

theorem jumpIfFalse_follows {target : UInt32} (fits : base + target.toNat < 2 ^ 32) :
    Follows base (jumpIfFalse target) (jumpIfFalse (target + UInt32.ofNat base)) := by
  apply popValue_follows.bind
  intro v
  split
  · exact .pure ()
  · rw [toNat_add_ofNat fits]
    exact setIp_follows target.toNat
  · exact .throw _

/-- The moved instruction does on a moved machine what the instruction does, moved. -/
theorem execute_follows {i : Instruction} (functions : Fits base table)
    (fits : ∀ target, i.target? = some target → base + target.toNat < 2 ^ 32) :
    Follows base (execute table i) (execute (table.map (Entry.moved base)) (i.shift base)) := by
  have running {x y : Action Unit} (follows : Follows base x y) :
      Follows base (do x; Pure.pure Progress.running) (do y; Pure.pure Progress.running) :=
    follows.seq (.pure _)
  cases i with
  | nop => exact .pure _
  | stop => exact .pure _
  | putAddr index => exact running (putAddr_follows index)
  | putDAddr index =>
      exact (dynamicLocation_follows index).bind fun location => running (push_follows _)
  | putMemberAddr member => exact running putMemberAddr_follows
  | putIndAddr count => exact running (indexAddress_follows count)
  | putInt n => exact running (push_follows _)
  | putFloat bits => exact running (push_follows _)
  | putString s => exact running (push_follows _)
  | putBoolean b => exact running (push_follows _)
  | assign update => exact running (assign_follows _)
  | compare relation => exact running (binary_follows _)
  | arith operation => exact running (binary_follows _)
  | neg =>
      exact popValue_follows.bind fun v => (Follows.ofExcept v.neg).bind fun v' =>
        running (push_follows _)
  | jumpIfFalse target => exact running (jumpIfFalse_follows (fits target rfl))
  | jump target =>
      have follows : Follows base _ _ := setIp_follows target.toNat
      rw [← toNat_add_ofNat (fits target rfl)] at follows
      exact running follows
  | call index => exact running (call_follows functions index)
  | ret index => exact running (ret_follows index)
  | syscall index name => exact running (syscall_follows index name)
  | initVar index => exact running (initVar_follows index)
  | allocVar index =>
      apply entry_follows
      intro entry found
      rw [Entry.moved_ty]
      exact running (allocate_follows index _)
  | allocVars index => exact running (allocVars_follows index)

end Action

end StackScript
