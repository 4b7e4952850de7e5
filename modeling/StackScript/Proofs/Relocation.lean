import StackScript.Proofs.Addresses
import StackScript.Proofs.Code.Places
import StackScript.Proofs.Machine.Translation

namespace StackScript

/-! Joining units keeps what the second one does: its code, started behind the code of the first
one, goes step by step as it does alone. The units may come from anywhere. -/

namespace CodeUnit

/-- The code addresses of a unit: where its jumps go and where its functions start. -/
def addresses (unit : CodeUnit) (places : List (Nat × Instruction)) : List UInt32 :=
  places.filterMap (fun place => place.2.target?) ++ unit.table.filterMap Entry.code?

/-- A place where an instruction starts, or a place past the code. -/
def IsBoundary (unit : CodeUnit) (places : List (Nat × Instruction)) (place : Nat) : Prop :=
  place ∈ places.map Prod.fst ∨ unit.size ≤ place

instance (unit : CodeUnit) (places : List (Nat × Instruction)) (place : Nat) :
    Decidable (unit.IsBoundary places place) :=
  inferInstanceAs (Decidable (_ ∨ _))

/-- The code decodes from one end to the other, the jumps are listed once each and nothing else is,
and no code address points into an instruction. -/
structure Relocatable (unit : CodeUnit) (places : List (Nat × Instruction)) : Prop where
  linear : unit.instructions? = some places
  jumps : unit.jumps.Perm (operandOffsets places)
  boundaries : ∀ address ∈ unit.addresses places, unit.IsBoundary places address.toNat

/-- A unit joined to another one, with its own variable table. -/
def behind (unit left : CodeUnit) : CodeUnit :=
  { left ++ unit with table := unit.table.map (Entry.moved left.size) }

end CodeUnit

namespace Machine

/-- Control stands on places with a property, in the active body and in those that wait. -/
structure StandsOn (place : Nat → Prop) (m : Machine) : Prop where
  ip : place m.ip
  resumes : ∀ outline ∈ m.layout, place outline.1

variable {table : List Entry} {m m' : Machine} {i : Instruction} {place : Nat → Prop}

theorem StandsOn.layout_eq (stands : m.StandsOn place) (ip : place m'.ip)
    (same : m'.layout = m.layout) : m'.StandsOn place where
  ip := ip
  resumes := by
    rw [same]
    exact stands.resumes

theorem layout_pop (m : Machine) (ip : Nat) (stack : Array Operand) :
    layout { m with ip, stack, frames := m.frames.pop } = m.layout.dropLast := by
  simp [layout, List.map_dropLast]

theorem StandsOn.leave {frame : Frame} (stands : m.StandsOn place)
    (back : m.frames.back? = some frame) (stack : Array Operand) :
    StandsOn place { m with ip := frame.resume, stack, frames := m.frames.pop } where
  ip := by
    apply stands.resumes frame.outline
    rw [layout]
    apply List.mem_map_of_mem
    rw [Array.back?_eq_getElem?] at back
    rw [Array.mem_toList_iff]
    exact Array.mem_of_getElem? back
  resumes := by
    rw [layout_pop]
    exact fun outline member => stands.resumes outline (List.dropLast_subset _ member)

/-- Control goes where the instruction is followed by, where it jumps, where a function starts, or
where a frame resumes. -/
theorem Does.standsOn (does : m.Does table i m') (stands : m.StandsOn place)
    (targets : ∀ target, i.target? = some target → place target.toNat)
    (functions : ∀ entry ∈ table, ∀ code, entry.code? = some code → place code.toNat) :
    m'.StandsOn place := by
  cases does with
  | stays plain steady => exact stands.layout_eq (steady.ip_eq ▸ stands.ip) steady.layout_eq
  | jumps named steady =>
      exact stands.layout_eq (steady.ip_eq ▸ targets _ named) steady.layout_eq
  | points named belongs active => exact stands.layout_eq stands.ip rfl
  | @allocates _ index value m' named steady size active listed =>
      have stays : m'.StandsOn place :=
        stands.layout_eq (steady.ip_eq ▸ stands.ip) steady.layout_eq
      refine ⟨stays.ip, ?_⟩
      intro outline member
      rw [layout_allocated] at member
      obtain ⟨frame, found⟩ := List.mem_iff_getElem?.mp member
      rw [List.getElem?_modify] at found
      cases old : m'.layout[frame]? with
      | none => simp [old] at found
      | some before =>
          have known := stays.resumes before (List.mem_of_getElem? old)
          rw [old] at found
          split at found <;> cases found <;> exact known
  | @enters index code entry params found storage =>
      refine ⟨functions entry (List.mem_of_getElem? found) code (by rw [Entry.code?, storage]), ?_⟩
      intro outline member
      simp only [layout, Array.toList_push, List.map_append, List.mem_append, List.map_cons,
        List.map_nil, List.mem_singleton] at member
      rcases member with old | rfl
      · exact stands.resumes outline old
      · exact stands.ip
  | leaves back => exact stands.leave back _

theorem Fails.standsOn (fails : m.Fails i m') (stands : m.StandsOn place) :
    m'.StandsOn place := by
  cases fails with
  | stays steady => exact stands.layout_eq (steady.ip_eq ▸ stands.ip) steady.layout_eq
  | leaves back => exact stands.leave back _

end Machine

namespace CodeUnit.Relocatable

open Machine

variable {unit left : CodeUnit} {places : List (Nat × Instruction)} {m : Machine}

theorem chunked (relocatable : unit.Relocatable places) : Chunked 0 unit.code places :=
  instructions?_eq_some_iff.mp relocatable.linear

/-- An instruction of the unit stands behind the other unit, and is a moved one there. -/
theorem decoded (relocatable : unit.Relocatable places) (left : CodeUnit) {place : Nat}
    {i : Instruction} (member : (place, i) ∈ places) :
    ∃ width, unit.instructionAt? place = some (i, width) ∧
      (unit.behind left).instructionAt? (place + left.size) = some (i.shift left.size, width) ∧
      unit.IsBoundary places (place + width) := by
  obtain ⟨width, here, there, next⟩ :=
    relocatable.chunked.relocate relocatable.jumps member left.size
  refine ⟨width, here, ?_, next.imp id fun last => Nat.le_of_eq last.symm⟩
  have code : (unit.behind left).code.drop (place + left.size) =
      (relocate left.size unit.code unit.jumps).drop place := by
    rw [Nat.add_comm, ← List.drop_drop]
    exact congrArg (List.drop place) List.drop_left
  rw [instructionAt?, code]
  exact there

theorem targets (relocatable : unit.Relocatable places) {place : Nat} {i : Instruction}
    (member : (place, i) ∈ places) :
    ∀ target, i.target? = some target → unit.IsBoundary places target.toNat := by
  intro target jumps
  apply relocatable.boundaries
  exact List.mem_append_left _ (List.mem_filterMap.mpr ⟨(place, i), member, jumps⟩)

theorem functions (relocatable : unit.Relocatable places) :
    ∀ entry ∈ unit.table, ∀ code, entry.code? = some code →
      unit.IsBoundary places code.toNat := by
  intro entry member code starts
  apply relocatable.boundaries
  exact List.mem_append_right _ (List.mem_filterMap.mpr ⟨entry, member, starts⟩)

theorem start (relocatable : unit.Relocatable places) : unit.IsBoundary places 0 :=
  relocatable.chunked.start.imp id fun none => by simp [size, none]

/-- Control stays on instructions of the unit, or past its end. -/
theorem next (relocatable : unit.Relocatable places) (sound : m.Sound unit.table)
    (stands : m.StandsOn (unit.IsBoundary places)) :
    (m.next unit).StandsOn (unit.IsBoundary places) := by
  have onwards {i : Instruction} {width : Nat} (decoded : unit.instructionAt? m.ip = some (i, width)) :
      (m.ip, i) ∈ places ∧ unit.IsBoundary places (m.ip + width) := by
    rcases stands.ip with member | past
    · obtain ⟨⟨place, j⟩, member, rfl⟩ := List.mem_map.mp member
      obtain ⟨width', here, -, next⟩ := relocatable.decoded .empty member
      cases here.symm.trans decoded
      exact ⟨member, next⟩
    · exact absurd (lt_length_of_instructionAt? decoded) (Nat.not_lt.mpr past)
  have behind {width : Nat} (next : unit.IsBoundary places (m.ip + width)) :
      StandsOn (unit.IsBoundary places) { m with ip := m.ip + width } :=
    ⟨next, stands.resumes⟩
  cases stepped : step unit m with
  | ok progress m' =>
      have left : m.next unit = m' := by simp [Machine.next, Edit.outcome, stepped]
      rw [left]
      rcases (step_does sound stepped).2 with ⟨rfl, -⟩ | ⟨i, width, decoded, does⟩
      · exact stands
      · obtain ⟨member, next⟩ := onwards decoded
        exact does.standsOn (behind next) (relocatable.targets member) relocatable.functions
  | error fault m' =>
      have left : m.next unit = m' := by simp [Machine.next, Edit.outcome, stepped]
      rw [left]
      rcases (step_fails sound stepped).2 with rfl | ⟨i, width, decoded, fails⟩
      · exact stands
      · exact fails.standsOn (behind (onwards decoded).2)

theorem iterate_next (relocatable : unit.Relocatable places) (steps : Nat) :
    ((Machine.next unit)^[steps] (initial unit.table)).Sound unit.table ∧
      ((Machine.next unit)^[steps] (initial unit.table)).StandsOn (unit.IsBoundary places) := by
  induction steps with
  | zero => exact ⟨initial_sound unit.table, relocatable.start, nofun⟩
  | succ steps induction =>
      rw [Function.iterate_succ_apply']
      exact ⟨induction.1.next, relocatable.next induction.1 induction.2⟩

/-- One step over the joined code does to the moved machine what a step of the unit alone does. -/
theorem step_moved (relocatable : unit.Relocatable places)
    (fits : ∀ address ∈ unit.addresses places, left.size + address.toNat < 2 ^ 32)
    (stands : unit.IsBoundary places m.ip) :
    step (unit.behind left) (m.moved left.size) = movedResult left.size (step unit m) := by
  rcases stands with member | past
  · obtain ⟨⟨place, i⟩, member, here⟩ := List.mem_map.mp member
    obtain ⟨width, decoded, there, -⟩ := relocatable.decoded left member
    change place = m.ip at here
    rw [here] at decoded there
    rw [step_eq decoded, step_eq (m := m.moved left.size) there]
    have functions : Action.Fits left.size unit.table := fun entry listed code starts =>
      fits code (List.mem_append_right _ (List.mem_filterMap.mpr ⟨entry, listed, starts⟩))
    have targets : ∀ target, i.target? = some target → left.size + target.toNat < 2 ^ 32 :=
      fun target jumps =>
        fits target (List.mem_append_left _ (List.mem_filterMap.mpr ⟨(place, i), member, jumps⟩))
    have follows := Action.execute_follows functions targets { m with ip := m.ip + width }
    rw [← follows]
    simp only [moved, Nat.add_right_comm m.ip width left.size]
    rfl
  · have ended : unit.code.drop m.ip = [] := List.drop_eq_nil_of_le past
    have length : (unit.behind left).code.length = left.size + unit.size := by
      have joined : (unit.behind left).code =
          left.code ++ relocate left.size unit.code unit.jumps := rfl
      rw [joined, List.length_append, length_relocate]
      rfl
    have ended' : (unit.behind left).code.drop (m.ip + left.size) = [] :=
      List.drop_eq_nil_of_le (by omega)
    have here : step unit m = .ok .stopped m := by simp [step, ended]
    have there : step (unit.behind left) (m.moved left.size) = .ok .stopped (m.moved left.size) := by
      have ip : (m.moved left.size).ip = m.ip + left.size := rfl
      simp [step, ip, ended']
    rw [here, there]
    rfl

end CodeUnit.Relocatable

/-- A machine over some code goes step by step as another one does over code further back, after a
stop or a fault too. -/
structure Simulation (unit there : CodeUnit) (base : Nat) (start start' : Machine) : Prop where
  state : ∀ steps, (Machine.next there)^[steps] start' =
    ((Machine.next unit)^[steps] start).moved base
  step : ∀ steps, Machine.step there ((Machine.next there)^[steps] start') =
    Machine.movedResult base (Machine.step unit ((Machine.next unit)^[steps] start))
  run : ∀ limit, Machine.runFor there limit start' =
    ((Machine.runFor unit limit start).1, (Machine.runFor unit limit start).2.moved base)

namespace Simulation

variable {unit there : CodeUnit} {base : Nat} {start : Machine}

theorem next_moved {m : Machine}
    (stepped : Machine.step there (m.moved base) = Machine.movedResult base (Machine.step unit m)) :
    (m.moved base).next there = (m.next unit).moved base := by
  rw [Machine.next, Machine.next, Edit.outcome, Edit.outcome, stepped]
  cases Machine.step unit m <;> rfl

theorem runFor_moved
    (steps : ∀ steps, Machine.step there (((Machine.next unit)^[steps] start).moved base) =
      Machine.movedResult base (Machine.step unit ((Machine.next unit)^[steps] start)))
    (limit : Nat) : Machine.runFor there limit (start.moved base) =
      ((Machine.runFor unit limit start).1, (Machine.runFor unit limit start).2.moved base) := by
  induction limit generalizing start with
  | zero => rfl
  | succ limit induction =>
      have first := steps 0
      rw [Function.iterate_zero, id_eq] at first
      rw [Machine.runFor, Machine.runFor, first]
      cases stepped : Machine.step unit start with
      | error fault m => rfl
      | ok progress m =>
          cases progress with
          | stopped => rfl
          | running =>
              have next : start.next unit = m := by simp [Machine.next, Edit.outcome, stepped]
              apply induction
              intro n
              have later := steps (n + 1)
              rwa [Function.iterate_succ_apply, next] at later

/-- It is enough that each step agrees along the run of the first machine. -/
theorem of_steps
    (steps : ∀ steps, Machine.step there (((Machine.next unit)^[steps] start).moved base) =
      Machine.movedResult base (Machine.step unit ((Machine.next unit)^[steps] start))) :
    Simulation unit there base start (start.moved base) := by
  have state : ∀ n, (Machine.next there)^[n] (start.moved base) =
      ((Machine.next unit)^[n] start).moved base := by
    intro n
    induction n with
    | zero => rfl
    | succ n induction =>
        rw [Function.iterate_succ_apply', Function.iterate_succ_apply', induction,
          next_moved (steps n)]
  exact ⟨state, fun n => state n ▸ steps n, runFor_moved steps⟩

end Simulation

theorem Machine.moved_initial (base : Nat) (table : List Entry) :
    (initial table).moved base = { initial (table.map (Entry.moved base)) with ip := base } := by
  simp [initial, moved, Function.comp_def]

open CodeUnit in
/-- Behind any unit, a unit whose jumps are all listed does what it does alone. -/
theorem CodeUnit.Relocatable.simulated {unit : CodeUnit} {places : List (Nat × Instruction)}
    (relocatable : unit.Relocatable places) (left : CodeUnit)
    (fits : ∀ address ∈ unit.addresses places, left.size + address.toNat < 2 ^ 32) :
    Simulation unit (unit.behind left) left.size (.initial unit.table)
      { Machine.initial (unit.behind left).table with ip := left.size } := by
  have start := Machine.moved_initial left.size unit.table
  change _ = { Machine.initial (unit.behind left).table with ip := left.size } at start
  rw [← start]
  apply Simulation.of_steps
  intro steps
  exact relocatable.step_moved fits (relocatable.iterate_next steps).2.ip

/-- A program with a choice in a function, behind another program. -/
theorem chosen_call_relocated :
    ∃ unit left places,
      compile "function f(int n) of int { f = n < 1 ? 0 : 7 } int r r = f(1)" = .success unit ∧
      compile "int a a = 1" = .success left ∧ unit.jumps = [133, 147] ∧ left.size = 97 ∧
      unit.Relocatable places ∧
      (∀ address ∈ unit.addresses places, left.size + address.toNat < 2 ^ 32) ∧
      Simulation unit (unit.behind left) left.size (.initial unit.table)
        { Machine.initial (unit.behind left).table with ip := left.size } := by
  generalize same :
    (compile "function f(int n) of int { f = n < 1 ? 0 : 7 } int r r = f(1)").unit = unit
  generalize other : (compile "int a a = 1").unit = left
  -- Decided over the list of addresses, not over all words.
  obtain ⟨jumps, size, boundaries, inside⟩ : unit.jumps = [133, 147] ∧ left.size = 97 ∧
      (unit.addresses (unit.instructions?.getD [])).all (fun address =>
        decide (unit.IsBoundary (unit.instructions?.getD []) address.toNat)) = true ∧
      (unit.addresses (unit.instructions?.getD [])).all (fun address =>
        decide (left.size + address.toNat < 2 ^ 32)) = true := by
    subst same other
    decide +kernel
  have relocatable : unit.Relocatable (unit.instructions?.getD []) := by
    refine ⟨?_, ?_, fun address member =>
      of_decide_eq_true (List.all_eq_true.mp boundaries address member)⟩
    · subst same
      decide +kernel
    · subst same
      decide +kernel
  have fits : ∀ address ∈ unit.addresses (unit.instructions?.getD []),
      left.size + address.toNat < 2 ^ 32 :=
    fun address member => of_decide_eq_true (List.all_eq_true.mp inside address member)
  refine ⟨unit, left, _, ?_, ?_, jumps, size, relocatable, fits, relocatable.simulated left fits⟩
  · exact same ▸ Compilation.eq_success (by decide +kernel)
  · exact other ▸ Compilation.eq_success (by decide +kernel)

end StackScript
