import StackScript.Machine.Run
import StackScript.Proofs.Machine.Flow

namespace StackScript

/-! Runs of typed machines. -/

namespace Machine

/-- The machine after so many steps that did not end the run. -/
def After (unit : CodeUnit) (steps : Nat) (m : Machine) : Prop :=
  runFor unit steps (initial unit.table) = (.running, m)

/-- The machine so many steps later, or at the end of the run. -/
def later (unit : CodeUnit) (steps : Nat) (m : Machine) : Machine :=
  (runFor unit steps m).2

variable {unit : CodeUnit}

theorem runFor_later {steps : Nat} {m : Machine} {status : Status}
    (ended : (runFor unit steps m).1 = status) :
    runFor unit steps m = (status, m.later unit steps) :=
  Prod.ext ended rfl

theorem runFor_add {first : Nat} {m m' : Machine}
    (run : runFor unit first m = (.running, m')) (second : Nat) :
    runFor unit (first + second) m = runFor unit second m' := by
  induction first generalizing m with
  | zero =>
      cases run
      rw [Nat.zero_add]
  | succ first induction =>
      rw [Nat.add_right_comm, runFor]
      rw [runFor] at run
      cases stepped : step unit m with
      | ok progress next =>
          rw [stepped] at run
          cases progress with
          | running => exact induction run
          | stopped => cases run
      | error fault next =>
          rw [stepped] at run
          cases run

theorem runFor_one {m m' : Machine} {progress : Progress} (stepped : step unit m = .ok progress m')
    (running : progress = .running) : runFor unit 1 m = (.running, m') := by
  subst running
  rw [runFor, stepped]
  rfl

theorem runFor_succ {steps : Nat} {m m' : Machine} {status : Status}
    (run : runFor unit (steps + 1) m = (status, m')) (running : status = .running) :
    ∃ next, step unit m = .ok .running next ∧ runFor unit steps next = (.running, m') := by
  subst running
  rw [runFor] at run
  cases stepped : step unit m with
  | ok progress next =>
      rw [stepped] at run
      cases progress with
      | running => exact ⟨next, rfl, run⟩
      | stopped => cases run
  | error fault next =>
      rw [stepped] at run
      cases run

theorem runFor_ended {steps limit : Nat} {m m' : Machine} {status : Status}
    (run : runFor unit steps m = (status, m')) (ended : status ≠ .running)
    (enough : steps ≤ limit) : runFor unit limit m = (status, m') := by
  induction steps generalizing limit m with
  | zero =>
      cases run
      exact absurd rfl ended
  | succ steps induction =>
      cases limit with
      | zero => exact absurd enough (Nat.not_succ_le_zero steps)
      | succ limit =>
          rw [runFor] at run ⊢
          cases stepped : step unit m with
          | ok progress next =>
              rw [stepped] at run
              cases progress with
              | running => exact induction run (Nat.le_of_succ_le_succ enough)
              | stopped => exact run
          | error fault next =>
              rw [stepped] at run
              exact run

/-- A run that fails has come to a step that fails. -/
theorem runFor_failed {steps : Nat} {m m' : Machine} {fault : Fault}
    (run : runFor unit steps m = (.failed fault, m')) :
    ∃ t middle, runFor unit t m = (.running, middle) ∧ step unit middle = .error fault m' := by
  induction steps generalizing m with
  | zero => cases run
  | succ steps induction =>
      rw [runFor] at run
      cases stepped : step unit m with
      | ok progress next =>
          rw [stepped] at run
          cases progress with
          | running =>
              obtain ⟨t, middle, front, failed⟩ := induction run
              refine ⟨t + 1, middle, ?_, failed⟩
              rwa [runFor, stepped]
          | stopped => cases run
      | error fault' next =>
          rw [stepped] at run
          cases run
          exact ⟨0, m, rfl, stepped⟩

theorem later_add {first : Nat} {m m' : Machine} (run : runFor unit first m = (.running, m'))
    (second : Nat) : m.later unit (first + second) = m'.later unit second :=
  congrArg Prod.snd (runFor_add run second)

theorem later_step {m m' : Machine} (stepped : step unit m = .ok .running m') (steps : Nat) :
    m.later unit (steps + 1) = m'.later unit steps := by
  rw [Nat.add_comm, later_add (runFor_one stepped rfl)]

theorem After.add {start steps : Nat} {m m' : Machine} (after : After unit start m)
    (run : runFor unit steps m = (.running, m')) : After unit (start + steps) m' :=
  (runFor_add after steps).trans run

/-- The machine that a step leaves, whether the run goes on, stops or fails there. -/
def next (unit : CodeUnit) (m : Machine) : Machine :=
  ((step unit).outcome m).2

theorem next_eq (m : Machine) : (runFor unit 1 m).2 = m.next unit := by
  rw [runFor, next, Edit.outcome]
  cases step unit m with
  | ok progress m' => cases progress <;> rfl
  | error fault m' => rfl

theorem later_succ {steps : Nat} {m m' : Machine} (run : runFor unit steps m = (.running, m')) :
    m.later unit (steps + 1) = m'.next unit := by
  rw [later, runFor_add run, next_eq]

theorem later_ended {steps : Nat} {m : Machine} (ended : (runFor unit steps m).1 ≠ .running) :
    m.later unit (steps + 1) = m.later unit steps := by
  rw [later, runFor_ended (runFor_later rfl) ended (Nat.le_succ steps)]

theorem runFor_split {first second : Nat} {m m' : Machine}
    (run : runFor unit (first + second) m = (.running, m')) :
    ∃ middle, runFor unit first m = (.running, middle) ∧
      runFor unit second middle = (.running, m') := by
  by_cases running : (runFor unit first m).1 = .running
  · have front := runFor_later running
    exact ⟨_, front, (runFor_add front second).symm.trans run⟩
  · have ended := runFor_ended (runFor_later rfl) running (Nat.le_add_right first second)
    rw [run] at ended
    exact absurd (congrArg Prod.fst ended).symm running

theorem runFor_prefix {steps t : Nat} {m m' : Machine}
    (run : runFor unit steps m = (.running, m')) (bound : t ≤ steps) :
    runFor unit t m = (.running, m.later unit t) := by
  rw [← Nat.add_sub_cancel' bound] at run
  obtain ⟨middle, front, -⟩ := runFor_split run
  exact runFor_later (congrArg Prod.fst front)

end Machine

variable {unit : CodeUnit} {a : Activity} {m : Machine}

theorem Configured.step_stops (configured : Configured unit unit.Stops a m)
    (linked : unit.Linked) :
    match Machine.step unit m with
    | .ok .running m' => ∃ b, Configured unit unit.Stops b m' ∧ a.Moves unit b
    | .ok .stopped _ => True
    | .error fault _ => fault.Possible unit.table := by
  rcases configured.step linked with ⟨-, shapes, ⟨-, width, decoded⟩, -⟩ | meets
  · obtain ⟨layout, shapes, rests, -⟩ := configured
    rw [Machine.step_eq (by rw [rests.ip_eq]; exact decoded)]
    exact trivial
  · rw [StepMeets] at meets
    split
    · rename_i run
      rw [run] at meets
      exact meets
    · trivial
    · rename_i run
      rw [run] at meets
      exact meets

theorem Configured.next (configured : Configured unit unit.Stops a m) (linked : unit.Linked)
    {m' : Machine} (stepped : Machine.step unit m = .ok .running m') :
    ∃ b, Configured unit unit.Stops b m' ∧ a.Moves unit b := by
  have step := configured.step_stops linked
  rwa [stepped] at step

theorem Configured.run {property : Activity → Prop}
    (configured : Configured unit unit.Stops a m) (linked : unit.Linked) (start : property a)
    (preserved : ∀ {a b : Activity}, a.Moves unit b → property a → property b) {steps : Nat}
    {m' : Machine} (run : Machine.runFor unit steps m = (.running, m')) :
    ∃ b, Configured unit unit.Stops b m' ∧ property b := by
  induction steps generalizing a m with
  | zero =>
      cases run
      exact ⟨a, configured, start⟩
  | succ steps induction =>
      obtain ⟨next, stepped, rest⟩ := Machine.runFor_succ run rfl
      obtain ⟨b, configured', moves⟩ := configured.next linked stepped
      exact induction configured' (preserved moves start) rest

theorem Configured.run_fault (configured : Configured unit unit.Stops a m)
    (linked : unit.Linked) {steps : Nat} {fault : Fault} {m' : Machine}
    (run : Machine.runFor unit steps m = (.failed fault, m')) : fault.Possible unit.table := by
  induction steps generalizing a m with
  | zero => cases run
  | succ steps induction =>
      have step := configured.step_stops linked
      rw [Machine.runFor] at run
      cases stepped : Machine.step unit m with
      | ok progress next =>
          rw [stepped] at run step
          cases progress with
          | running =>
              obtain ⟨b, configured', -⟩ := step
              exact induction configured' run
          | stopped => cases run
      | error fault' next =>
          rw [stepped] at run step
          cases run
          exact step

def Activity.start : Activity where
  ip := 0
  owner := none
  operands := []
  waiting := []

theorem initial_typed (table : List Entry) : (Machine.initial table).Typed table where
  statics_length := by simp [Machine.initial]
  statics := by
    intro index entry value found stored
    simp only [Machine.initial, List.getElem?_map, found, Option.map_some, Option.some.injEq]
      at stored
    exact stored ▸ Value.hasTy_default entry.ty
  cells := by simp [Machine.initial]
  slots_length := by simp [Machine.initial]

theorem configured_start {main : Nat → List Shape → Prop} (leads : unit.LeadsTo main 0 []) :
    Configured unit main .start (Machine.initial unit.table) :=
  ⟨[], [], ⟨initial_typed unit.table, rfl, rfl, rfl⟩, .nobody, .nil, leads⟩

end StackScript
