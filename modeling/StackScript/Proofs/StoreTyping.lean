import Mathlib.Logic.Function.Iterate
import StackScript.Proofs.Machine.Changes
import StackScript.Proofs.Machine.Run

namespace StackScript.Machine

/-! The store stays typed whatever the code is: it may come from anywhere, and may be stepped on
after it has stopped or failed. -/

variable {unit : CodeUnit} {m m' : Machine}

theorem initial_sound (table : List Entry) : (initial table).Sound table where
  typed := initial_typed table
  stack := nofun

theorem Sound.next (sound : m.Sound unit.table) : (m.next unit).Sound unit.table := by
  cases stepped : step unit m with
  | ok progress m' =>
      have left : m.next unit = m' := by simp [Machine.next, Edit.outcome, stepped]
      rw [left]
      exact (step_does sound stepped).1
  | error fault m' =>
      have left : m.next unit = m' := by simp [Machine.next, Edit.outcome, stepped]
      rw [left]
      exact (step_fails sound stepped).1

theorem later_sound (unit : CodeUnit) (steps : Nat) :
    ((initial unit.table).later unit steps).Sound unit.table := by
  induction steps with
  | zero => exact initial_sound unit.table
  | succ steps induction =>
      by_cases running : (runFor unit steps (initial unit.table)).1 = .running
      · rw [later_succ (runFor_later running)]
        exact induction.next
      · rw [later_ended running]
        exact induction

theorem After.sound {steps : Nat} (after : After unit steps m) : m.Sound unit.table := by
  have sound := later_sound unit steps
  rwa [later, after] at sound

/-- After any number of steps from the start, every cell has the type of its record at every depth,
and so has every value among the operands its own. -/
theorem iterate_next_sound (unit : CodeUnit) (steps : Nat) :
    ((Machine.next unit)^[steps] (initial unit.table)).Sound unit.table := by
  induction steps with
  | zero => exact initial_sound unit.table
  | succ steps induction =>
      rw [Function.iterate_succ_apply']
      exact induction.next

end StackScript.Machine
