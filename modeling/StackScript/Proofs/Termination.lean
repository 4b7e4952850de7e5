import StackScript.Proofs.Soundness

namespace StackScript

/-! Every run of a compiled program ends: control only moves forward in a body, and the frames bound
how deep calls can be. -/

/-- What is left to do at places in the code, the active one first: a call below the limit of frames
may go through the code once more for each place that it goes forward. -/
def workAt (length : Nat) : List Nat → Nat
  | [] => 0
  | place :: callers =>
      (length - place) * (length + 1) ^ (Machine.frameLimit - callers.length) +
        workAt length callers

def Activity.work (unit : CodeUnit) (a : Activity) : Nat :=
  workAt unit.code.length (a.ip :: a.waiting.map Pending.resume)

variable {unit : CodeUnit}

theorem workAt_forward {length place next : Nat} (callers : List Nat) (inside : place < length)
    (later : place < next) : workAt length (next :: callers) < workAt length (place :: callers) := by
  have power : 0 < (length + 1) ^ (Machine.frameLimit - callers.length) :=
    Nat.pow_pos (Nat.succ_pos length)
  have closer : length - next < length - place := by omega
  exact Nat.add_lt_add_right (Nat.mul_lt_mul_of_pos_right closer power) _

/-- A call leaves less to do: its caller goes on behind it, and the new frame counts for less than
one place of the caller. -/
theorem workAt_call {length place resume start : Nat} {callers : List Nat}
    (inside : place < length) (later : place < resume)
    (room : callers.length < Machine.frameLimit) :
    workAt length (start :: resume :: callers) < workAt length (place :: callers) := by
  obtain ⟨depth, deeper⟩ : ∃ depth, Machine.frameLimit - callers.length = depth + 1 :=
    ⟨Machine.frameLimit - callers.length - 1, by omega⟩
  have inner : Machine.frameLimit - (resume :: callers).length = depth := by
    simp only [List.length_cons]
    omega
  have power : 0 < (length + 1) ^ depth := Nat.pow_pos (Nat.succ_pos length)
  have entered : (length - start) * (length + 1) ^ depth < (length + 1) ^ (depth + 1) := by
    rw [Nat.pow_succ, Nat.mul_comm _ (length + 1)]
    exact Nat.mul_lt_mul_of_pos_right (by omega) power
  have resumed : (length - resume) * (length + 1) ^ (depth + 1) + (length + 1) ^ (depth + 1) ≤
      (length - place) * (length + 1) ^ (depth + 1) := by
    rw [← Nat.succ_mul]
    exact Nat.mul_le_mul_right _ (by omega)
  simp only [workAt, inner, deeper]
  omega

theorem workAt_return {length place : Nat} (callers : List Nat) (inside : place < length) :
    workAt length callers < workAt length (place :: callers) := by
  have power : 0 < (length + 1) ^ (Machine.frameLimit - callers.length) :=
    Nat.pow_pos (Nat.succ_pos length)
  exact Nat.lt_add_of_pos_left (Nat.mul_pos (Nat.sub_pos_of_lt inside) power)

theorem Activity.Moves.work_lt {a b : Activity} (moves : a.Moves unit b) :
    b.work unit < a.work unit := by
  cases moves with
  | forward decoded stays later =>
      exact workAt_forward _ (CodeUnit.lt_length_of_instructionAt? decoded) later
  | enter decoded found storage room split all =>
      have later := Nat.lt_add_of_pos_right (n := a.ip) (Instruction.decode?_width_pos decoded)
      exact workAt_call (CodeUnit.lt_length_of_instructionAt? decoded) later
        (by simpa using room)
  | leave decoded active found typed empty called =>
      have left := workAt_return (a.waiting.map Pending.resume)
        (CodeUnit.lt_length_of_instructionAt? decoded)
      rw [called] at left
      rwa [Activity.work, Activity.work, called]

theorem Configured.ends {a : Activity} {m : Machine} (configured : Configured unit unit.Stops a m)
    (linked : unit.Linked) {steps : Nat} (enough : a.work unit < steps) :
    (Machine.runFor unit steps m).1 ≠ .running := by
  induction steps generalizing a m with
  | zero => exact absurd enough (Nat.not_lt_zero _)
  | succ steps induction =>
      have step := configured.step_stops linked
      rw [Machine.runFor]
      cases stepped : Machine.step unit m with
      | ok progress next =>
          rw [stepped] at step
          cases progress with
          | running =>
              obtain ⟨b, configured', moves⟩ := step
              exact induction configured' (by have := moves.work_lt; omega)
          | stopped => exact Status.noConfusion
      | error fault next => exact Status.noConfusion

/-- Every program stops or fails after some number of steps, however its functions call each
other. -/
theorem Builds.terminates {source : String} (builds : Builds source unit) :
    ∃ steps, (Machine.runFor unit steps (Machine.initial unit.table)).1 = .stopped ∨
      ∃ fault, (Machine.runFor unit steps (Machine.initial unit.table)).1 = .failed fault := by
  refine ⟨Activity.start.work unit + 1, ?_⟩
  have ended := builds.configured.ends builds.linked (Nat.lt_succ_self _)
  cases status : (Machine.runFor unit (Activity.start.work unit + 1)
      (Machine.initial unit.table)).1 with
  | running => exact absurd status ended
  | stopped => exact .inl rfl
  | failed fault => exact .inr ⟨fault, rfl⟩

theorem endless_recursion_terminates :
    ∃ steps,
      (Machine.runFor (compile "function f(int n) of int { f = f(n) } int r r = f(1)").unit steps
        (Machine.initial
          (compile "function f(int n) of int { f = f(n) } int r r = f(1)").unit.table)).1 =
        .stopped ∨
      ∃ fault,
        (Machine.runFor (compile "function f(int n) of int { f = f(n) } int r r = f(1)").unit steps
          (Machine.initial
            (compile "function f(int n) of int { f = f(n) } int r r = f(1)").unit.table)).1 =
          .failed fault := by
  have builds : Builds "function f(int n) of int { f = f(n) } int r r = f(1)"
      (compile "function f(int n) of int { f = f(n) } int r r = f(1)").unit :=
    .of_compile (by decide +kernel) (by decide +kernel) (by decide +kernel)
  exact builds.terminates

end StackScript
