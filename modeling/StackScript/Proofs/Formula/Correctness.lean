import StackScript.Proofs.Formula.Source
import StackScript.Proofs.SingleVariable

namespace StackScript

/-! Compiled formulas give their variables the right values. -/

open Compilation Grammar

namespace Formula

variable {e : Formula} {s : Scalar} {place : Position}

/-- The run of the program for a formula, and the cell of the variable behind it. -/
theorem run_statements {e : Formula} (typed : e.ty? = some (.scalar s))
    (shallow : e.nesting < maxNesting)
    (addressable : (assemble (symbols s place) e.statements).code.length < 2 ^ 32) :
    ∃ m, Machine.runFor (assemble (symbols s place) e.statements) Execution.stepLimit
        (Machine.initial (assemble (symbols s place) e.statements).table) =
        ((if e.eval?.isSome then .stopped else .failed (.divisionByZero .div)), m) ∧
      m.statics[6]? = some (.atom (e.eval?.getD (Atom.default s))) := by
  refine @SingleVariable.run_statements "r" s place e.expr e.listing.width _ ?_ ?_ ?_
  · intro m size stands
    refine evaluates addressable typed stands ?_
    have room := e.room_le
    rw [size]
    simp only [maxNesting] at shallow
    simp only [Machine.stackLimit]
    omega
  · intro a value
    rw [← eval?_ty typed value]
  · have stands := TypedProgram.stands (symbols s place) e.statements
    have listed := SingleVariable.listing_statements "r" s place e.expr
    change Compilation.listing (symbols s place) e.statements = _ at listed
    rw [listed] at stands
    have inside := stands.tail.append_right.append_right.append_left.le_length
    have width : (Machine.assignment 6 e.expr.listing).width = 5 + (e.listing.width + 1) :=
      Machine.width_assignment 6 e.listing
    rw [width] at inside
    change SingleVariable.prologueSize + (5 + (e.listing.width + 1)) ≤ _ at inside
    exact Nat.lt_of_le_of_lt inside (Nat.lt_trans addressable (by decide))

theorem value?_finish {e : Formula} {s : Scalar} {place : Position} {status : Status} {m : Machine}
    {value : Value} (held : m.statics[6]? = some value) :
    (m.finish (assemble (symbols s place) e.statements).table status).value? "0.r" =
      some value :=
  @SingleVariable.value?_finish "r" _ _ _ _ _ _ _ (by decide +kernel) (by decide +kernel) held

/-- What a run makes of a formula: its value ends up in the variable, or a division by zero ends
the run and leaves the default there. -/
def Settles (e : Formula) (s : Scalar) (execution : Execution) : Prop :=
  match e.eval? with
  | some a => execution.status = .stopped ∧ execution.value? "0.r" = some (.atom a)
  | none =>
      execution.status = .failed (.divisionByZero .div) ∧
        execution.value? "0.r" = some (Value.default (.scalar s))

/-- A well-typed formula of any size is refused only as nested too deeply, and not if its height is
at most 30; otherwise the program that declares a variable for it gives it the right value. The
gap is what stands inside of parentheses and behind a minus sign. -/
theorem compiled_settles (e : Formula) {gap : List Char} (blank : ∀ c ∈ gap, c = ' ') {ty : Ty}
    (typed : e.ty? = some ty) :
    ∃ s, ty = .scalar s ∧ s ≠ .str ∧
      match compile (String.ofList (e.source gap s)) with
      | .failure d => d.deepest.cause = .nestingTooDeep ∧ 30 < e.height
      | .success unit => unit.code.length < 2 ^ 32 → e.Settles s (Execution.of unit) := by
  obtain ⟨s, rfl, plain⟩ := exists_scalar typed
  refine ⟨s, rfl, plain, ?_⟩
  have compiled := compile_source blank typed
  cases outcome : compile (String.ofList (e.source gap s)) with
  | failure d =>
      rw [outcome] at compiled
      have bound := e.nesting_le
      refine ⟨compiled.1, ?_⟩
      have long := compiled.2
      simp only [maxNesting] at long
      omega
  | success unit =>
      rw [outcome] at compiled
      obtain ⟨shallow, place, rfl⟩ := compiled
      intro addressable
      obtain ⟨m, run, held⟩ := run_statements typed shallow addressable
      have value := fun status => @value?_finish e s place status m _ held
      unfold Settles Execution.of Execution.within
      rw [run]
      cases result : e.eval? with
      | none =>
          rw [result] at value
          exact ⟨rfl, value _⟩
      | some a =>
          rw [result] at value
          exact ⟨rfl, value _⟩

theorem chosen_product_settles :
    ∃ e : Formula, e.ty? = some .int ∧
      String.ofList (e.source [] .int) = "int r r = 1 < 2 ? -(3 + 4) * 5 : 6" ∧
      e.Settles .int (Execution.of (compile "int r r = 1 < 2 ? -(3 + 4) * 5 : 6").unit) ∧
      (Execution.of (compile "int r r = 1 < 2 ? -(3 + 4) * 5 : 6").unit).value? "0.r" =
        some (.int (-35)) := by
  obtain ⟨e, typed, spelled, value, low⟩ : ∃ e : Formula, e.ty? = some .int ∧
      String.ofList (e.source [] .int) = "int r r = 1 < 2 ? -(3 + 4) * 5 : 6" ∧
      e.eval? = some (.int (-35)) ∧ e.height ≤ 30 :=
    ⟨choice
      (binary (.relation .less) (number 1 (by decide)) (number 2 (by decide)))
      (binary (.arith .multiply)
        (signed .minus (binary (.arith .add) (number 3 (by decide)) (number 4 (by decide))))
        (number 5 (by decide)))
      (number 6 (by decide)), rfl, by decide +kernel, rfl, by decide⟩
  have addressable :
      (compile "int r r = 1 < 2 ? -(3 + 4) * 5 : 6").unit.code.length < 2 ^ 32 := by
    decide +kernel
  obtain ⟨s, same, -, settles⟩ := e.compiled_settles (List.forall_mem_nil _) typed
  cases same
  refine ⟨e, typed, spelled, ?_⟩
  rw [spelled] at settles
  cases outcome : compile "int r r = 1 < 2 ? -(3 + 4) * 5 : 6" with
  | failure d =>
      rw [outcome] at settles
      exact absurd low (Nat.not_le_of_lt settles.2)
  | success unit =>
      rw [outcome] at settles addressable
      have settled := settles addressable
      refine ⟨settled, ?_⟩
      rw [Settles, value] at settled
      exact settled.2

end Formula

end StackScript
