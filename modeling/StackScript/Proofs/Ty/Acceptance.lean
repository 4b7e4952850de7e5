import Mathlib.Data.List.Forall2
import StackScript.Ty.Basic

namespace StackScript

/-! Acceptance orders the types, with a float above an int at every position. What a program may
assign or pass is accepted. -/

namespace Scalar

variable {a b c : Scalar}

theorem accepts_iff : a.accepts b = true ↔ a = b ∨ a = .float ∧ b = .int := by
  simp [accepts]

theorem accepts_trans (first : a.accepts b = true) (second : b.accepts c = true) :
    a.accepts c = true := by
  rw [accepts_iff] at *
  rcases first with rfl | ⟨rfl, rfl⟩
  · exact second
  · rcases second with rfl | ⟨impossible, -⟩
    · exact .inr ⟨rfl, rfl⟩
    · cases impossible

theorem accepts_antisymm (first : a.accepts b = true) (second : b.accepts a = true) : a = b := by
  rw [accepts_iff] at first second
  rcases first with same | ⟨rfl, rfl⟩
  · exact same
  · rcases second with same | ⟨impossible, -⟩
    · exact same.symm
    · cases impossible

end Scalar

namespace Ty

variable {a b c : Ty} {front mid back : List Scalar}

theorem acceptsIndex_iff :
    acceptsIndex front back = true ↔
      List.Forall₂ (fun cell value : Scalar => cell.accepts value = true) front back := by
  induction front generalizing back with
  | nil => cases back <;> simp [acceptsIndex]
  | cons s front induction => cases back <;> simp [acceptsIndex, induction]

theorem acceptsIndex_refl (index : List Scalar) : acceptsIndex index index = true := by
  induction index with
  | nil => rfl
  | cons s index induction => simp [acceptsIndex, Scalar.accepts, induction]

theorem acceptsIndex_trans (first : acceptsIndex front mid = true)
    (second : acceptsIndex mid back = true) : acceptsIndex front back = true := by
  rw [acceptsIndex_iff] at *
  induction first generalizing back with
  | nil => exact second
  | cons accepts _ induction =>
      cases second with
      | cons accepts' second =>
          exact .cons (Scalar.accepts_trans accepts accepts') (induction second)

theorem acceptsIndex_antisymm (first : acceptsIndex front back = true)
    (second : acceptsIndex back front = true) : front = back := by
  rw [acceptsIndex_iff] at first second
  induction first with
  | nil => rfl
  | cons accepts _ induction =>
      cases second with
      | cons accepts' second => rw [Scalar.accepts_antisymm accepts accepts', induction second]

theorem accepts_array {index index' : List Scalar} {element element' : Ty} :
    (array index element).accepts (array index' element') = true ↔
      acceptsIndex index index' = true ∧ element.accepts element' = true := by
  rw [accepts, Bool.and_eq_true]

theorem accepts_refl (ty : Ty) : ty.accepts ty = true := by
  induction ty with
  | scalar s => simp [accepts, Scalar.accepts]
  | array index element induction => simp [accepts, acceptsIndex_refl, induction]

theorem accepts_trans (first : a.accepts b = true) (second : b.accepts c = true) :
    a.accepts c = true := by
  induction a generalizing b c with
  | scalar s =>
      cases b with
      | array index' element' => cases first
      | scalar t =>
          cases c with
          | array index'' element'' => cases second
          | scalar u => exact Scalar.accepts_trans first second
  | array index element induction =>
      cases b with
      | scalar t => cases first
      | array index' element' =>
          cases c with
          | scalar u => cases second
          | array index'' element'' =>
              rw [accepts_array] at *
              exact ⟨acceptsIndex_trans first.1 second.1, induction first.2 second.2⟩

theorem accepts_antisymm (first : a.accepts b = true) (second : b.accepts a = true) : a = b := by
  induction a generalizing b with
  | scalar s =>
      cases b with
      | scalar t => rw [Scalar.accepts_antisymm first second]
      | array index' element' => cases first
  | array index element induction =>
      cases b with
      | scalar t => cases first
      | array index' element' =>
          rw [accepts_array] at first second
          rw [acceptsIndex_antisymm first.1 second.1, induction first.2 second.2]

theorem accepts_of_assignable (assignable : a.assignable b = true) : a.accepts b = true := by
  simp only [Ty.assignable, Bool.or_eq_true, Bool.and_eq_true, decide_eq_true_eq] at assignable
  rcases assignable with rfl | ⟨rfl, numeric⟩
  · exact accepts_refl a
  · cases b with
    | array index element => cases numeric
    | scalar s =>
        cases s with
        | int | float => rfl
        | str | bool => cases numeric

end Ty

theorem callable_iff {params args : List Ty} :
    Ty.callable params args = true ↔
      List.Forall₂ (fun param arg : Ty => param.assignable arg = true) params args := by
  induction params generalizing args with
  | nil => cases args <;> simp [Ty.callable]
  | cons param params induction => cases args <;> simp [Ty.callable, induction]

end StackScript
