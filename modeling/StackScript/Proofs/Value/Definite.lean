import StackScript.Proofs.Triple
import StackScript.Proofs.Value.Operators

namespace StackScript

/-! Computations on values never fault for want of a cell. -/

/-- The record that a fault has found no cell for. -/
def Fault.missing? : Fault → Option UInt32
  | .unboundDynamicVariable index => some index
  | _ => none

/-- The result is no fault for want of a cell. -/
def Definite {α : Type} (result : Except Fault α) : Prop :=
  ∀ fault, result = .error fault → fault.missing? = none

/-- A computation that never faults for want of a cell. -/
def Edit.Sure {σ α : Type} (edit : Edit σ α) : Prop :=
  ∀ s fault s', edit s = .error fault s' → fault.missing? = none

section Definite

variable {α β : Type}

theorem Definite.ok (a : α) : Definite (.ok a) :=
  nofun

theorem Definite.error {fault : Fault} (other : fault.missing? = none) :
    Definite (.error fault : Except Fault α) := by
  rintro _ ⟨⟩
  exact other

theorem Definite.map {result : Except Fault α} (definite : Definite result) (f : α → β) :
    Definite (result.map f) := by
  cases result with
  | ok a => exact .ok (f a)
  | error fault => exact .error (definite fault rfl)

theorem Definite.bind {result : Except Fault α} {f : α → Except Fault β}
    (first : Definite result) (second : ∀ a, Definite (f a)) : Definite (result >>= f) := by
  cases result with
  | ok a => exact second a
  | error fault => exact .error (first fault rfl)

end Definite

namespace Edit.Sure

variable {σ α β : Type} {x : Edit σ α}

theorem meets (sure : x.Sure) :
    Meets (fun _ => True) x (fun _ _ => True) (fun fault _ => fault.missing? = none) := by
  intro s _
  cases run : x s with
  | ok a s' => trivial
  | error fault s' => exact sure s fault s' run

theorem pure (a : α) : Sure (Pure.pure a : Edit σ α) :=
  nofun

theorem get : Sure (MonadState.get : Edit σ σ) :=
  nofun

theorem set (s : σ) : Sure (MonadStateOf.set s : Edit σ PUnit) :=
  nofun

theorem throw {fault : Fault} (other : fault.missing? = none) :
    Sure (MonadExcept.throw fault : Edit σ α) := by
  rintro s _ _ ⟨⟩
  exact other

theorem bind {f : α → Edit σ β} (first : x.Sure) (second : ∀ a, (f a).Sure) : (x >>= f).Sure := by
  intro s fault s' run
  change EStateM.bind x f s = _ at run
  rw [EStateM.bind] at run
  split at run
  · exact second _ _ _ _ run
  · rename_i failed
    cases run
    exact first _ _ _ failed

theorem ofExcept {result : Except Fault α} (definite : Definite result) :
    Sure (Edit.ofExcept result : Edit σ α) := by
  intro s fault s' run
  cases result with
  | ok a => cases run
  | error fault =>
      cases run
      exact definite fault rfl

theorem atPosition {κ : Type} {edit : Edit α β} (sure : edit.Sure) (position : Nat) :
    Sure (Edit.atPosition position edit : Edit (List (κ × α)) β) := by
  intro cells fault cells' run
  simp only [Edit.atPosition] at run
  split at run
  · cases run
    rfl
  · split at run <;> cases run
    exact sure _ _ _ ‹_›

end Edit.Sure

/-! Values. -/

namespace Sparse

theorem checkKey_definite (a : Sparse Value) (indexes : List Value) :
    Definite (a.checkKey indexes) := by
  unfold checkKey
  split
  · split
    · exact .ok _
    · exact .error rfl
  · exact .error rfl

theorem materialize_sure (indexes : List Value) : (materialize indexes).Sure := by
  intro a fault a' run
  simp only [materialize] at run
  split at run
  · rename_i refused
    cases run
    exact a.checkKey_definite indexes _ refused
  · split at run <;> cases run

theorem editAt_sure {β : Type} {edit : Edit Value β} (sure : edit.Sure) (position : Nat) :
    (editAt position edit).Sure := by
  intro a fault a' run
  simp only [editAt] at run
  split at run
  · cases run
  · rename_i failed
    cases run
    exact sure.atPosition position _ _ _ failed

theorem editElement_sure {β : Type} {edit : Edit Value β} (sure : edit.Sure)
    (indexes : List Value) : (editElement indexes edit).Sure :=
  (materialize_sure indexes).bind (editAt_sure sure)

end Sparse

namespace Value

variable {op : Opcode} {a b : Value}

theorem editArray_sure {β : Type} {edit : Edit (Sparse Value) β} (sure : edit.Sure) :
    (editArray edit).Sure := by
  intro v fault v' run
  cases v with
  | atom a =>
      cases run
      rfl
  | array a =>
      simp only [editArray] at run
      split at run
      · cases run
      · rename_i failed
        cases run
        exact sure _ _ _ failed

theorem editPath_sure {β : Type} {edit : Edit Value β} (sure : edit.Sure) (path : List Key) :
    (editPath edit path).Sure := by
  induction path with
  | nil => exact sure
  | cons key path induction => exact editArray_sure (Sparse.editElement_sure induction _)

theorem addAtoms_definite (a b : Value) : Definite (addAtoms op a b) := by
  unfold addAtoms
  split
  · apply Definite.map
    unfold Atom.add
    split
    · exact .ok _
    · split
      · exact .ok _
      · exact .ok _
      · exact .error rfl
  · exact .error rfl

end Value

namespace Sparse

theorem mergeCells_sure (op : Opcode) {inner : Sparse Value → Edit (Sparse Value) Unit}
    (sure : ∀ b, (inner b).Sure) (cells : List (Key × Value)) :
    (mergeCells op inner cells).Sure := by
  induction cells with
  | nil => exact .pure ()
  | cons cell cells induction =>
      obtain ⟨key, value⟩ := cell
      refine (editElement_sure ?_ _).bind fun _ => induction
      rintro (a | a) fault v' run
      · have added := @Value.addAtoms_definite op (.atom a) value
        simp only at run
        split at run
        · cases run
        · rename_i failed
          cases run
          exact added _ failed
      · cases value with
        | atom b =>
            cases run
            rfl
        | array b => exact Value.editArray_sure (sure b) _ _ _ run

theorem mergeWithin_sure (op : Opcode) (depth : Nat) (other : Sparse Value) :
    (mergeWithin op depth other).Sure := by
  induction depth generalizing other with
  | zero => exact .pure ()
  | succ depth induction =>
      intro target fault target' run
      simp only [mergeWithin] at run
      split at run
      · exact mergeCells_sure op induction _ _ _ _ run
      · cases run
        rfl

end Sparse

namespace Value

variable {op : Opcode} {a b : Value}

theorem add_definite : Definite (add op a b) := by
  unfold add
  split
  · split
    · exact .ok _
    · rename_i failed
      exact .error (Sparse.mergeWithin_sure op _ _ _ _ _ failed)
  · exact addAtoms_definite _ _

theorem sub_definite : Definite (sub op a b) := by
  unfold sub
  split
  · split
    · exact .ok _
    · split
      · exact .ok _
      · exact .ok _
      · exact .error rfl
  all_goals exact .error rfl

theorem mul_definite : Definite (mul op a b) := by
  unfold mul
  split
  · split
    · exact .ok _
    · split
      · exact .ok _
      all_goals exact .error rfl
  all_goals exact .error rfl

theorem div_definite : Definite (div op a b) := by
  unfold div
  split
  · split
    · exact .error rfl
    · exact .ok _
  · split <;> exact .error rfl

theorem neg_definite : Definite a.neg := by
  unfold neg
  split
  · exact .ok _
  · exact .ok _
  · exact .ok _
  · exact .error rfl

theorem atomOrdering_definite (a b : Atom) : Definite (atomOrdering op a b) := by
  unfold atomOrdering
  split
  · exact .ok _
  · exact .ok _
  · exact .ok _
  · split
    · exact .ok _
    · exact .error rfl

theorem compare_definite : Definite (compare op a b) := by
  unfold compare
  split
  · apply (atomOrdering_definite _ _).bind
    intro ordering
    split
    · exact .ok _
    · exact .error rfl
  · split
    · exact .ok _
    · exact .ok _
    · exact .error rfl
  · exact .error rfl

theorem store_sure (value : Value) : (store value).Sure := by
  intro cell fault cell' run
  unfold store at run
  split at run
  · cases run
  · split at run <;> cases run
    rfl
  · split at run <;> cases run
    rfl

theorem update_sure {operator : Value → Except Fault Value}
    (definite : ∀ cell, Definite (operator cell)) : (update operator).Sure := by
  intro cell fault cell' run
  simp only [update] at run
  split at run
  · cases run
  · rename_i failed
    cases run
    exact definite cell _ failed

theorem assign_sure (op : Opcode) (value : Value) : (assign op value).Sure := by
  intro cell fault cell' run
  unfold assign at run
  split at run
  · exact store_sure _ _ _ _ run
  · cases run
    rfl
  · exact editArray_sure (Sparse.mergeWithin_sure op _ _) _ _ _ run
  · exact update_sure (fun _ => add_definite) _ _ _ run
  · exact update_sure (fun _ => sub_definite) _ _ _ run
  · exact update_sure (fun _ => mul_definite) _ _ _ run
  · split at run
    · cases run
      rfl
    · exact update_sure (fun _ => div_definite) _ _ _ run
  · exact update_sure (fun _ => div_definite) _ _ _ run
  · cases run
    rfl

end Value

theorem Arithmetic.apply_definite (operation : Arithmetic) (a b : Value) :
    Definite (operation.apply a b) := by
  cases operation with
  | multiply => exact Value.mul_definite
  | divide => exact Value.div_definite
  | add => exact Value.add_definite
  | subtract => exact Value.sub_definite

theorem Builtin.call_definite (builtin : Builtin) (argument : Value) :
    Definite (builtin.call argument) := by
  unfold Builtin.call
  split
  · exact .ok _
  · exact .ok _
  · exact .error rfl
  · exact .error rfl

end StackScript
