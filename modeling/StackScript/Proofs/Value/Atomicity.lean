import StackScript.Proofs.Value.Preservation

namespace StackScript

/-! An assignment is done as a whole or not at all. What could fail is looked at before the first
element of an array is touched. -/

theorem Update.opcode_of_ofOpcode? {op : Opcode} {u : Update} (known : ofOpcode? op = some u) :
    u.opcode = op := by
  cases op <;> cases known <;> rfl

namespace Value

/-- A success keeps the type of what is edited, at every depth; a fault leaves it as it was. -/
def Atomic {β : Type} (edit : Edit Value β) (cell : Value) : Prop :=
  match edit cell with
  | .ok _ cell' => cell'.WellTyped ∧ cell'.ty = cell.ty
  | .error _ cell' => cell' = cell

variable {op : Opcode} {fault : Fault} {cell cell' v : Value}

theorem store_error (run : store v cell = .error fault cell') : cell' = cell := by
  unfold store at run
  split at run
  · cases run
  · split at run <;> cases run
    rfl
  · split at run <;> cases run
    rfl

theorem update_error {operator : Value → Except Fault Value}
    (run : update operator cell = .error fault cell') : cell' = cell := by
  simp only [update] at run
  split at run <;> cases run
  rfl

/-! An array that is added fits the target or is refused as a whole. -/

section Merge

variable {target source : Sparse Value}

theorem editArray_merge_accepted (op : Opcode) (cellTyped : (array target).WellTyped)
    (typed : (array source).WellTyped) (accepts : target.ty.accepts source.ty = true) :
    ∃ merged, editArray (Sparse.merge op source) (array target) = .ok () (array merged) := by
  obtain ⟨merged, done, -⟩ := Sparse.merge_accepted op (wellTyped_array_iff.mp cellTyped)
    (wellTyped_array_iff.mp typed) accepts
  exact ⟨merged, by simp only [editArray, done]⟩

theorem editArray_merge_refused (op : Opcode) (refuses : target.ty.accepts source.ty = false) :
    editArray (Sparse.merge op source) (array target) =
      .error (.inconsistentArrayDatatypes op) (array target) := by
  simp only [editArray, Sparse.merge_refused op refuses]

theorem editArray_merge_error (cellTyped : (array target).WellTyped)
    (typed : (array source).WellTyped)
    (run : editArray (Sparse.merge op source) (array target) = .error fault cell') :
    cell' = array target := by
  cases accepts : target.ty.accepts source.ty with
  | true =>
      obtain ⟨merged, done⟩ := editArray_merge_accepted op cellTyped typed accepts
      rw [done] at run
      cases run
  | false =>
      rw [editArray_merge_refused op accepts] at run
      cases run
      rfl

end Merge

theorem assign_error (cellTyped : cell.WellTyped) (typed : v.WellTyped)
    (run : assign op v cell = .error fault cell') : cell' = cell := by
  unfold assign at run
  split at run
  · exact store_error run
  · cases run
    rfl
  · exact editArray_merge_error cellTyped typed run
  · exact update_error run
  · exact update_error run
  · exact update_error run
  · split at run
    · cases run
      rfl
    · exact update_error run
  · exact update_error run
  · cases run
    rfl

theorem assign_ok (cellTyped : cell.WellTyped) (typed : v.WellTyped)
    (run : assign op v cell = .ok () cell') : cell'.HasTy cell.ty := by
  cases known : Update.ofOpcode? op with
  | none =>
      simp only [assign, known] at run
      split at run <;> contradiction
  | some u =>
      obtain rfl := Update.opcode_of_ofOpcode? known
      exact (Meets.ok (preserves_assign u typed cell.ty) cellTyped run).1

/-- Whatever the operation, an assignment to a typed cell succeeds and keeps its type, or fails and
leaves it as it was. An array is added to another exactly if its type is one that the other accepts;
if not, neither an element is added nor a new one created, at any depth. -/
theorem assign_atomic (op : Opcode) (cellTyped : cell.WellTyped) (typed : v.WellTyped) :
    Atomic (assign op v) cell ∧
      ∀ target source, cell = array target → v = array source →
        if target.ty.accepts source.ty then
          ∃ merged, assign .moveAdd v cell = .ok () (array merged)
        else assign .moveAdd v cell = .error (.inconsistentArrayDatatypes .moveAdd) cell := by
  constructor
  · unfold Atomic
    split
    · rename_i run
      have kept := assign_ok cellTyped typed run
      exact ⟨kept.wellTyped, kept.ty_eq⟩
    · rename_i run
      exact assign_error cellTyped typed run
  · rintro target source rfl rfl
    cases accepts : target.ty.accepts source.ty with
    | true => exact editArray_merge_accepted .moveAdd cellTyped typed accepts
    | false => exact editArray_merge_refused .moveAdd accepts

/-- An array of arrays, with one number in it. -/
def nested (element : Ty) (number : Atom) : Sparse Value where
  index := [.str]
  element := .array [.int] element
  cells := [([.str "a"], array ⟨[.int], element, [([.int 1], atom number)]⟩)]

theorem nested_wellTyped (number : Atom) :
    (array (nested (.scalar number.scalar) number)).WellTyped := by
  refine .array (List.forall_mem_singleton.mpr rfl) (List.forall_mem_singleton.mpr ?_)
  exact .array (List.forall_mem_singleton.mpr rfl) (List.forall_mem_singleton.mpr (.atom number))

/-- Arrays of ints are added to arrays of floats, but not the other way round. -/
theorem nested_assign_atomic :
    (array (nested .float (.float 1.5))).WellTyped ∧ (array (nested .int (.int 2))).WellTyped ∧
      Atomic (assign .moveAdd (array (nested .int (.int 2)))) (array (nested .float (.float 1.5))) ∧
      (∃ merged, assign .moveAdd (array (nested .int (.int 2)))
        (array (nested .float (.float 1.5))) = .ok () (array merged)) ∧
      assign .moveAdd (array (nested .float (.float 1.5))) (array (nested .int (.int 2))) =
        .error (.inconsistentArrayDatatypes .moveAdd) (array (nested .int (.int 2))) := by
  have floats := nested_wellTyped (.float 1.5)
  have ints := nested_wellTyped (.int 2)
  obtain ⟨atomic, accepted⟩ := assign_atomic .moveAdd floats ints
  obtain ⟨-, refused⟩ := assign_atomic .moveAdd ints floats
  exact ⟨floats, ints, atomic, accepted _ _ rfl rfl, refused _ _ rfl rfl⟩

end Value

end StackScript
