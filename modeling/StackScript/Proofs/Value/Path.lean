import StackScript.Proofs.Machine.Effect
import StackScript.Proofs.Value.Element

namespace StackScript

/-! What a path of index tuples leads to, and what stores behind it leave there. -/

namespace Value

/-- What a path leads to, if all elements on it are there. -/
def find? : Value → List Key → Option Value
  | v, [] => some v
  | .array a, key :: path => (a.find? key).bind fun element => element.find? path
  | .atom _, _ :: _ => none

variable {start ty : Ty} {path : List Key} {v c : Value}

/-- An edit that makes a constant of everything leaves the constant at the end of the path, where
it is found again unless there is a NaN on the path. -/
theorem exists_editPath {edit : Edit Value Unit} (leads : Ty.Path start path ty)
    (edits : ∀ w : Value, w.HasTy ty → edit w = .ok () c) (constant : c.HasTy ty)
    (numbers : ∀ key ∈ path, key.hasNaN = false) (typed : v.HasTy start) :
    ∃ v', editPath edit path v = .ok () v' ∧ v'.HasTy start ∧ v'.find? path = some c := by
  induction leads generalizing v with
  | nil ty => exact ⟨c, edits v typed, constant, by simp [find?]⟩
  | @cons index element ty key path exact rest induction =>
      obtain ⟨a, rfl, inside⟩ := typed.exists_array
      obtain ⟨number, others⟩ := List.forall_mem_cons.mp numbers
      have before : (a.elementAt key).HasTy element := Sparse.elementAt_hasTy inside
      obtain ⟨w, edited, wTyped, found⟩ := induction edits constant others before
      have put := Sparse.editElement_put (exact.trans inside.index_eq.symm) edited
      refine ⟨.array (a.put key w), ?_, hasTy_array_iff.mpr (inside.put exact wTyped), ?_⟩
      · simp only [editPath, editArray, put]
      · rw [find?, Sparse.find?_put, if_pos (Key.beq_self.mpr number), Option.bind_some, found]

/-- The types that a constant can be assigned to. -/
theorem exists_scalar_of_assignable {s : Scalar} (assignable : ty.assignable (.scalar s) = true) :
    ∃ t, ty = .scalar t ∧ t.accepts s = true := by
  simp only [Ty.assignable, Bool.or_eq_true, Bool.and_eq_true, decide_eq_true_eq] at assignable
  rcases assignable with rfl | ⟨rfl, numeric⟩
  · exact ⟨s, rfl, by cases s <;> rfl⟩
  · refine ⟨.float, rfl, ?_⟩
    cases s <;> first | rfl | cases numeric

/-- A constant is widened to the type of the cell that it is stored in. -/
theorem store_atom {a : Atom} {t : Scalar} (accepts : t.accepts a.scalar = true)
    (typed : v.HasTy (.scalar t)) : store (.atom a) v = .ok () (.atom (a.widen t)) := by
  obtain ⟨b, rfl, rfl⟩ := typed.exists_atom
  cases a <;> cases b <;> first | rfl | cases accepts

theorem exists_assigned {a : Atom} {t : Scalar} (leads : Ty.Path start path (.scalar t))
    (accepts : t.accepts a.scalar = true) (numbers : ∀ key ∈ path, key.hasNaN = false)
    (typed : v.HasTy start) :
    ∃ v', editPath (assign Update.set.opcode (.atom a)) path v = .ok () v' ∧ v'.HasTy start ∧
      v'.find? path = some (.atom (a.widen t)) := by
  have constant : (Value.atom (a.widen t)).HasTy (.scalar t) := by
    have widened := HasTy.atom (a.widen t)
    rwa [scalar_widen accepts] at widened
  refine exists_editPath leads (fun w wTyped => ?_) constant numbers typed
  unfold assign
  exact store_atom accepts wTyped

end Value

/-- An element is reached under exactly the index values that are given, and created if need be. -/
theorem Sparse.exists_reach {a : Sparse Value} {index : List Scalar} {element : Ty} {key : Key}
    (typed : a.Typed index element) (exact : key.map Atom.scalar = index) :
    ∃ a', reach (key.map .atom) a = .ok key a' ∧ a'.Typed index element := by
  obtain ⟨position, a', created, typed', -⟩ := (materialize_exact exact).exists_ok typed
  refine ⟨a', ?_, typed'⟩
  have checked := checkKey_map_atom (exact.trans typed.index_eq.symm)
  simp only [reach, bind, EStateM.bind, Edit.get_apply, Edit.ofExcept, checked, created]
  rfl

/-- The same behind a path that leads to the array. -/
theorem Value.exists_reached {start : Ty} {path : List Key} {index : List Scalar} {element : Ty}
    {key : Key} {v : Value} (leads : Ty.Path start path (.array index element))
    (exact : key.map Atom.scalar = index) (typed : v.HasTy start) :
    ∃ v', editPath (editArray (Sparse.reach (key.map .atom))) path v = .ok key v' ∧
      v'.HasTy start := by
  have reaches : Keeps (editArray (Sparse.reach (key.map .atom))) (.array index element)
      (fun key' => key' = key) fun _ => False := by
    refine keeps_editArray fun a inside => ?_
    obtain ⟨a', run, inside'⟩ := Sparse.exists_reach inside exact
    rw [run]
    exact ⟨inside', rfl⟩
  have whole := keeps_editPath leads reaches v typed
  split at whole
  · rename_i key' v' run
    obtain ⟨typed', rfl⟩ := whole
    exact ⟨v', run, typed'⟩
  · exact whole.2.elim

end StackScript
