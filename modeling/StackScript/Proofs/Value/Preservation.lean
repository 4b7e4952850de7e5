import StackScript.Proofs.Value.Operators

namespace StackScript

/-! Edits of values of any type by values of any type. Whatever an edit is given, and whether or not
it faults, what it edits keeps its type. -/

namespace Value

/-- A value has its own type at every depth. -/
def WellTyped (v : Value) : Prop :=
  v.HasTy v.ty

theorem HasTy.wellTyped {v : Value} {ty : Ty} (typed : v.HasTy ty) : v.WellTyped := by
  rw [WellTyped, typed.ty_eq]
  exact typed

theorem wellTyped_atom (a : Atom) : (Value.atom a).WellTyped :=
  .atom a

theorem wellTyped_array_iff {a : Sparse Value} :
    (Value.array a).WellTyped ↔ a.Typed a.index a.element :=
  hasTy_array_iff

/-- An edit of values leaves each of them the type that it had. -/
def Preserves {β : Type} (edit : Edit Value β) (result : β → Prop) : Prop :=
  ∀ ty, Keeps edit ty result fun _ => True

end Value

/-! Arrays. -/

namespace Sparse

variable {β : Type} {result : β → Prop} {index : List Scalar} {element : Ty}

theorem editElement_preserves {edit : Edit Value β} (preserves : Value.Preserves edit result)
    (indexes : List Value) :
    Meets (·.Typed index element) (editElement indexes edit)
      (fun b a => a.Typed index element ∧ result b) (fun _ a => a.Typed index element) := by
  apply Meets.bind
  · exact (materialize_meets indexes).mono (fun _ typed => typed) (fun _ _ found => found)
      (fun _ _ fault => fault.1)
  · intro position
    exact (editAt_meets (preserves element) position).mono (fun _ found => found)
      (fun _ _ done => done) (fun _ _ fault => fault.1)

/-- Merging an array of a type that the target accepts cannot fail part way: the elements that are
added have the types of those that they are added to. -/
theorem merge_accepted (op : Opcode) {target other : Sparse Value}
    (targetTyped : target.Typed index element) (typed : other.Typed other.index other.element)
    (accepts : target.ty.accepts other.ty = true) :
    ∃ merged, merge op other target = .ok () merged ∧ merged.Typed index element := by
  obtain ⟨index', element', cells⟩ := other
  have keys : ∀ cell ∈ Value.widenCells cells index element,
      cell.1.map Atom.scalar = index := by
    intro cell member
    obtain ⟨key, value, inside, rfl⟩ := Value.mem_widenCells member
    apply Value.scalars_widen
    rw [typed.keys _ inside]
    rw [Sparse.ty, targetTyped.index_eq, Sparse.ty, Ty.accepts, Bool.and_eq_true] at accepts
    exact accepts.1
  have elements : ∀ cell ∈ Value.widenCells cells index element, cell.2.HasTy element := by
    intro cell member
    obtain ⟨key, value, inside, rfl⟩ := Value.mem_widenCells member
    rw [Sparse.ty, targetTyped.element_eq, Sparse.ty, Ty.accepts, Bool.and_eq_true] at accepts
    exact (typed.elements _ inside).widen accepts.2
  obtain ⟨_, merged, run, whole⟩ :=
    (mergeCells_meets op (fun _ _ _ inner => mergeWithin_meets op _ inner) keys
      elements).exists_ok targetTyped
  refine ⟨merged, ?_, whole⟩
  simp only [merge, Value.depth, mergeWithin, accepts, if_true, Sparse.widen, targetTyped.index_eq,
    targetTyped.element_eq]
  exact run

theorem merge_refused (op : Opcode) {target other : Sparse Value}
    (refuses : target.ty.accepts other.ty = false) :
    merge op other target = .error (.inconsistentArrayDatatypes op) target := by
  simp only [merge, Value.depth, mergeWithin, refuses, Bool.false_eq_true, if_false]

theorem merge_preserves (op : Opcode) {other : Sparse Value}
    (typed : other.Typed other.index other.element) :
    Meets (·.Typed index element) (merge op other) (fun _ a => a.Typed index element)
      (fun _ a => a.Typed index element) := by
  intro target targetTyped
  cases accepts : target.ty.accepts other.ty with
  | true =>
      obtain ⟨merged, run, whole⟩ := merge_accepted op targetTyped typed accepts
      rw [run]
      exact whole
  | false =>
      rw [merge_refused op accepts]
      exact targetTyped

end Sparse

/-! Operators. -/

namespace Value

variable {a b : Value} {op : Opcode}

theorem add_meets {p : Value → Prop} (atoms : ∀ x : Atom, p (.atom x))
    (arrays : ∀ target source, a = .array target → b = .array source →
      p (.array (Edit.outcome (Sparse.merge op source) target).2)) :
    Outcome (add op a b) p fun _ => True := by
  rcases a with x | target
  · rcases b with y | source
    · simp only [add, addAtoms]
      cases x.add op y with
      | ok sum => exact atoms sum
      | error fault => trivial
    · trivial
  · rcases b with y | source
    · trivial
    · have merged := arrays target source rfl rfl
      unfold Edit.outcome at merged
      simp only [add]
      cases run : Sparse.merge op source target with
      | ok _ whole =>
          rw [run] at merged
          exact merged
      | error fault _ => trivial

theorem add_wellTyped (first : a.WellTyped) (second : b.WellTyped) :
    Outcome (add op a b) WellTyped fun _ => True := by
  refine add_meets wellTyped_atom ?_
  rintro target source rfl rfl
  exact (hasTy_array_iff.mpr ((Sparse.merge_preserves op (wellTyped_array_iff.mp second)).outcome
    (wellTyped_array_iff.mp first))).wellTyped

/-! The other results are atoms. -/

theorem sub_meets {p : Value → Prop} (atoms : ∀ x : Atom, p (.atom x)) :
    Outcome (sub op a b) p fun _ => True := by
  unfold sub
  split
  · split
    · exact atoms _
    · split <;> first | exact atoms _ | trivial
  all_goals trivial

theorem mul_meets {p : Value → Prop} (atoms : ∀ x : Atom, p (.atom x)) :
    Outcome (mul op a b) p fun _ => True := by
  unfold mul
  split
  · split
    · exact atoms _
    · split <;> first | exact atoms _ | trivial
  all_goals trivial

theorem div_meets {p : Value → Prop} (atoms : ∀ x : Atom, p (.atom x)) :
    Outcome (div op a b) p fun _ => True := by
  unfold div
  split
  · split
    · trivial
    · exact atoms _
  · split <;> trivial

theorem neg_wellTyped : Outcome a.neg WellTyped fun _ => True := by
  unfold neg
  split <;> first | exact wellTyped_atom _ | trivial

end Value

theorem Arithmetic.apply_wellTyped (operation : Arithmetic) {a b : Value} (first : a.WellTyped)
    (second : b.WellTyped) : Outcome (operation.apply a b) Value.WellTyped fun _ => True := by
  cases operation with
  | multiply => exact Value.mul_meets Value.wellTyped_atom
  | divide => exact Value.div_meets Value.wellTyped_atom
  | add => exact Value.add_wellTyped first second
  | subtract => exact Value.sub_meets Value.wellTyped_atom

theorem Builtin.call_wellTyped (builtin : Builtin) (argument : Value) :
    Outcome (builtin.call argument) Value.WellTyped fun _ => True := by
  unfold Builtin.call
  split <;> first | exact Value.wellTyped_atom _ | trivial

/-! Edits of cells. -/

namespace Value

variable {β : Type} {result : β → Prop} {v : Value} {ty : Ty}

theorem preserves_editArray {edit : Edit (Sparse Value) β}
    (meets : ∀ index element, Meets (·.Typed index element) edit
      (fun b a => a.Typed index element ∧ result b) (fun _ a => a.Typed index element)) :
    Preserves (editArray edit) result := by
  intro ty
  cases ty with
  | scalar s =>
      exact (keeps_editArray_scalar edit s).mono (fun _ typed => typed)
        (fun _ _ impossible => impossible.2.elim) (fun _ _ fault => ⟨fault.1, trivial⟩)
  | array index element =>
      exact keeps_editArray ((meets index element).mono (fun _ typed => typed)
        (fun _ _ done => done) (fun _ _ typed => ⟨typed, trivial⟩))

/-- The keys of a path need not fit what they are applied to. -/
theorem preserves_editPath {edit : Edit Value β} (preserves : Preserves edit result)
    (path : List Key) : Preserves (editPath edit path) result := by
  induction path with
  | nil => exact preserves
  | cons key path induction =>
      exact preserves_editArray fun _ _ => Sparse.editElement_preserves induction _

theorem preserves_get : Preserves get WellTyped :=
  fun ty => (keeps_get ty).mono (fun _ typed => typed)
    (fun _ _ done => ⟨done.1, done.2.wellTyped⟩) (fun _ _ impossible => impossible.2.elim)

theorem preserves_store (typed : v.WellTyped) : Preserves (store v) fun _ => True := by
  intro ty cell cellTyped
  cases ty with
  | scalar s =>
      obtain ⟨x, rfl, rfl⟩ := cellTyped.exists_atom
      rcases v with y | source
      · cases x <;> cases y <;> exact ⟨.atom _, trivial⟩
      · cases x <;> exact ⟨cellTyped, trivial⟩
  | array index element =>
      obtain ⟨target, rfl, inside⟩ := cellTyped.exists_array
      rcases v with y | source
      · cases y <;> exact ⟨cellTyped, trivial⟩
      · simp only [store]
        by_cases accepts : target.ty.accepts source.ty = true
        · have widened := HasTy.widen typed accepts
          simp only [accepts, if_true]
          rw [Sparse.ty, inside.index_eq, inside.element_eq] at widened ⊢
          exact ⟨widened, trivial⟩
        · simp only [accepts]
          exact ⟨cellTyped, trivial⟩

theorem operator_hasTy {update : Update} {operator : Opcode → Value → Value → Except Fault Value}
    (which : (update, operator) = (.add, add) ∨ (update, operator) = (.subtract, sub) ∨
      (update, operator) = (.multiply, mul))
    {cell : Value} (typed : cell.HasTy ty) (fine : ∀ n x, ¬ (cell = .int n ∧ v = .float x))
    (scalar : update = .add → cell.kind ≠ .array) :
    Outcome (operator update.opcode cell v) (·.HasTy ty) fun _ => True := by
  rcases which with equal | equal | equal <;> cases equal <;>
    rcases typed with (m | x | s | p) | _ <;> rcases v with (n | y | t | q) | source <;>
    first
    | exact trivial
    | exact HasTy.atom _
    | exact absurd ⟨rfl, rfl⟩ (fine _ _)
    | exact absurd rfl (scalar rfl)

theorem keeps_assign_operator {update : Update}
    {operator : Opcode → Value → Value → Except Fault Value}
    (which : (update, operator) = (.add, add) ∨ (update, operator) = (.subtract, sub) ∨
      (update, operator) = (.multiply, mul))
    (scalar : update = .add → ∀ cell : Value, cell.HasTy ty → cell.kind ≠ .array) :
    Keeps (assign update.opcode v) ty (fun _ => True) fun _ => True := by
  intro cell typed
  by_cases float : ∃ n x, cell = .int n ∧ v = .float x
  · obtain ⟨n, x, rfl, rfl⟩ := float
    rcases which with equal | equal | equal <;> cases equal <;> exact ⟨typed, trivial⟩
  · have fine : ∀ n x, ¬ (cell = .int n ∧ v = .float x) := fun n x both => float ⟨n, x, both⟩
    have kind (added : update = .add) := scalar added cell typed
    rw [assign_update which fine kind]
    have computed := operator_hasTy which typed fine kind
    simp only [Value.update]
    cases run : operator update.opcode cell v with
    | ok result =>
        rw [run] at computed
        exact ⟨computed, trivial⟩
    | error fault => exact ⟨typed, trivial⟩

theorem keeps_assign_quotient :
    Keeps (assign Update.divide.opcode v) ty (fun _ => True) fun _ => True := by
  intro cell typed
  -- Only a float cell can be divided, and a quotient of numbers is a float.
  by_cases numbers : cell.kind = .float ∧ (v.Fits .float)
  · obtain ⟨floating, fits⟩ := numbers
    rcases typed with (m | x | s | p) | _ <;> try cases floating
    exact (keeps_assign_divide fits).mono (fun _ typed => typed) (fun _ _ done => done)
      (fun _ _ fault => ⟨fault.1, trivial⟩) (.float x) (hasTy_float x)
  · have refused : ∃ fault, assign Update.divide.opcode v cell = .error fault cell := by
      rcases typed with (m | x | s | p) | _ <;> rcases v with (n | y | t | q) | source <;>
        first
        | exact ⟨_, rfl⟩
        | exact (numbers ⟨rfl, fits_float_int _⟩).elim
        | exact (numbers ⟨rfl, fits_float_float _⟩).elim
    obtain ⟨fault, refused⟩ := refused
    rw [refused]
    exact ⟨typed, trivial⟩

theorem preserves_assign (update : Update) (typed : v.WellTyped) :
    Preserves (assign update.opcode v) fun _ => True := by
  intro ty
  cases update with
  | set => exact preserves_store typed ty
  | subtract => exact keeps_assign_operator (.inr (.inl rfl)) nofun
  | multiply => exact keeps_assign_operator (.inr (.inr rfl)) nofun
  | divide => exact keeps_assign_quotient
  | add =>
      cases ty with
      | scalar s =>
          exact keeps_assign_operator (.inl rfl) fun _ _ cellTyped => cellTyped.kind_ne_array
      | array index element =>
          intro cell cellTyped
          obtain ⟨target, rfl, inside⟩ := cellTyped.exists_array
          rcases v with y | source
          · exact ⟨cellTyped, trivial⟩
          · exact preserves_editArray
              (fun _ _ => (Sparse.merge_preserves .moveAdd (wellTyped_array_iff.mp typed)).mono
                (fun _ typed => typed) (fun _ _ typed => ⟨typed, trivial⟩)
                (fun _ _ typed => typed))
              (.array index element) (.array target) cellTyped

end Value

end StackScript
