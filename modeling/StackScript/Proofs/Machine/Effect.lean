import StackScript.Proofs.Machine.Actions

namespace StackScript

/-! What the instructions of straight-line code take from the operands and leave on them. -/

/-- Shapes of the index values of an access, the last one on top. -/
def indexShapes (index : List Scalar) : List Shape :=
  (index.reverse.map Ty.scalar).map .value

@[simp] theorem length_indexShapes (index : List Scalar) :
    (indexShapes index).length = index.length := by
  simp [indexShapes]

/-- Operands before and after an instruction that neither jumps nor enters or leaves a function. -/
inductive Instruction.Effect (table : List Entry) : Instruction → List Shape → List Shape → Prop
  | putAddr {index : UInt32} {entry : Entry} {shape : Shape} {rest : List Shape}
      (found : table[index.toNat]? = some entry) (data : entry.storage = .data)
      (covers : shape.Covers (.place entry.ty)) : Effect table (.putAddr index) rest (shape :: rest)
  | putDAddr {index : UInt32} {entry : Entry} {shape : Shape} {rest : List Shape}
      (found : table[index.toNat]? = some entry) (covers : shape.Covers (.place entry.ty)) :
      Effect table (.putDAddr index) rest (shape :: rest)
  | putIndAddr {index : List Scalar} {element : Ty} {shape : Shape} {rest : List Shape}
      (covers : shape.Covers (.place element)) :
      Effect table (.putIndAddr (UInt8.ofNat index.length))
        (indexShapes index ++ .place (.array index element) :: rest) (shape :: rest)
  | putInt {n : Int64} {shape : Shape} {rest : List Shape} (covers : shape.Covers (.value .int)) :
      Effect table (.putInt n) rest (shape :: rest)
  | putFloat {bits : UInt64} {shape : Shape} {rest : List Shape}
      (covers : shape.Covers (.value .float)) : Effect table (.putFloat bits) rest (shape :: rest)
  | putString {s : String} {shape : Shape} {rest : List Shape}
      (covers : shape.Covers (.value .str)) : Effect table (.putString s) rest (shape :: rest)
  | putBoolean {b : Bool} {shape : Shape} {rest : List Shape}
      (covers : shape.Covers (.value .bool)) : Effect table (.putBoolean b) rest (shape :: rest)
  | assign {update : Update} {target ty : Ty} {rest : List Shape}
      (allowed : Grammar.updateAllowed update target ty = true) :
      Effect table (.assign update) (.value ty :: .place target :: rest) rest
  | compare {relation : Relation} {lhs rhs : Ty} {shape : Shape} {rest : List Shape}
      (consistent : lhs.consistent rhs = true) (covers : shape.Covers (.value .bool)) :
      Effect table (.compare relation) (.value rhs :: .value lhs :: rest) (shape :: rest)
  | arith {operation : Arithmetic} {lhs rhs ty : Ty} {shape : Shape} {rest : List Shape}
      (result : operation.resultTy? lhs rhs = some ty) (covers : shape.Covers (.value ty)) :
      Effect table (.arith operation) (.value rhs :: .value lhs :: rest) (shape :: rest)
  | neg {ty : Ty} {shape : Shape} {rest : List Shape}
      (negatable : ty.isNumeric = true ∨ ty = .bool) (covers : shape.Covers (.value ty)) :
      Effect table .neg (.value ty :: rest) (shape :: rest)
  | syscall {index : UInt32} {name : String} {entry : Entry} {builtin : Builtin} {shape : Shape}
      {rest : List Shape} (known : Builtin.ofName? name = some builtin)
      (found : table[index.toNat]? = some entry) (float : entry.ty = .float)
      (covers : shape.Covers (.value .float)) :
      Effect table (.syscall index name) rest (shape :: rest)
  | initVar {index : UInt32} {entry : Entry} {rest : List Shape}
      (found : table[index.toNat]? = some entry)
      (cell : entry.storage = .data ∨ entry.storage = .ddata) :
      Effect table (.initVar index) rest rest
  | allocVar {index : UInt32} {entry : Entry} {rest : List Shape}
      (found : table[index.toNat]? = some entry) : Effect table (.allocVar index) rest rest
  | allocVars {index : UInt32} {entry : Entry} {rest : List Shape}
      (found : table[index.toNat]? = some entry) :
      Effect table (.allocVars index) (.value entry.ty :: rest) rest

/-- The active frame may have got another cell. -/
inductive Layout.Allocates : Layout → Layout → Prop
  | same (layout : Layout) : Allocates layout layout
  | cell (front : Layout) (resume : Nat) (owners : List UInt32) (index : UInt32) :
      Allocates (front ++ [(resume, owners)]) (front ++ [(resume, owners ++ [index])])

theorem Layout.Allocates.grows {layout layout' : Layout} (allocates : layout.Allocates layout') :
    layout.Grows layout' := by
  cases allocates with
  | same => simpa using layout.grows_append []
  | cell front resume owners index => exact Layout.grows_allocate front resume owners [index]

namespace Sparse

variable {index : List Scalar} {element : Ty}

/-- The key for some index values, whose cell is created if there is none. -/
def reach (indexes : List Value) : Edit (Sparse Value) Key := do
  let array ← get
  let key ← Edit.ofExcept (array.checkKey indexes)
  let _ ← materialize indexes
  pure key

theorem reach_gives {indexes : List Value} {refused : Fault → Prop}
    (check : ∀ a : Sparse Value, a.Typed index element →
      Outcome (a.checkKey indexes) (fun key => key.map Atom.scalar = index) refused)
    (create : Meets (·.Typed index element) (materialize indexes)
      (fun position a => a.Typed index element ∧ position < a.cells.length)
      (fun fault a => a.Typed index element ∧ refused fault)) :
    Meets (·.Typed index element) (reach indexes)
      (fun key a => a.Typed index element ∧ key.map Atom.scalar = index)
      (fun fault a => a.Typed index element ∧ refused fault) := by
  apply Meets.through fun array a => a.Typed index element ∧ array = a
  · exact Meets.get fun _ typed => ⟨typed, rfl⟩
  intro array
  apply Meets.through fun key a => a.Typed index element ∧ key.map Atom.scalar = index
  · apply Meets.ofExcept
    · rintro key a checked ⟨typed, rfl⟩
      have exact := check array typed
      rw [checked] at exact
      exact ⟨typed, exact⟩
    · rintro fault a checked ⟨typed, rfl⟩
      have failed := check array typed
      rw [checked] at failed
      exact ⟨typed, failed⟩
  intro key
  apply Meets.of_start (fun _ start => start.2)
  intro exact
  apply Meets.bind (create.mono (fun _ start => start.1) (fun _ _ done => done.1)
    (fun _ _ fault => fault))
  exact fun _ => Meets.pure fun _ typed => ⟨typed, exact⟩

/-- Creating an element changes no other, and needs index values of the declared types only. -/
theorem reach_meets (indexes : List Value) :
    Meets (·.Typed index element) (reach indexes)
      (fun key a => a.Typed index element ∧ key.map Atom.scalar = index)
      (fun fault a => a.Typed index element ∧ fault = .inconsistentIndexDatatypes) := by
  refine reach_gives ?_ (materialize_meets indexes)
  intro a typed
  cases checked : a.checkKey indexes with
  | ok key => exact (scalars_of_checkKey checked).trans typed.index_eq
  | error fault => exact checkKey_error checked

theorem reach_exact {key : Key} (exact : key.map Atom.scalar = index) :
    Meets (·.Typed index element) (reach (key.map .atom))
      (fun key a => a.Typed index element ∧ key.map Atom.scalar = index)
      (fun _ a => a.Typed index element ∧ False) := by
  apply reach_gives
  · intro a typed
    rw [checkKey_map_atom (exact.trans typed.index_eq.symm)]
    exact exact
  · exact (materialize_exact exact).mono (fun _ typed => typed) (fun _ _ done => done)
      (fun _ _ impossible => impossible.elim)

end Sparse

namespace Action

variable {table : List Entry} {ip : Nat} {layout : Layout} {operands : List Operand}

theorem popIndexes_exact {taken : List Operand} {scalars : List Scalar}
    (exact : List.Forall₂ (Operand.Exact table layout) taken (scalars.map .scalar)) :
    Meets (Machine.Rests table ip layout (taken ++ operands)) (popIndexes taken.length)
      (fun indexes m => (∃ key : Key, indexes = key.map .atom ∧
        key.map Atom.scalar = scalars.reverse) ∧ m.Rests table ip layout operands)
      (fun _ _ => False) := by
  induction taken generalizing scalars with
  | nil =>
      cases scalars with
      | nil => exact Meets.pure fun _ rests => ⟨⟨[], rfl, rfl⟩, rests⟩
      | cons s scalars => cases exact
  | cons operand taken induction =>
      cases scalars with
      | nil => cases exact
      | cons s scalars =>
          cases exact with
          | cons first others =>
              apply Meets.bind (popValue_exact first)
              intro last
              apply Meets.of_start (fun _ start => start.1)
              intro typed
              obtain ⟨a, rfl, rfl⟩ := typed.exists_atom
              apply Meets.bind ((induction others).start fun _ start => start.2)
              intro front
              apply Meets.of_start (fun _ start => start.1)
              rintro ⟨key, rfl, scalars_eq⟩
              refine Meets.pure fun _ start => ⟨⟨key ++ [a], ?_, ?_⟩, start.2⟩
              · rw [List.map_append]
                rfl
              · rw [List.map_append, scalars_eq, List.reverse_cons]
                rfl

theorem indexAddress_gives {index : List Scalar} {element : Ty} {taken : List Operand}
    {array : Operand} {faults : Fault → Prop} {count : UInt8} (known : List Value → Prop)
    (length : taken.length = count.toNat)
    (indexed : Meets (Machine.Rests table ip layout (taken ++ array :: operands))
      (popIndexes taken.length)
      (fun indexes m => known indexes ∧ m.Rests table ip layout (array :: operands))
      (fun _ _ => False))
    (reach : ∀ indexes, known indexes → Meets (·.Typed index element) (Sparse.reach indexes)
      (fun key a => a.Typed index element ∧ key.map Atom.scalar = index)
      (fun fault a => a.Typed index element ∧ faults fault))
    (place : array.Shaped table layout (.place (.array index element))) :
    Meets (Machine.Rests table ip layout (taken ++ array :: operands)) (indexAddress count)
      (fun _ => Yields table ip layout operands (.place element))
      (fun fault _ => faults fault ∨ fault = .stackOverflow) := by
  rw [indexAddress, ← length]
  apply Meets.bind (indexed.mono (fun _ rests => rests) (fun _ _ done => done)
    (fun _ _ impossible => impossible.elim))
  intro indexes
  apply Meets.of_start (fun _ start => start.1)
  intro fine
  apply Meets.bind ((pop_meets array).mono (fun _ start => start.2) (fun _ _ done => done)
    (fun _ _ impossible => impossible.elim))
  intro popped
  apply Meets.of_start (fun _ start => start.1)
  rintro rfl
  cases popped with
  | value v => exact place.elim
  | address address =>
      apply Meets.bind ((editAddress_meets place
        (Value.keeps_editArray (reach indexes fine))).mono (fun _ start => start.2)
          (fun _ _ done => done) (fun _ _ fault => .inl fault))
      intro key
      apply Meets.of_start (fun _ start => start.1)
      intro exact
      have shaped : (Operand.address (address.element key)).Shaped table layout (.place element) :=
        Address.Refers.element place exact
      exact (push_meets _).mono (fun _ start => start.2) (fun _ _ rests => ⟨_, shaped, rests⟩)
        (fun _ _ overflow => .inr overflow)

/-- The count of an index list that is not too long for it. -/
theorem length_eq_count {α : Type} {related : Operand → α → Prop} {taken : List Operand}
    {back : List α} {index : List Scalar} (narrow : index.length < 256)
    (all : List.Forall₂ related taken back) (same : back.length = index.length) :
    taken.length = (UInt8.ofNat index.length).toNat := by
  rw [all.length_eq, same, UInt8.toNat_ofNat']
  exact (Nat.mod_eq_of_lt narrow).symm

theorem indexAddress_exact {index : List Scalar} {element : Ty} {taken : List Operand}
    {array : Operand} (narrow : index.length < 256)
    (exact : List.Forall₂ (Operand.Exact table layout) taken (index.reverse.map .scalar))
    (place : array.Shaped table layout (.place (.array index element))) :
    Meets (Machine.Rests table ip layout (taken ++ array :: operands))
      (indexAddress (UInt8.ofNat index.length))
      (fun _ => Yields table ip layout operands (.place element))
      (fun fault _ => fault = .stackOverflow) := by
  have length := length_eq_count narrow exact (by simp)
  refine (indexAddress_gives _ length (popIndexes_exact exact) ?_ place).mono (fun _ rests => rests)
    (fun _ _ done => done) (fun _ _ fault => fault.resolve_left id)
  rintro indexes ⟨key, rfl, scalars⟩
  exact Sparse.reach_exact (scalars.trans index.reverse_reverse)

theorem indexAddress_narrow {index : List Scalar} {element : Ty} {shape : Shape}
    {taken : List Operand} {array : Operand} (narrow : index.length < 256)
    (indexes : List.Forall₂ (Operand.Shaped table layout) taken (indexShapes index))
    (place : array.Shaped table layout (.place (.array index element)))
    (covers : shape.Covers (.place element)) :
    Meets (Machine.Rests table ip layout (taken ++ array :: operands))
      (indexAddress (UInt8.ofNat index.length)) (fun _ => Yields table ip layout operands shape)
      (fun fault _ => fault.Possible table) := by
  have length := length_eq_count narrow indexes (length_indexShapes index)
  refine (indexAddress_gives (fun _ => True) length ?_
    (fun indexes _ => Sparse.reach_meets indexes) place).mono (fun _ rests => rests) ?_ ?_
  · exact (popIndexes_meets indexes).mono (fun _ rests => rests)
      (fun _ _ rests => ⟨trivial, rests⟩) (fun _ _ impossible => impossible)
  · rintro _ m ⟨operand, shaped, rests⟩
    exact ⟨operand, shaped.cover covers, rests⟩
  · rintro fault _ (rfl | rfl)
    · exact Fault.possible_of_residual rfl
    · exact Fault.possible_of_residual rfl

/-- Below as many index values as fit the count there are more of them, where the array is looked
for. -/
theorem exists_wide {index : List Scalar} {taken : List Operand} (wide : 256 ≤ index.length)
    (indexes : List.Forall₂ (Operand.Shaped table layout) taken (indexShapes index)) :
    ∃ (front : List Operand) (operand : Operand) (back : List Operand) (tys : List Ty)
      (s : Scalar), taken = front ++ operand :: back ∧
      front.length = (UInt8.ofNat index.length).toNat ∧
      List.Forall₂ (Operand.Shaped table layout) front (tys.map .value) ∧
      operand.Shaped table layout (.value (.scalar s)) := by
  have count : (UInt8.ofNat index.length).toNat = index.length % 256 := UInt8.toNat_ofNat' ..
  have length : taken.length = index.length := by
    rw [indexes.length_eq, length_indexShapes]
  have inside : index.length % 256 < taken.length := by omega
  have inside' : index.length % 256 < (indexShapes index).length := by
    rw [length_indexShapes]
    omega
  have operand := indexes.get inside inside'
  simp only [indexShapes, List.get_eq_getElem, List.getElem_map] at operand
  have front : List.Forall₂ (Operand.Shaped table layout) (taken.take (index.length % 256))
      (((index.reverse.map Ty.scalar).take (index.length % 256)).map .value) := by
    rw [List.map_take]
    exact List.forall₂_take (index.length % 256) indexes
  refine ⟨_, _, taken.drop (index.length % 256 + 1), _, _, ?_, ?_, front, operand⟩
  · rw [← List.drop_eq_getElem_cons inside, List.take_append_drop]
  · rw [count, List.length_take, Nat.min_eq_left (Nat.le_of_lt inside)]

theorem exists_assigned_scalar {s : Scalar} {ty : Ty}
    (assignable : (Ty.scalar s).assignable ty = true) :
    ∃ s', ty = .scalar s' := by
  simp only [Ty.assignable, Bool.or_eq_true, Bool.and_eq_true, decide_eq_true_eq] at assignable
  rcases assignable with equal | ⟨-, numeric⟩
  · exact ⟨s, equal.symm⟩
  · cases ty with
    | scalar s' => exact ⟨s', rfl⟩
    | array index element => simp [Ty.isNumeric] at numeric

theorem indexAddress_wide {index : List Scalar} {taken : List Operand}
    (wide : 256 ≤ index.length)
    (indexes : List.Forall₂ (Operand.Shaped table layout) taken (indexShapes index)) :
    Meets (Machine.Rests table ip layout (taken ++ operands))
      (indexAddress (UInt8.ofNat index.length)) (fun _ _ => False)
      (fun fault _ => fault ≠ .inconsistentIndexDatatypes) := by
  obtain ⟨front, operand, back, tys, s, rfl, length, shaped, scalar⟩ := exists_wide wide indexes
  rw [indexAddress, ← length, List.append_assoc, List.cons_append]
  refine Meets.bind ((popIndexes_meets shaped).mono (fun _ rests => rests)
    (fun _ _ rests => rests) (fun _ _ impossible => impossible.elim)) fun values => ?_
  refine Meets.bind ((pop_meets operand).mono (fun _ rests => rests) (fun _ _ done => done)
    (fun _ _ impossible => impossible.elim)) fun popped => ?_
  refine Meets.of_start (fun _ start => start.1) ?_
  rintro rfl
  cases popped with
  | value v => exact Meets.throw fun _ _ => Fault.noConfusion
  | address address =>
      obtain ⟨ty, refers, assignable⟩ := scalar
      obtain ⟨s', rfl⟩ := exists_assigned_scalar assignable
      have reached : Meets (Machine.Rests table ip layout (back ++ operands))
          (editAddress address (Value.editArray (Sparse.reach values))) _ _ :=
        editAddress_meets refers (Value.keeps_editArray_scalar _ s')
      refine Meets.bind (reached.mono (fun _ start => start.2) (fun _ _ done => done)
        (fun _ _ fault => fault ▸ Fault.noConfusion)) fun _ => ?_
      exact Meets.absurd fun _ start => start.1

theorem indexAddress_accepts {index : List Scalar} {element : Ty} {taken : List Operand}
    {array : Operand}
    (exact : List.Forall₂ (Operand.Exact table layout) taken (index.reverse.map .scalar))
    (place : array.Shaped table layout (.place (.array index element))) :
    Meets (Machine.Rests table ip layout (taken ++ array :: operands))
      (indexAddress (UInt8.ofNat index.length)) (fun _ _ => True)
      (fun fault _ => fault ≠ .inconsistentIndexDatatypes) := by
  by_cases narrow : index.length < 256
  · exact (indexAddress_exact narrow exact place).mono (fun _ rests => rests)
      (fun _ _ _ => trivial) (fun _ _ overflow => overflow ▸ Fault.noConfusion)
  · have indexes : List.Forall₂ (Operand.Shaped table layout) taken (indexShapes index) :=
      List.forall₂_map_right_iff.mpr (exact.imp fun _ _ exact => exact.shaped)
    exact (indexAddress_wide (by omega) indexes).mono (fun _ rests => rests)
      (fun _ _ _ => trivial) (fun _ _ other => other)

theorem indexAddress_meets {index : List Scalar} {element : Ty} {shape : Shape}
    {taken : List Operand} {array : Operand}
    (indexes : List.Forall₂ (Operand.Shaped table layout) taken (indexShapes index))
    (place : array.Shaped table layout (.place (.array index element)))
    (covers : shape.Covers (.place element)) :
    Meets (Machine.Rests table ip layout (taken ++ array :: operands))
      (indexAddress (UInt8.ofNat index.length)) (fun _ => Yields table ip layout operands shape)
      (fun fault _ => fault.Possible table) := by
  by_cases narrow : index.length < 256
  · exact indexAddress_narrow narrow indexes place covers
  · refine (indexAddress_wide (by omega) indexes).mono (fun _ rests => rests)
      (fun _ _ impossible => impossible.elim) (fun _ _ _ => .inr fun all => ?_)
    cases array with
    | value v => exact place.elim
    | address address => exact narrow (Address.Refers.narrow place all).1

/-- The run goes on with operands of the given shapes; those below them are untouched. -/
def GoesOn (table : List Entry) (ip : Nat) (layout : Layout) (below : List Operand)
    (shapes : List Shape) (progress : Progress) (m : Machine) : Prop :=
  progress = .running ∧ ∃ layout' operands, layout.Allocates layout' ∧
    List.Forall₂ (Operand.Shaped table layout') operands shapes ∧
    m.Rests table ip layout' (operands ++ below)

variable {below : List Operand} {shape : Shape} {shapes : List Shape}
variable {pre : Machine → Prop} {action : Action Unit}

theorem goesOn_yields
    (shaped : List.Forall₂ (Operand.Shaped table layout) operands shapes)
    (meets : Meets pre action (fun _ => Yields table ip layout (operands ++ below) shape)
      (fun fault _ => fault.Possible table)) :
    Meets pre (do action; pure .running) (GoesOn table ip layout below (shape :: shapes))
      (fun fault _ => fault.Possible table) := by
  refine Meets.bind meets fun _ => Meets.pure ?_
  rintro m ⟨operand, top, rests⟩
  exact ⟨rfl, layout, operand :: operands, .same layout, .cons top shaped, rests⟩

theorem goesOn_rests
    (shaped : List.Forall₂ (Operand.Shaped table layout) operands shapes)
    (meets : Meets pre action (fun _ => Machine.Rests table ip layout (operands ++ below))
      (fun fault _ => fault.Possible table)) :
    Meets pre (do action; pure .running) (GoesOn table ip layout below shapes)
      (fun fault _ => fault.Possible table) := by
  refine Meets.bind meets fun _ => Meets.pure ?_
  intro m rests
  exact ⟨rfl, layout, operands, .same layout, shaped, rests⟩

theorem goesOn_push {v : Value} {ty : Ty}
    (shaped : List.Forall₂ (Operand.Shaped table layout) operands shapes) (typed : v.HasTy ty)
    (covers : shape.Covers (.value ty)) :
    Meets (Machine.Rests table ip layout (operands ++ below))
      (do push (.value v); pure .running) (GoesOn table ip layout below (shape :: shapes))
      (fun fault _ => fault.Possible table) := by
  have top : (Operand.value v).Shaped table layout (.value ty) := typed.fits
  exact goesOn_yields shaped (push_yields (top.cover covers))

theorem goesOn_allocate {index : UInt32} {entry : Entry} {v : Value}
    (found : table[index.toNat]? = some entry) (typed : v.HasTy entry.ty)
    (shaped : List.Forall₂ (Operand.Shaped table layout) operands shapes) :
    Meets (Machine.Rests table ip layout (operands ++ below))
      (do allocate index v; pure .running) (GoesOn table ip layout below shapes)
      (fun fault _ => fault.Possible table) := by
  rcases List.eq_nil_or_concat layout with rfl | ⟨front, ⟨resume, owners⟩, rfl⟩
  · exact Meets.through (fun _ _ => False) allocate_outside fun _ =>
      Meets.absurd fun _ impossible => impossible
  · rw [List.concat_eq_append] at shaped ⊢
    have step := Layout.Allocates.cell front resume owners index
    refine Meets.bind ((allocate_meets found typed).mono (fun _ rests => rests)
      (fun _ _ done => done) (fun _ _ impossible => impossible.elim)) fun _ => Meets.pure ?_
    intro m rests
    exact ⟨rfl, _, operands, step, shaped_grow shaped step.grows, rests⟩

theorem goesOn_putAddr {index : UInt32} {entry : Entry}
    (found : table[index.toNat]? = some entry) (data : entry.storage = .data)
    (covers : shape.Covers (.place entry.ty))
    (shaped : List.Forall₂ (Operand.Shaped table layout) operands shapes) :
    Meets (Machine.Rests table ip layout (operands ++ below)) (execute table (.putAddr index))
      (GoesOn table ip layout below (shape :: shapes)) (fun fault _ => fault.Possible table) := by
  refine goesOn_yields shaped ?_
  have top : (Operand.address (.ofLocation (.static index.toNat))).Shaped table layout
      (.place entry.ty) := Address.Refers.ofLocation (.static found)
  simp only [putAddr, entry_eq found, data, pure_bind]
  exact push_yields (top.cover covers)

theorem goesOn_putDAddr {index : UInt32} {entry : Entry}
    (found : table[index.toNat]? = some entry) (covers : shape.Covers (.place entry.ty))
    (shaped : List.Forall₂ (Operand.Shaped table layout) operands shapes) :
    Meets (Machine.Rests table ip layout (operands ++ below)) (execute table (.putDAddr index))
      (GoesOn table ip layout below (shape :: shapes)) (fun fault _ => fault.Possible table) := by
  simp only [execute]
  refine Meets.bind (dynamicLocation_meets found) fun location => ?_
  refine Meets.of_start (fun _ start => start.1) fun roots => ?_
  have top : (Operand.address (.ofLocation location)).Shaped table layout (.place entry.ty) :=
    Address.Refers.ofLocation roots
  exact (goesOn_yields shaped (push_yields (top.cover covers))).mono (fun _ start => start.2)
    (fun _ _ done => done) (fun _ _ fault => fault)

theorem compare_fits (relation : Relation) {lhs rhs : Ty} (consistent : lhs.consistent rhs = true)
    (a b : Value) (fitsA : a.Fits lhs) (fitsB : b.Fits rhs) :
    Outcome ((Value.compare relation.opcode a b).map Value.bool) (·.Fits .bool)
      (·.isResidual) := by
  have compared := Value.compare_outcome relation consistent fitsA fitsB
  cases run : Value.compare relation.opcode a b with
  | ok truth => exact (Value.hasTy_bool truth).fits
  | error fault =>
      rw [run] at compared
      exact compared

theorem goesOn_neg {operand : Operand} {ty : Ty} (negatable : ty.isNumeric = true ∨ ty = .bool)
    (covers : shape.Covers (.value ty)) (number : operand.Shaped table layout (.value ty))
    (shaped : List.Forall₂ (Operand.Shaped table layout) operands shapes) :
    Meets (Machine.Rests table ip layout (operand :: (operands ++ below))) (execute table .neg)
      (GoesOn table ip layout below (shape :: shapes)) (fun fault _ => fault.Possible table) := by
  have negated : Meets (Machine.Rests table ip layout (operand :: (operands ++ below)))
      (do push (.value (← Edit.ofExcept (← popValue).neg))) _ _ :=
    neg_gives (fun _ _ => popValue_meets number) fun _ => Value.neg_fits negatable
  rw [execute_neg]
  refine goesOn_yields shaped (negated.mono (fun _ rests => rests) (fun _ _ done => ?_)
    (fun _ _ overflow => overflow ▸ Fault.possible_of_residual rfl))
  obtain ⟨v, fits, rests⟩ := done
  have top : (Operand.value v).Shaped table layout (.value ty) := fits
  exact ⟨.value v, top.cover covers, rests⟩

theorem goesOn_syscall {index : UInt32} {name : String} {entry : Entry} {builtin : Builtin}
    (known : Builtin.ofName? name = some builtin) (found : table[index.toNat]? = some entry)
    (float : entry.ty = .float) (covers : shape.Covers (.value .float))
    (shaped : List.Forall₂ (Operand.Shaped table layout) operands shapes) :
    Meets (Machine.Rests table ip layout (operands ++ below))
      (execute table (.syscall index name)) (GoesOn table ip layout below (shape :: shapes))
      (fun fault _ => fault.Possible table) := by
  refine goesOn_yields shaped ?_
  simp only [syscall, known]
  refine Meets.bind (dynamicLocation_meets found) fun location => ?_
  refine Meets.of_start (fun _ start => start.1) fun roots => ?_
  refine Meets.bind ((editCell_meets roots (Value.keeps_get entry.ty)).mono
    (fun _ start => start.2) (fun _ _ done => done)
    (fun _ _ impossible => impossible.elim)) fun argument => ?_
  refine Meets.of_start (fun _ start => start.1) fun typed => ?_
  rw [float] at typed
  obtain ⟨x, run⟩ := builtin.call_fits typed.fits
  have top : (Operand.value (.float x)).Shaped table layout (.value .float) :=
    (Value.hasTy_float x).fits
  simp only [run]
  exact (push_yields (top.cover covers)).mono (fun _ start => start.2)
    (fun _ _ done => done) (fun _ _ fault => fault)

theorem initVar_meets {index : UInt32} {entry : Entry}
    (found : table[index.toNat]? = some entry)
    (cell : entry.storage = .data ∨ entry.storage = .ddata) :
    Meets (Machine.Rests table ip layout operands) (initVar table index)
      (fun _ => Machine.Rests table ip layout operands) (fun fault _ => fault.Possible table) := by
  have reset : ∀ location : Location, location.Roots table layout entry.ty →
      Meets (Machine.Rests table ip layout operands)
        (editCell location (set (Value.default entry.ty)))
        (fun _ => Machine.Rests table ip layout operands)
        (fun fault _ => fault.Possible table) := fun location roots =>
    (editCell_meets roots (Value.keeps_set (Value.hasTy_default entry.ty))).mono
      (fun _ rests => rests) (fun _ _ done => done.2) (fun _ _ impossible => impossible.elim)
  simp only [initVar, entry_eq found, pure_bind]
  rcases cell with data | ddata
  · simp only [data]
    exact reset _ (.static found)
  · simp only [ddata]
    refine Meets.bind (dynamicLocation_meets found) fun location => ?_
    refine Meets.of_start (fun _ start => start.1) fun roots => ?_
    exact (reset location roots).mono (fun _ start => start.2) (fun _ _ done => done)
      (fun _ _ fault => fault)

theorem goesOn_allocVars {index : UInt32} {entry : Entry} {argument : Operand}
    (found : table[index.toNat]? = some entry)
    (given : argument.Shaped table layout (.value entry.ty))
    (shaped : List.Forall₂ (Operand.Shaped table layout) operands shapes) :
    Meets (Machine.Rests table ip layout (argument :: (operands ++ below)))
      (execute table (.allocVars index)) (GoesOn table ip layout below shapes)
      (fun fault _ => fault.Possible table) := by
  simp only [execute, allocVars, entry_eq found, pure_bind, bind_assoc]
  refine Meets.bind ((popValue_meets given).mono (fun _ rests => rests)
    (fun _ _ done => done) (fun _ _ impossible => impossible.elim)) fun v => ?_
  refine Meets.of_start (fun _ start => start.1) fun fits => ?_
  obtain ⟨accepted, typed⟩ := fits.accepted
  simp only [accepted, if_true]
  exact (goesOn_allocate found typed shaped).mono (fun _ start => start.2)
    (fun _ _ done => done) (fun _ _ fault => fault)

end Action

open StackScript.Action in
theorem Instruction.Effect.execute {table : List Entry} {ip : Nat} {layout : Layout}
    {instruction : Instruction} {before after : List Shape} {operands below : List Operand}
    (effect : instruction.Effect table before after)
    (shaped : List.Forall₂ (Operand.Shaped table layout) operands before) :
    Meets (Machine.Rests table ip layout (operands ++ below)) (Action.execute table instruction)
      (GoesOn table ip layout below after) (fun fault _ => fault.Possible table) := by
  cases effect with
  | putAddr found data covers => exact goesOn_putAddr found data covers shaped
  | putDAddr found covers => exact goesOn_putDAddr found covers shaped
  | @putIndAddr index element shape rest covers =>
      obtain ⟨taken, others, rfl, indexes, tail⟩ := shaped_split shaped
      cases tail with
      | cons place shaped =>
          rw [List.append_assoc, List.cons_append]
          exact goesOn_yields shaped (indexAddress_meets indexes place covers)
  | putInt covers => exact goesOn_push shaped (Value.hasTy_int _) covers
  | putFloat covers => exact goesOn_push shaped (Value.hasTy_float _) covers
  | putString covers => exact goesOn_push shaped (Value.hasTy_str _) covers
  | putBoolean covers => exact goesOn_push shaped (Value.hasTy_bool _) covers
  | assign allowed =>
      obtain _ | ⟨value, _ | ⟨place, shaped⟩⟩ := shaped
      exact goesOn_rests shaped (assign_meets allowed value place)
  | @compare relation _ _ _ _ consistent covers =>
      obtain _ | ⟨right, _ | ⟨left, shaped⟩⟩ := shaped
      exact goesOn_yields shaped
        (binary_meets (compare_fits relation consistent) covers right left)
  | arith result covers =>
      obtain _ | ⟨right, _ | ⟨left, shaped⟩⟩ := shaped
      exact goesOn_yields shaped
        (binary_meets (fun a b => Arithmetic.apply_outcome result) covers right left)
  | neg negatable covers =>
      obtain _ | ⟨number, shaped⟩ := shaped
      exact goesOn_neg negatable covers number shaped
  | syscall known found float covers => exact goesOn_syscall known found float covers shaped
  | initVar found cell => exact goesOn_rests shaped (initVar_meets found cell)
  | @allocVar index entry _ found =>
      simp only [Action.execute, entry_eq found, pure_bind]
      exact goesOn_allocate found (Value.hasTy_default entry.ty) shaped
  | allocVars found =>
      obtain _ | ⟨argument, shaped⟩ := shaped
      exact goesOn_allocVars found argument shaped

end StackScript
