import StackScript.Proofs.Value.Uniqueness

namespace StackScript

/-! An edit of the element under a tuple changes nothing else: a cell that there is gets another
value, and one that there is not comes at the end. -/

namespace Sparse

/-- Cells with a value in the first one that has the key, or in a new one at the end. -/
def putCell (key : Key) (value : Value) : List (Key × Value) → List (Key × Value)
  | [] => [(key, value)]
  | cell :: cells =>
      if cell.1 == key then (cell.1, value) :: cells else cell :: putCell key value cells

/-- The array with a value under a tuple. -/
def put (a : Sparse Value) (key : Key) (value : Value) : Sparse Value :=
  { a with cells := putCell key value a.cells }

/-- What is under a tuple, or would be created there. -/
def elementAt (a : Sparse Value) (key : Key) : Value :=
  (a.find? key).getD (Value.default a.element)

variable {a : Sparse Value} {key key' : Key} {value : Value} {cells : List (Key × Value)}
variable {index : List Scalar} {element : Ty}

theorem find?_cons (cell : Key × Value) (cells : List (Key × Value)) (key : Key) :
    (Sparse.mk index element (cell :: cells)).find? key =
      if cell.1 == key then some cell.2 else (Sparse.mk index element cells).find? key := by
  simp only [find?, List.find?_cons]
  cases cell.1 == key <;> rfl

theorem find?_congr (same : (key == key') = true) : a.find? key = a.find? key' := by
  simp only [find?, BEq.congr_right same]

theorem find?_eq_none_iff : a.find? key = none ↔ ∀ cell ∈ a.cells, (cell.1 == key) = false := by
  simp [find?]

theorem exists_of_find? (found : a.find? key = some value) :
    ∃ cell ∈ a.cells, (cell.1 == key) = true ∧ cell.2 = value := by
  obtain ⟨cell, first, rfl⟩ := Option.map_eq_some_iff.mp found
  exact ⟨cell, List.mem_of_find?_eq_some first, (List.find?_eq_some_iff_append.mp first).1, rfl⟩

theorem find?_put (a : Sparse Value) (key : Key) (value : Value) (key' : Key) :
    (a.put key value).find? key' = if key == key' then some value else a.find? key' := by
  obtain ⟨index, element, cells⟩ := a
  induction cells with
  | nil => exact find?_cons (key, value) [] key'
  | cons cell cells induction =>
      simp only [put, putCell] at induction ⊢
      by_cases here : cell.1 == key
      · rw [if_pos here, find?_cons, find?_cons, BEq.congr_left here]
        split <;> rfl
      · rw [if_neg here, find?_cons, find?_cons, induction]
        by_cases asked : cell.1 == key'
        · have other : ¬ key == key' := fun same => here (BEq.trans asked (BEq.symm same))
          rw [if_pos asked, if_neg other, if_pos asked]
        · rw [if_neg asked, if_neg asked]

theorem keys_put (a : Sparse Value) (key : Key) (value : Value) :
    (a.put key value).keys = a.keys ++ if (a.find? key).isNone then [key] else [] := by
  obtain ⟨index, element, cells⟩ := a
  induction cells with
  | nil => rfl
  | cons cell cells induction =>
      simp only [put, putCell, keys] at induction ⊢
      rw [find?_cons]
      split
      · simp
      · rw [List.map_cons, List.map_cons, List.cons_append, induction]

theorem mem_putCell {cell : Key × Value} (member : cell ∈ putCell key value cells) :
    cell ∈ cells ∨ cell.2 = value := by
  induction cells with
  | nil => exact .inr (congrArg Prod.snd (List.mem_singleton.mp member))
  | cons first cells induction =>
      rw [putCell] at member
      split at member <;> rcases List.mem_cons.mp member with rfl | member
      · exact .inr rfl
      · exact .inl (List.mem_cons_of_mem _ member)
      · exact .inl List.mem_cons_self
      · exact (induction member).imp_left (List.mem_cons_of_mem _)

theorem mem_keys_put (member : key' ∈ (a.put key value).keys) : key' ∈ a.keys ∨ key' = key := by
  rw [keys_put] at member
  rcases List.mem_append.mp member with old | new
  · exact .inl old
  · split at new
    · exact .inr (List.mem_singleton.mp new)
    · cases new

theorem Typed.put (typed : a.Typed index element) (exact : key.map Atom.scalar = index)
    (valueTyped : value.HasTy element) : (a.put key value).Typed index element where
  index_eq := typed.index_eq
  element_eq := typed.element_eq
  keys := by
    intro cell member
    rcases mem_keys_put (List.mem_map_of_mem member) with old | new
    · obtain ⟨cell', inside, same⟩ := List.mem_map.mp old
      rw [← same]
      exact typed.keys cell' inside
    · rw [new]
      exact exact
  elements := by
    intro cell member
    rcases mem_putCell member with old | rfl
    · exact typed.elements cell old
    · exact valueTyped

theorem Unique.put (unique : a.Unique) (valueUnique : value.Unique) : (a.put key value).Unique where
  keys := by
    rw [keys_put]
    split
    · rename_i missing
      rw [Option.isNone_iff_eq_none, find?_eq_none_iff] at missing
      refine List.pairwise_append.mpr ⟨unique.keys, List.pairwise_singleton _ _, ?_⟩
      intro key' old new fresh
      obtain ⟨cell, member, rfl⟩ := List.mem_map.mp old
      rw [List.mem_singleton.mp fresh]
      exact missing cell member
    · rw [List.append_nil]
      exact unique.keys
  elements := by
    intro cell member
    rcases mem_putCell member with old | rfl
    · exact unique.elements cell old
    · exact valueUnique

theorem putCell_found {position : Nat} {cell : Key × Value}
    (found : cells.findIdx? (fun cell => cell.1 == key) = some position)
    (there : cells[position]? = some cell) :
    putCell key value cells = cells.set position (cell.1, value) := by
  induction cells generalizing position with
  | nil => cases found
  | cons first cells induction =>
      rw [List.findIdx?_cons] at found
      rw [putCell]
      split at found
      · cases found
        cases there
        rw [if_pos ‹_›, List.set_cons_zero]
      · obtain ⟨position, further, rfl⟩ := Option.map_eq_some_iff.mp found
        rw [if_neg ‹_›, List.set_cons_succ, induction further there]

theorem putCell_missing (missing : cells.findIdx? (fun cell => cell.1 == key) = none) :
    putCell key value cells = cells ++ [(key, value)] := by
  induction cells with
  | nil => rfl
  | cons first cells induction =>
      rw [List.findIdx?_cons] at missing
      rw [putCell]
      split at missing
      · cases missing
      · rw [if_neg ‹_›, List.cons_append, induction (Option.map_eq_none_iff.mp missing)]

/-- The element is found, or created and then found at the end. -/
theorem editElement_put {edit : Edit Value Unit} (exact : key.map Atom.scalar = a.index)
    (edited : edit (a.elementAt key) = .ok () value) :
    editElement (key.map .atom) edit a = .ok () (a.put key value) := by
  have checked := checkKey_map_atom exact
  change EStateM.bind (materialize (key.map .atom)) (editAt · edit) a = _
  cases found : a.position? key with
  | some position =>
      obtain ⟨cell, there, -, finds⟩ := find?_of_position? found
      rw [elementAt, finds, Option.getD_some] at edited
      simp only [EStateM.bind, materialize_found checked found, editAt, Edit.atPosition, there,
        edited, put, putCell_found found there]
  | none =>
      have there : (a.extended key).cells[a.cells.length]? = some (key, Value.default a.element) :=
        List.getElem?_concat_length
      rw [elementAt, find?_of_position?_none found, Option.getD_none] at edited
      simp only [EStateM.bind, materialize_missing checked found, editAt, Edit.atPosition, there,
        edited, put, putCell_missing found]
      simp [extended]

theorem elementAt_put (different : (key == key') = false) :
    (a.put key value).elementAt key' = a.elementAt key' := by
  rw [elementAt, find?_put, different, if_neg Bool.false_ne_true]
  rfl

theorem elementAt_hasTy (typed : a.Typed index element) : (a.elementAt key).HasTy element := by
  unfold elementAt
  cases found : a.find? key with
  | some value =>
      obtain ⟨cell, member, -, rfl⟩ := exists_of_find? found
      exact typed.elements cell member
  | none =>
      rw [typed.element_eq]
      exact Value.hasTy_default element

theorem Unique.elementAt (unique : a.Unique) : (a.elementAt key).Unique := by
  unfold Sparse.elementAt
  cases found : a.find? key with
  | some value =>
      obtain ⟨cell, member, -, rfl⟩ := exists_of_find? found
      exact unique.elements cell member
  | none => exact Value.unique_default _

end Sparse

end StackScript
