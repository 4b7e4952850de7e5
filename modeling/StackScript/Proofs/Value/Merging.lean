import StackScript.Proofs.Value.Element

namespace StackScript

/-! Merging adds arrays tuple by tuple: each element of the one array is added to what the other has
under the same tuple, or else to a default value. -/

/-! How deep the merged arrays are makes no difference. -/

namespace Value

theorem depth_le_depthCells {cell : Key × Value} {cells : List (Key × Value)}
    (member : cell ∈ cells) : cell.2.depth ≤ depthCells cells := by
  induction cells with
  | nil => cases member
  | cons first cells induction =>
      obtain ⟨key, value⟩ := first
      rw [depthCells]
      rcases List.mem_cons.mp member with rfl | member
      · exact Nat.le_max_left _ _
      · exact Nat.le_trans (induction member) (Nat.le_max_right _ _)

mutual

theorem depth_widen (v : Value) (ty : Ty) : (v.widen ty).depth = v.depth :=
  match v, ty with
  | .atom _, .scalar _ => by simp only [widen, depth]
  | .atom _, .array _ _ => by simp only [widen]
  | .array _, .scalar _ => by simp only [widen]
  | .array ⟨index, element, cells⟩, .array index' element' => by
      simp only [widen]
      split
      · rfl
      · simp only [depth, depthCells_widenCells cells index' element']

theorem depthCells_widenCells (cells : List (Key × Value)) (index : List Scalar) (element : Ty) :
    depthCells (widenCells cells index element) = depthCells cells :=
  match cells with
  | [] => rfl
  | (key, value) :: rest => by
      simp only [widenCells, depthCells, depth_widen value element,
        depthCells_widenCells rest index element]

end

/-- Adds a value to what is edited. -/
def combine (op : Opcode) (inner : Sparse Value → Edit (Sparse Value) Unit) (value : Value) :
    Edit Value Unit := fun
  | .array a =>
      match value with
      | .array b => editArray (inner b) (.array a)
      | .atom _ => .error (.inconsistentDatatypes op) (.array a)
  | .atom a =>
      match (Value.atom a).addAtoms op value with
      | .ok sum => .ok () sum
      | .error fault => .error fault (.atom a)

end Value

namespace Sparse

variable {op : Opcode} {inner inner' : Sparse Value → Edit (Sparse Value) Unit}

theorem mergeCells_cons (key : Key) (value : Value) (cells : List (Key × Value)) :
    mergeCells op inner ((key, value) :: cells) =
      (editElement (key.map .atom) (value.combine op inner) >>= fun _ =>
        mergeCells op inner cells) :=
  rfl

theorem mergeCells_congr {cells : List (Key × Value)}
    (same : ∀ cell ∈ cells, ∀ b, cell.2 = .array b → inner b = inner' b) :
    mergeCells op inner cells = mergeCells op inner' cells := by
  induction cells with
  | nil => rfl
  | cons cell cells induction =>
      obtain ⟨key, value⟩ := cell
      have first : value.combine op inner = value.combine op inner' := by
        rcases value with y | b
        · rfl
        · funext v
          rcases v with x | a
          · rfl
          · simp only [Value.combine, same _ List.mem_cons_self b rfl]
      rw [mergeCells_cons, mergeCells_cons, first,
        induction fun cell member => same cell (List.mem_cons_of_mem _ member)]

theorem mergeWithin_eq {depth depth' : Nat} {other : Sparse Value}
    (within : (Value.array other).depth ≤ depth) (within' : (Value.array other).depth ≤ depth') :
    mergeWithin op depth other = mergeWithin op depth' other := by
  induction depth generalizing depth' other with
  | zero => cases within
  | succ depth induction =>
      cases depth' with
      | zero => cases within'
      | succ depth' =>
          obtain ⟨index, element, cells⟩ := other
          rw [Value.depth, Nat.add_le_add_iff_right] at within within'
          funext target
          simp only [mergeWithin]
          split
          · refine congrFun (mergeCells_congr fun cell member b nested => ?_) target
            have below := Value.depth_le_depthCells member
            rw [Sparse.widen, Value.depthCells_widenCells, nested] at below
            exact induction (Nat.le_trans below within) (Nat.le_trans below within')
          · rfl

theorem merge_eq {target other : Sparse Value} (accepts : target.ty.accepts other.ty = true) :
    merge op other target =
      mergeCells op (merge op) (other.widen target.index target.element).cells target := by
  obtain ⟨index, element, cells⟩ := other
  simp only [merge, Value.depth, mergeWithin, accepts, if_true]
  refine congrFun (mergeCells_congr fun cell member b nested => ?_) target
  have below := Value.depth_le_depthCells member
  rw [Sparse.widen, Value.depthCells_widenCells, nested] at below
  exact mergeWithin_eq below (Nat.le_refl _)

end Sparse

/-! One cell after the other. -/

/-- Atoms are added, and arrays tuple by tuple. -/
inductive Value.IsSum (op : Opcode) : Value → Value → Value → Prop
  | atoms {a b sum : Atom} (added : a.add op b = .ok sum) :
      IsSum op (.atom a) (.atom b) (.atom sum)
  /-- The tuples of the second array that the first does not have come behind those of the first.
  Under each tuple of the second is what the first has there, or else a default value, with what the
  second has there added to it; under the others is what the first has. -/
  | arrays {a b sum : Sparse Value} (merged : Sparse.merge op b a = .ok () sum)
      (ty : sum.ty = a.ty)
      (keys : sum.keys = a.keys ++ b.keys.filter fun key => (a.find? key).isNone)
      (once : sum.keys.Pairwise fun key key' => (key == key') = false)
      (kept : ∀ key, b.find? key = none → sum.find? key = a.find? key)
      (found : ∀ key value, b.find? key = some value → ∃ total, sum.find? key = some total)
      (added : ∀ key value total, b.find? key = some value → sum.find? key = some total →
        IsSum op (a.elementAt key) (value.widen a.element) total) :
      IsSum op (.array a) (.array b) (.array sum)

namespace Sparse

/-- What an array is after some cells have been added to it. -/
structure Sums (op : Opcode) (cells : List (Key × Value)) (a sum : Sparse Value) : Prop where
  ty : sum.ty = a.ty
  keys : sum.keys = a.keys ++ (cells.map Prod.fst).filter fun key => (a.find? key).isNone
  kept : ∀ key, (∀ cell ∈ cells, (cell.1 == key) = false) → sum.find? key = a.find? key
  added : ∀ cell ∈ cells, ∀ key, (cell.1 == key) = true →
    ∃ total, sum.find? key = some total ∧ Value.IsSum op (a.elementAt key) cell.2 total

variable {op : Opcode} {a sum : Sparse Value} {key : Key} {value total : Value}
variable {cells : List (Key × Value)} {index : List Scalar} {element : Ty}

theorem sums_nil (op : Opcode) (a : Sparse Value) : Sums op [] a a where
  ty := rfl
  keys := (List.append_nil _).symm
  kept _ _ := rfl
  added := nofun

theorem Sums.cons (first : Value.IsSum op (a.elementAt key) value total)
    (apart : ∀ cell ∈ cells, (key == cell.1) = false) (rest : Sums op cells (a.put key total) sum) :
    Sums op ((key, value) :: cells) a sum where
  ty := rest.ty
  keys := by
    have others : ((cells.map Prod.fst).filter fun key' => ((a.put key total).find? key').isNone) =
        (cells.map Prod.fst).filter fun key' => (a.find? key').isNone := by
      refine List.filter_congr fun key' member => ?_
      obtain ⟨cell, inside, rfl⟩ := List.mem_map.mp member
      rw [find?_put, apart cell inside, if_neg Bool.false_ne_true]
    rw [rest.keys, others, keys_put, List.map_cons, List.filter_cons, List.append_assoc]
    split <;> rfl
  kept := by
    intro key' absent
    obtain ⟨different, absent⟩ := List.forall_mem_cons.mp absent
    rw [rest.kept key' absent, find?_put, different, if_neg Bool.false_ne_true]
  added := by
    refine List.forall_mem_cons.mpr ⟨fun key' here => ?_, fun cell member key' here => ?_⟩
    · have absent : ∀ cell ∈ cells, (cell.1 == key') = false := by
        intro cell member
        rw [BEq.congr_right (BEq.symm here)]
        exact BEq.symm_false (apart cell member)
      refine ⟨total, ?_, ?_⟩
      · rw [rest.kept key' absent, find?_put, here, if_pos rfl]
      · rwa [elementAt, ← find?_congr here]
    · obtain ⟨total', finds, isSum⟩ := rest.added cell member key' here
      refine ⟨total', finds, ?_⟩
      rwa [elementAt_put] at isSum
      rw [← BEq.congr_right here]
      exact apart cell member

end Sparse

namespace Value

/-- Any two values of a type can be added, and the sum is of that type. -/
def Addable (op : Opcode) (ty : Ty) : Prop :=
  ∀ a b : Value, a.HasTy ty → b.HasTy ty → a.Unique → b.Unique →
    ∃ sum, b.combine op (Sparse.merge op) a = .ok () sum ∧ sum.HasTy ty ∧ sum.Unique ∧
      IsSum op a b sum

end Value

namespace Sparse

variable {op : Opcode} {a b : Sparse Value} {cells : List (Key × Value)}
variable {index : List Scalar} {element : Ty}

theorem mergeCells_sums (addable : Value.Addable op element)
    (keys : ∀ cell ∈ cells, cell.1.map Atom.scalar = index)
    (elements : ∀ cell ∈ cells, cell.2.HasTy element ∧ cell.2.Unique)
    (apart : (cells.map Prod.fst).Pairwise fun key key' => (key == key') = false)
    (typed : a.Typed index element) (unique : a.Unique) :
    ∃ sum, mergeCells op (merge op) cells a = .ok () sum ∧ Sums op cells a sum := by
  induction cells generalizing a with
  | nil => exact ⟨a, rfl, sums_nil op a⟩
  | cons cell cells induction =>
      obtain ⟨key, value⟩ := cell
      obtain ⟨exact, keys⟩ := List.forall_mem_cons.mp keys
      obtain ⟨⟨valueTyped, valueUnique⟩, elements⟩ := List.forall_mem_cons.mp elements
      rw [List.map_cons, List.pairwise_cons, List.forall_mem_map] at apart
      obtain ⟨total, combined, totalTyped, totalUnique, isSum⟩ :=
        addable (a.elementAt key) value (elementAt_hasTy typed) valueTyped unique.elementAt
          valueUnique
      have step : editElement (key.map .atom) (value.combine op (merge op)) a =
          .ok () (a.put key total) :=
        editElement_put (exact.trans typed.index_eq.symm) combined
      obtain ⟨sum, run, sums⟩ := induction keys elements apart.2 (typed.put exact totalTyped)
        (unique.put totalUnique)
      refine ⟨sum, ?_, .cons isSum apart.1 sums⟩
      rw [mergeCells_cons]
      change EStateM.bind _ _ a = _
      simp only [EStateM.bind, step, run]

/-! Whole arrays. -/

/-- Only the elements change when the index types stay. -/
theorem Typed.cells_widen_elements (typed : b.Typed index element) (element' : Ty) :
    (b.widen index element').cells = b.cells.map fun cell => (cell.1, cell.2.widen element') := by
  rw [cells_widen]
  refine List.map_congr_left fun cell member => ?_
  obtain rfl := typed.keys cell member
  rw [Key.widen_scalars]

theorem merge_isSum {element' : Ty} (addable : Value.Addable op element)
    (accepts : element.accepts element' = true) (typed : a.Typed index element)
    (otherTyped : b.Typed index element') (unique : a.Unique) (otherUnique : b.Unique)
    (widened : ∀ cell ∈ b.cells, (cell.2.widen element).Unique) :
    ∃ sum, merge op b a = .ok () sum ∧ Value.IsSum op (.array a) (.array b) (.array sum) := by
  have accepted : a.ty.accepts b.ty = true := by
    rw [Sparse.ty, Sparse.ty, typed.index_eq, typed.element_eq, otherTyped.index_eq,
      otherTyped.element_eq, Ty.accepts_array]
    exact ⟨Ty.acceptsIndex_refl index, accepts⟩
  let cells := b.cells.map fun cell => (cell.1, cell.2.widen element)
  have merged : merge op b a = mergeCells op (merge op) cells a := by
    rw [merge_eq accepted, typed.index_eq, typed.element_eq, otherTyped.cells_widen_elements]
  have keys : ∀ cell ∈ cells, cell.1.map Atom.scalar = index :=
    List.forall_mem_map.mpr otherTyped.keys
  have elements : ∀ cell ∈ cells, cell.2.HasTy element ∧ cell.2.Unique :=
    List.forall_mem_map.mpr fun cell member =>
      ⟨(otherTyped.elements cell member).widen accepts, widened cell member⟩
  have tuples : cells.map Prod.fst = b.keys := List.map_map
  obtain ⟨sum, run, sums⟩ :=
    mergeCells_sums addable keys elements (tuples ▸ otherUnique.keys) typed unique
  rw [← merged] at run
  have there (key : Key) (value : Value) (found : b.find? key = some value) :
      ∃ total, sum.find? key = some total ∧
        Value.IsSum op (a.elementAt key) (value.widen element) total := by
    obtain ⟨cell, member, here, rfl⟩ := exists_of_find? found
    exact sums.added _ (List.mem_map_of_mem member) key here
  refine ⟨sum, run, .arrays run sums.ty ?_ ?_ ?_ ?_ ?_⟩
  · rw [sums.keys, tuples]
  · exact ((merge_keepsUnique op b).ok unique run).keys
  · intro key absent
    exact sums.kept key (List.forall_mem_map.mpr (find?_eq_none_iff.mp absent))
  · intro key value found
    obtain ⟨total, finds, -⟩ := there key value found
    exact ⟨total, finds⟩
  · intro key value total found finds
    obtain ⟨total', finds', isSum⟩ := there key value found
    rw [typed.element_eq]
    rwa [Option.some.inj (finds.symm.trans finds')]

end Sparse

theorem Value.addable (op : Opcode) (ty : Ty) : Addable op ty := by
  induction ty with
  | scalar s =>
      intro a b typed otherTyped _ _
      obtain ⟨x, rfl, rfl⟩ := typed.exists_atom
      obtain ⟨y, rfl, same⟩ := otherTyped.exists_atom
      obtain ⟨sum, added, scalar⟩ := Sparse.add_scalar op same
      refine ⟨.atom sum, ?_, scalar ▸ .atom sum, .atom sum, .atoms added⟩
      simp only [combine, addAtoms, added]
      rfl
  | array index element induction =>
      intro a b typed otherTyped unique otherUnique
      obtain ⟨x, rfl, inside⟩ := typed.exists_array
      obtain ⟨y, rfl, otherInside⟩ := otherTyped.exists_array
      rw [unique_array_iff] at unique otherUnique
      obtain ⟨sum, run, isSum⟩ := Sparse.merge_isSum induction (Ty.accepts_refl element) inside
        otherInside unique otherUnique fun cell member => by
          rw [(otherInside.elements cell member).widen_self]
          exact otherUnique.elements cell member
      refine ⟨.array sum, ?_, hasTy_array_iff.mpr ?_, unique_array_iff.mpr ?_, isSum⟩
      · simp only [combine, editArray, run]
      · exact (Sparse.merge_meets op otherInside).ok inside run
      · exact (Sparse.merge_keepsUnique op y).ok unique run

/-- The index types are the same at every depth. -/
def Ty.SameIndexes : Ty → Ty → Prop
  | .scalar _, .scalar _ => True
  | .array index element, .array index' element' => index = index' ∧ SameIndexes element element'
  | _, _ => False

theorem Value.HasTy.apart {v : Value} {ty ty' : Ty} (typed : v.HasTy ty) (unique : v.Unique)
    (same : ty'.SameIndexes ty) : v.Apart ty' := by
  induction typed generalizing ty' with
  | atom a =>
      cases ty' with
      | scalar s => exact .atom a s
      | array index element => cases same
  | @array index element cells keys elements induction =>
      cases ty' with
      | scalar s => cases same
      | array index' element' =>
          obtain ⟨rfl, same⟩ := same
          obtain ⟨different, uniques⟩ := unique_array_iff.mp unique
          refine .array ?_ fun cell member => induction cell member (uniques cell member) same
          have unchanged : ∀ key ∈ Sparse.keys ⟨index', element, cells⟩,
              key.widen index' = key := by
            refine List.forall_mem_map.mpr fun cell member => ?_
            rw [← keys cell member, Key.widen_scalars]
          refine different.imp_of_mem fun {key key'} member member' differ => ?_
          rw [unchanged key member, unchanged key' member']
          exact differ

namespace Sparse

/-- An array can be merged into another one whose type accepts its own, if no two tuples in either
are equal and the index types are the same, and the result is their sum. -/
theorem merge_pointwise (op : Opcode) {a b : Sparse Value} (typed : (Value.array a).WellTyped)
    (otherTyped : (Value.array b).WellTyped) (unique : a.Unique) (otherUnique : b.Unique)
    (same : a.ty.SameIndexes b.ty) (accepts : a.ty.accepts b.ty = true) :
    ∃ sum, merge op b a = .ok () sum ∧ Value.IsSum op (.array a) (.array b) (.array sum) := by
  rw [Value.wellTyped_array_iff] at typed otherTyped
  obtain ⟨indexes, same⟩ := same
  rw [Sparse.ty, Sparse.ty, Ty.accepts_array] at accepts
  refine merge_isSum (Value.addable op a.element) accepts.2 typed (indexes ▸ otherTyped) unique
    otherUnique fun cell member => ?_
  have cellUnique := otherUnique.elements cell member
  exact cellUnique.widen ((otherTyped.elements cell member).apart cellUnique same)

/-- What is there of each good in each size. -/
def stock : Sparse Value :=
  ⟨[.str], .array [.int] .float,
    [([.str "b"], .array ⟨[.int], .float, []⟩),
      ([.str "a"], .array ⟨[.int], .float, [([.int 1], .float 0.5)]⟩)]⟩

/-- Whole numbers of goods, some of them in new sizes. -/
def delivery : Sparse Value :=
  ⟨[.str], .array [.int] .int,
    [([.str "c"], .array ⟨[.int], .int, [([.int 5], .int 6)]⟩),
      ([.str "a"], .array ⟨[.int], .int, [([.int 3], .int 4), ([.int 1], .int 2)]⟩)]⟩

theorem stock_unique : stock.Unique where
  keys := by decide +kernel
  elements := List.forall_mem_cons.mpr ⟨.array .nil nofun, List.forall_mem_singleton.mpr
    (.array (List.pairwise_singleton _ _) (List.forall_mem_singleton.mpr (.atom _)))⟩

theorem delivery_unique : delivery.Unique where
  keys := by decide +kernel
  elements := List.forall_mem_cons.mpr
    ⟨.array (List.pairwise_singleton _ _) (List.forall_mem_singleton.mpr (.atom _)),
      List.forall_mem_singleton.mpr (.array (by decide +kernel)
        (List.forall_mem_cons.mpr ⟨.atom _, List.forall_mem_singleton.mpr (.atom _)⟩))⟩

theorem stock_wellTyped : (Value.array stock).WellTyped :=
  .array (by decide) (List.forall_mem_cons.mpr ⟨.array nofun nofun, List.forall_mem_singleton.mpr
    (.array (by decide) (List.forall_mem_singleton.mpr (.atom (.float _))))⟩)

theorem delivery_wellTyped : (Value.array delivery).WellTyped :=
  .array (by decide) (List.forall_mem_cons.mpr
    ⟨.array (by decide) (List.forall_mem_singleton.mpr (.atom (.int _))),
      List.forall_mem_singleton.mpr (.array (by decide)
        (List.forall_mem_cons.mpr
          ⟨.atom (.int _), List.forall_mem_singleton.mpr (.atom (.int _))⟩))⟩)

/-- A new good comes behind the others, and what is there of a size grows by what is delivered. -/
theorem delivery_merged :
    (Value.array stock).WellTyped ∧ (Value.array delivery).WellTyped ∧ stock.Unique ∧
      delivery.Unique ∧ stock.ty.SameIndexes delivery.ty ∧ stock.ty.accepts delivery.ty = true ∧
      ∃ sum, merge .moveAdd delivery stock = .ok () sum ∧
        Value.IsSum .moveAdd (.array stock) (.array delivery) (.array sum) ∧
        sum.keys = [[.str "b"], [.str "a"], [.str "c"]] := by
  have same : stock.ty.SameIndexes delivery.ty := ⟨rfl, rfl, trivial⟩
  obtain ⟨sum, run, isSum⟩ := merge_pointwise .moveAdd stock_wellTyped delivery_wellTyped
    stock_unique delivery_unique same rfl
  refine ⟨stock_wellTyped, delivery_wellTyped, stock_unique, delivery_unique, same, rfl, sum, run,
    isSum, ?_⟩
  cases isSum with
  | arrays _ _ keys =>
      rw [keys]
      rfl

end Sparse

end StackScript
