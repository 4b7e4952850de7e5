import StackScript.Proofs.Value.Atomicity
import StackScript.Proofs.Value.Identity
import StackScript.Proofs.Value.Widening

namespace StackScript

/-! No two elements of an array have equal index tuples, so each element is found under its own. Of
all that is done with arrays, only widening can bring two tuples together: when the same float is
nearest to two ints in them. -/

namespace Value

/-- No two elements of an array have equal keys, at any depth. -/
inductive Unique : Value → Prop
  | atom (a : Atom) : Unique (.atom a)
  | array {a : Sparse Value} (keys : a.keys.Pairwise fun key key' => (key == key') = false)
      (elements : ∀ cell ∈ a.cells, Unique cell.2) : Unique (.array a)

/-- Widening to a type makes no two keys of an array equal. -/
inductive Apart : Value → Ty → Prop
  | same (v : Value) : Apart v v.ty
  | atom (a : Atom) (s : Scalar) : Apart (.atom a) (.scalar s)
  | array {a : Sparse Value} {index : List Scalar} {element : Ty}
      (keys : a.keys.Pairwise fun key key' => (key.widen index == key'.widen index) = false)
      (elements : ∀ cell ∈ a.cells, Apart cell.2 element) : Apart (.array a) (.array index element)

/-- The ints in the keys have at most 53 bits, at every depth. -/
inductive ExactKeys : Value → Prop
  | atom (a : Atom) : ExactKeys (.atom a)
  | array {a : Sparse Value} (keys : ∀ key ∈ a.keys, ∀ n, Atom.int n ∈ key → IsExact n)
      (elements : ∀ cell ∈ a.cells, ExactKeys cell.2) : ExactKeys (.array a)

end Value

structure Sparse.Unique (a : Sparse Value) : Prop where
  keys : a.keys.Pairwise fun key key' => (key == key') = false
  elements : ∀ cell ∈ a.cells, cell.2.Unique

theorem Value.unique_array_iff {a : Sparse Value} : (Value.array a).Unique ↔ a.Unique := by
  constructor
  · rintro (_ | ⟨keys, elements⟩)
    exact ⟨keys, elements⟩
  · exact fun unique => .array unique.keys unique.elements

theorem Value.unique_default (ty : Ty) : (default ty).Unique := by
  cases ty with
  | scalar s => exact .atom _
  | array index element => exact .array .nil nofun

/-! Edits. -/

/-- An edit leaves different keys different, whether or not it faults. -/
def Sparse.KeepsUnique {β : Type} (edit : Edit (Sparse Value) β) : Prop :=
  Meets Unique edit (fun _ => Unique) fun _ => Unique

def Value.KeepsUnique {β : Type} (edit : Edit Value β) : Prop :=
  Meets Unique edit (fun _ => Unique) fun _ => Unique

namespace Sparse

variable {β : Type} {a : Sparse Value} {key : Key} {position : Nat}

theorem Unique.extended (unique : a.Unique) (missing : a.position? key = none) :
    (a.extended key).Unique := by
  rw [position?_eq_none_iff] at missing
  constructor
  · rw [Sparse.keys, Sparse.extended, List.map_append, List.pairwise_append]
    refine ⟨unique.keys, List.pairwise_singleton _ _, ?_⟩
    intro key' old new fresh
    obtain ⟨cell, member, rfl⟩ := List.mem_map.mp old
    rw [List.mem_singleton.mp fresh]
    exact missing cell member
  · intro cell member
    rcases List.mem_append.mp member with old | fresh
    · exact unique.elements cell old
    · rw [List.mem_singleton.mp fresh]
      exact Value.unique_default _

theorem Unique.set {cell : Key × Value} {value : Value} (unique : a.Unique)
    (there : a.cells[position]? = some cell) (valueUnique : value.Unique) :
    Unique { a with cells := a.cells.set position (cell.1, value) } := by
  constructor
  · rw [Sparse.keys, map_fst_set there]
    exact unique.keys
  · intro other member
    rcases List.mem_or_eq_of_mem_set member with old | rfl
    · exact unique.elements other old
    · exact valueUnique

theorem materialize_keepsUnique (indexes : List Value) : KeepsUnique (materialize indexes) := by
  intro a unique
  cases run : materialize indexes a with
  | ok position a' =>
      obtain ⟨key, -, ⟨-, rfl⟩ | ⟨missing, -, rfl⟩⟩ := materialize_cases run
      · exact unique
      · exact unique.extended missing
  | error fault a' =>
      unfold materialize at run
      split at run
      · cases run
        exact unique
      · split at run <;> cases run

theorem editAt_keepsUnique {edit : Edit Value β} (keeps : Value.KeepsUnique edit)
    (position : Nat) : KeepsUnique (editAt position edit) := by
  intro a unique
  unfold editAt Edit.atPosition
  cases there : a.cells[position]? with
  | none => exact unique
  | some cell =>
      have edited := keeps cell.2 (unique.elements cell (List.mem_of_getElem? there))
      simp only
      cases run : edit cell.2 with
      | ok _ value =>
          rw [run] at edited
          exact unique.set there edited
      | error _ value =>
          rw [run] at edited
          exact unique.set there edited

theorem editElement_keepsUnique {edit : Edit Value β} (keeps : Value.KeepsUnique edit)
    (indexes : List Value) : KeepsUnique (editElement indexes edit) :=
  Meets.bind (materialize_keepsUnique indexes) fun position => editAt_keepsUnique keeps position

end Sparse

theorem Value.keepsUnique_editArray {β : Type} {edit : Edit (Sparse Value) β}
    (keeps : Sparse.KeepsUnique edit) : KeepsUnique (editArray edit) := by
  rintro (x | a) unique
  · exact unique
  · refine (editArray_meets keeps).mono (fun _ whole => whole) ?_ ?_ (.array a)
      ⟨a, rfl, unique_array_iff.mp unique⟩
    · rintro b _ ⟨a', rfl, whole⟩
      exact unique_array_iff.mpr whole
    · rintro fault _ ⟨a', rfl, whole⟩
      exact unique_array_iff.mpr whole

/-! Whatever is merged into an array, its elements are looked up there one by one. -/

namespace Sparse

variable {op : Opcode}

theorem mergeCells_keepsUnique {inner : Sparse Value → Edit (Sparse Value) Unit}
    (keeps : ∀ other, KeepsUnique (inner other)) (cells : List (Key × Value)) :
    KeepsUnique (mergeCells op inner cells) := by
  induction cells with
  | nil => exact Meets.pure fun _ unique => unique
  | cons cell cells induction =>
      obtain ⟨key, value⟩ := cell
      refine Meets.bind (editElement_keepsUnique ?_ _) fun _ => induction
      rintro (x | a) unique
      · rcases value with y | b
        · simp only [Value.addAtoms]
          cases x.add op y with
          | ok sum => exact .atom sum
          | error fault => exact unique
        · exact unique
      · rcases value with y | b
        · exact unique
        · exact Value.keepsUnique_editArray (keeps b) _ unique

theorem mergeWithin_keepsUnique (depth : Nat) (other : Sparse Value) :
    KeepsUnique (mergeWithin op depth other) := by
  induction depth generalizing other with
  | zero => exact Meets.pure fun _ unique => unique
  | succ depth induction =>
      intro target unique
      simp only [mergeWithin]
      cases target.ty.accepts other.ty with
      | true => exact mergeCells_keepsUnique induction _ target unique
      | false => exact unique

theorem merge_keepsUnique (op : Opcode) (other : Sparse Value) : KeepsUnique (merge op other) :=
  mergeWithin_keepsUnique _ other

end Sparse

/-! Widening. -/

namespace Value

variable {v : Value} {ty : Ty}

theorem Unique.widen (unique : v.Unique) (apart : v.Apart ty) : (v.widen ty).Unique := by
  induction apart with
  | same v => rwa [widen_ty]
  | atom a s => exact .atom _
  | @array a index element keys elements induction =>
      obtain ⟨index', element', cells⟩ := a
      simp only [Value.widen]
      split
      · exact unique
      · refine .array ?_ ?_
        · rw [Sparse.keys, map_fst_widenCells, List.pairwise_map]
          exact keys
        · intro cell member
          obtain ⟨key, value, inside, rfl⟩ := mem_widenCells member
          exact induction _ inside ((unique_array_iff.mp unique).elements _ inside)

end Value

/-- Ints of at most 53 bits stay different, and so do all other indexes. -/
theorem Atom.beq_of_widen {a b : Atom} {s : Scalar} (same : a.scalar = b.scalar)
    (exactA : ∀ n, a = .int n → IsExact n) (exactB : ∀ n, b = .int n → IsExact n)
    (equal : (a.widen s == b.widen s) = true) : (a == b) = true := by
  cases a <;> cases b <;> cases same
  case int m n =>
    cases s with
    | float =>
        rw [nearestFloat_inj (exactA m rfl) (exactB n rfl) equal]
        exact Atom.beq_self.mpr rfl
    | int => exact equal
    | str => exact equal
    | bool => exact equal
  all_goals exact equal

theorem Key.beq_of_widen {key key' : Key} {index : List Scalar}
    (same : key.map Atom.scalar = key'.map Atom.scalar)
    (accepts : Ty.acceptsIndex index (key.map Atom.scalar) = true)
    (exact : ∀ n, Atom.int n ∈ key → IsExact n) (exact' : ∀ n, Atom.int n ∈ key' → IsExact n)
    (equal : (key.widen index == key'.widen index) = true) : (key == key') = true := by
  induction key generalizing key' index with
  | nil =>
      rw [List.map_nil, eq_comm, List.map_eq_nil_iff] at same
      rw [same]
      rfl
  | cons a key induction =>
      cases key' with
      | nil => cases same
      | cons b key' =>
          cases index with
          | nil => simp [Ty.acceptsIndex] at accepts
          | cons s index =>
              simp only [List.map_cons, List.cons.injEq, Ty.acceptsIndex, Bool.and_eq_true]
                at same accepts
              simp only [Key.widen, List.zipWith_cons_cons, List.cons_beq_cons, Bool.and_eq_true]
                at equal
              rw [List.cons_beq_cons, Bool.and_eq_true]
              constructor
              · exact Atom.beq_of_widen same.1 (fun n here => exact n (here ▸ List.mem_cons_self))
                  (fun n here => exact' n (here ▸ List.mem_cons_self)) equal.1
              · exact induction same.2 accepts.2
                  (fun n member => exact n (List.mem_cons_of_mem a member))
                  (fun n member => exact' n (List.mem_cons_of_mem b member)) equal.2

namespace Value

theorem apart_of_exactKeys {v : Value} {ty ty' : Ty} (typed : v.HasTy ty) (unique : v.Unique)
    (exact : v.ExactKeys) (accepts : ty'.accepts ty = true) : v.Apart ty' := by
  induction typed generalizing ty' with
  | atom a =>
      cases ty' with
      | array index element => simp [Ty.accepts] at accepts
      | scalar s => exact .atom a s
  | @array index element cells keys elements induction =>
      cases ty' with
      | scalar s => simp [Ty.accepts] at accepts
      | array index' element' =>
          simp only [Ty.accepts, Bool.and_eq_true] at accepts
          obtain ⟨different, uniques⟩ := unique_array_iff.mp unique
          obtain - | ⟨exactHere, exactBelow⟩ := exact
          refine .array ?_ fun cell member =>
            induction cell member (uniques cell member) (exactBelow cell member) accepts.2
          refine different.imp_of_mem fun {key key'} member member' differ => ?_
          have scalars : ∀ key ∈ Sparse.keys ⟨index, element, cells⟩,
              key.map Atom.scalar = index := by
            intro key member
            obtain ⟨cell, inside, rfl⟩ := List.mem_map.mp member
            exact keys cell inside
          rw [← Bool.not_eq_true] at differ ⊢
          intro equal
          apply differ
          exact Key.beq_of_widen ((scalars key member).trans (scalars key' member').symm)
            ((scalars key member).symm ▸ accepts.1) (exactHere key member)
            (exactHere key' member') equal

/-! Assignment. -/

theorem add_unique {op : Opcode} {a b : Value} (unique : a.Unique) :
    Outcome (add op a b) Unique fun _ => True := by
  refine add_meets .atom ?_
  rintro target source rfl rfl
  exact unique_array_iff.mpr
    ((Sparse.merge_keepsUnique op source).outcome (unique_array_iff.mp unique))

theorem update_keepsUnique {operator : Value → Except Fault Value}
    (unique : ∀ cell : Value, cell.Unique → Outcome (operator cell) Unique fun _ => True) :
    KeepsUnique (update operator) := by
  intro cell cellUnique
  have computed := unique cell cellUnique
  simp only [update]
  cases run : operator cell with
  | ok result =>
      rw [run] at computed
      exact computed
  | error fault => exact cellUnique

theorem store_unique (unique : v.Unique) {cell : Value}
    (apart : cell.ty.accepts v.ty = true → v.Apart cell.ty) :
    Meets (fun start => start = cell ∧ start.Unique) (store v) (fun _ => Unique)
      fun _ => Unique := by
  rintro cell ⟨rfl, cellUnique⟩
  generalize run : store v cell = result
  unfold store at run
  split at run
  · subst run
    exact .atom _
  · split at run <;> subst run
    · exact unique.widen (apart ‹_›)
    · exact cellUnique
  · split at run <;> subst run
    · exact unique
    · exact cellUnique

/-- Only plain assignment widens. -/
theorem assign_unique (op : Opcode) (unique : v.Unique) {cell : Value}
    (apart : op = .move → cell.ty.accepts v.ty = true → v.Apart cell.ty) :
    Meets (fun start => start = cell ∧ start.Unique) (assign op v) (fun _ => Unique)
      fun _ => Unique := by
  rintro cell ⟨rfl, cellUnique⟩
  generalize run : assign op v cell = result
  unfold assign at run
  split at run
  · subst run
    exact store_unique unique (apart (Update.opcode_of_ofOpcode? ‹_›).symm) _ ⟨rfl, cellUnique⟩
  · subst run
    exact cellUnique
  · subst run
    exact keepsUnique_editArray (Sparse.merge_keepsUnique op _) _ cellUnique
  · subst run
    exact update_keepsUnique (fun _ => add_unique) _ cellUnique
  · subst run
    exact update_keepsUnique (fun _ _ => sub_meets .atom) _ cellUnique
  · subst run
    exact update_keepsUnique (fun _ _ => mul_meets .atom) _ cellUnique
  · split at run <;> subst run
    · exact cellUnique
    · exact update_keepsUnique (fun _ _ => div_meets .atom) _ cellUnique
  · subst run
    exact update_keepsUnique (fun _ _ => div_meets .atom) _ cellUnique
  · subst run
    exact cellUnique

/-! Histories. -/

/-- What becomes of empty arrays when they are looked into, merged, assigned and widened, themselves
or their elements. A fault keeps the changes made before it. Widening is subject to `admits`. -/
inductive Obtained (admits : Value → Ty → Prop) : Value → Prop
  | atom (a : Atom) : Obtained admits (.atom a)
  | empty (index : List Scalar) (element : Ty) : Obtained admits (default (.array index element))
  | materialize {a : Sparse Value} (indexes : List Value) (whole : Obtained admits (.array a)) :
      Obtained admits (.array (Edit.outcome (Sparse.materialize indexes) a).2)
  | merge {a b : Sparse Value} (op : Opcode) (whole : Obtained admits (.array a))
      (source : Obtained admits (.array b)) :
      Obtained admits (.array (Edit.outcome (Sparse.merge op b) a).2)
  | assign {cell v : Value} (op : Opcode) (whole : Obtained admits cell)
      (source : Obtained admits v)
      (admitted : op = .move → cell.ty.accepts v.ty = true → admits v cell.ty) :
      Obtained admits (Edit.outcome (assign op v) cell).2
  | widen {v : Value} {ty : Ty} (whole : Obtained admits v) (accepts : ty.accepts v.ty = true)
      (admitted : admits v ty) : Obtained admits (v.widen ty)
  | element {a : Sparse Value} {cell : Key × Value} (whole : Obtained admits (.array a))
      (member : cell ∈ a.cells) : Obtained admits cell.2
  /-- Elements change in the ways that values do. -/
  | within {a : Sparse Value} {position : Nat} {cell : Key × Value} {v : Value}
      (whole : Obtained admits (.array a)) (there : a.cells[position]? = some cell)
      (changed : Obtained admits v) (same : v.ty = cell.2.ty) :
      Obtained admits (.array { a with cells := a.cells.set position (cell.1, v) })

theorem Obtained.wellTyped {admits : Value → Ty → Prop} {v : Value} (obtained : Obtained admits v) :
    v.WellTyped := by
  induction obtained with
  | atom a => exact wellTyped_atom a
  | empty index element => exact (hasTy_default _).wellTyped
  | @materialize a indexes whole typed =>
      have kept := ((Sparse.materialize_meets indexes).mono (fun _ typed => typed)
        (fun _ _ found => found.1) (fun _ _ fault => fault.1)).outcome
        (wellTyped_array_iff.mp typed)
      exact (hasTy_array_iff.mpr kept).wellTyped
  | @merge a b op whole source typed sourceTyped =>
      have kept := (Sparse.merge_preserves op (wellTyped_array_iff.mp sourceTyped)).outcome
        (wellTyped_array_iff.mp typed)
      exact (hasTy_array_iff.mpr kept).wellTyped
  | @assign cell v op whole source admitted typed sourceTyped =>
      unfold Edit.outcome
      cases run : Value.assign op v cell with
      | ok _ cell' => exact (assign_ok typed sourceTyped run).wellTyped
      | error fault cell' => rwa [assign_error typed sourceTyped run]
  | widen whole accepts admitted typed => exact (HasTy.widen typed accepts).wellTyped
  | element whole member typed =>
      exact ((wellTyped_array_iff.mp typed).elements _ member).wellTyped
  | @within a position cell v whole there changed same typed changedTyped =>
      have inside := wellTyped_array_iff.mp typed
      have member := List.mem_of_getElem? there
      refine wellTyped_array_iff.mpr ⟨rfl, rfl, ?_, ?_⟩ <;> intro other put <;>
        rcases List.mem_or_eq_of_mem_set put with old | rfl
      · exact inside.keys other old
      · exact inside.keys cell member
      · exact inside.elements other old
      · have typed : v.HasTy v.ty := changedTyped
        rwa [same, (inside.elements cell member).ty_eq] at typed

theorem Obtained.extended {admits : Value → Ty → Prop} {a : Sparse Value} {key : Key}
    (whole : Obtained admits (.array a)) (exact : key.map Atom.scalar = a.index)
    (missing : a.position? key = none) : Obtained admits (.array (a.extended key)) := by
  have added := whole.materialize (key.map .atom)
  unfold Edit.outcome at added
  rwa [Sparse.materialize_missing (Sparse.checkKey_map_atom exact) missing] at added

theorem Obtained.unique {v : Value} (obtained : Obtained Apart v) : v.Unique := by
  induction obtained with
  | atom a => exact .atom a
  | empty index element => exact unique_default _
  | materialize indexes whole unique =>
      exact unique_array_iff.mpr
        ((Sparse.materialize_keepsUnique indexes).outcome (unique_array_iff.mp unique))
  | merge op whole source unique sourceUnique =>
      exact unique_array_iff.mpr
        ((Sparse.merge_keepsUnique op _).outcome (unique_array_iff.mp unique))
  | assign op whole source apart unique sourceUnique =>
      exact (assign_unique op sourceUnique apart).outcome ⟨rfl, unique⟩
  | widen whole accepts apart unique => exact unique.widen apart
  | element whole member unique => exact (unique_array_iff.mp unique).elements _ member
  | within whole there changed same unique changedUnique =>
      exact unique_array_iff.mpr ((unique_array_iff.mp unique).set there changedUnique)

end Value

/-- Every element is found under its key, unless there is a NaN in the key. -/
theorem Sparse.Unique.find? {a : Sparse Value} (unique : a.Unique) {cell : Key × Value}
    (member : cell ∈ a.cells) :
    a.find? cell.1 = if cell.1.hasNaN then none else some cell.2 := by
  split <;> rename_i number
  · apply Sparse.find?_of_position?_none
    rw [Sparse.position?_eq_none_iff]
    intro other _
    rw [← Bool.not_eq_true]
    intro same
    rw [Key.hasNaN_of_beq same] at number
    contradiction
  · obtain ⟨i, inside, rfl⟩ := List.getElem_of_mem member
    have found : a.position? a.cells[i].1 = some i := by
      refine List.findIdx?_eq_some_iff_getElem.mpr
        ⟨inside, Key.beq_self.mpr (Bool.eq_false_iff.mpr number), fun j before => ?_⟩
      have different := List.pairwise_iff_getElem.mp (List.pairwise_map.mp unique.keys) j i
        (Nat.lt_trans before inside) inside before
      rw [different]
      exact Bool.false_ne_true
    obtain ⟨cell, there, -, finds⟩ := Sparse.find?_of_position? found
    rw [finds, Option.some.inj ((List.getElem?_eq_getElem inside).symm.trans there)]

namespace Value

/-- Each element that an array has at the end of a history is found under its key, at every depth,
if widening has brought no two keys together; and it does not, if the ints in the keys have at most
53 bits. Only elements with a NaN in the key are never found. -/
theorem Obtained.indexes_unique {v : Value} (obtained : Obtained Apart v) :
    v.Unique ∧
      (∀ a cell, v = .array a → cell ∈ a.cells →
        a.find? cell.1 = if cell.1.hasNaN then none else some cell.2) ∧
      ∀ ty, ty.accepts v.ty = true → v.ExactKeys → v.Apart ty := by
  refine ⟨obtained.unique, ?_, ?_⟩
  · rintro a cell rfl member
    exact (unique_array_iff.mp obtained.unique).find? member
  · exact fun ty accepts exact =>
      apart_of_exactKeys obtained.wellTyped obtained.unique exact accepts

/-- An array of strings with elements for two ints. -/
def twoInts (m n : Int64) : Sparse Value :=
  Sparse.extended (Sparse.extended ⟨[.int], .str, []⟩ [.int m]) [.int n]

theorem twoInts_obtained {admits : Value → Ty → Prop} {m n : Int64} (different : (m == n) = false) :
    Obtained admits (.array (twoInts m n)) := by
  refine ((Obtained.empty [.int] .str).extended rfl rfl).extended rfl ?_
  rw [Sparse.position?_eq_none_iff]
  refine List.forall_mem_singleton.mpr ?_
  rw [List.cons_beq_cons, Atom.int_beq, different, Bool.false_and]

theorem twoInts_exactKeys {m n : Int64} (exactM : IsExact m) (exactN : IsExact n) :
    ExactKeys (.array (twoInts m n)) := by
  refine .array ?_ ?_
  · change ∀ key ∈ [[Atom.int m], [Atom.int n]], _
    simp only [List.forall_mem_cons, List.mem_singleton, Atom.int.injEq, forall_eq]
    exact ⟨exactM, exactN⟩
  · change ∀ cell ∈ [([Atom.int m], default .str), ([Atom.int n], default .str)], _
    simp only [List.forall_mem_cons]
    exact ⟨.atom _, .atom _, nofun⟩

/-- Widened to floats, 1 and the greatest int of 53 bits stay different. -/
theorem twoInts_indexes_unique :
    let ints := Value.array (twoInts 1 9007199254740991)
    let floats := ints.widen (.array [.float] .str)
    Obtained Apart ints ∧ ints.ExactKeys ∧ Obtained Apart floats ∧ floats.Unique := by
  have obtained : Obtained Apart (.array (twoInts 1 9007199254740991)) :=
    twoInts_obtained (by decide)
  have exact : ExactKeys (.array (twoInts 1 9007199254740991)) :=
    twoInts_exactKeys (by decide) (by decide)
  obtain ⟨-, -, apart⟩ := obtained.indexes_unique
  have widened := obtained.widen rfl (apart (.array [.float] .str) rfl exact)
  exact ⟨obtained, exact, widened, widened.indexes_unique.1⟩

/-- The same float is nearest to two ints that follow each other, so each of two elements is widened
to the same key. -/
theorem neighbours_collide :
    let ints := Value.array (twoInts 9007199254740992 9007199254740993)
    let floats := ints.widen (.array [.float] .str)
    Obtained (fun _ _ => True) floats ∧ ¬ floats.Unique := by
  refine ⟨(twoInts_obtained (by decide)).widen rfl trivial, fun unique => ?_⟩
  cases (unique_array_iff.mp unique).keys with
  | cons first _ =>
      have same := first _ List.mem_cons_self
      revert same
      decide

end Value

end StackScript
