import Mathlib.Data.Fintype.EquivFin
import StackScript.Proofs.Value.Element

namespace StackScript

/-! Arrays are equal if the same tuples have equal elements in them, in whatever order. That a tuple
of the second array is missing in the first is noticed although only the tuples of the first are
looked up: as there are as many, one of those would have to be found twice. -/

/-! Lists with equal entries. -/

section Counting

variable {α : Type} [BEq α] [PartialEquivBEq α] {l m : List α}

/-- Different entries are at different positions of another list. -/
theorem exists_positions (apart : l.Pairwise fun x y => (x == y) = false)
    (inside : ∀ x ∈ l, ∃ y ∈ m, (y == x) = true) :
    ∃ f : Fin l.length → Fin m.length, f.Injective ∧ ∀ i, (m.get (f i) == l.get i) = true := by
  have position (i : Fin l.length) : ∃ j : Fin m.length, (m.get j == l.get i) = true := by
    obtain ⟨y, member, same⟩ := inside (l.get i) (List.get_mem l i)
    obtain ⟨j, rfl⟩ := List.get_of_mem member
    exact ⟨j, same⟩
  choose f same using position
  have different {i j : Fin l.length} (before : i < j) : f i ≠ f j := by
    intro equal
    have first := same i
    rw [equal] at first
    have both := BEq.trans (BEq.symm first) (same j)
    rw [List.pairwise_iff_get.mp apart i j before] at both
    cases both
  refine ⟨f, fun i j equal => ?_, same⟩
  rcases lt_trichotomy i j with before | rfl | behind
  · exact (different before equal).elim
  · rfl
  · exact (different behind equal.symm).elim

theorem length_le_of_apart (apart : l.Pairwise fun x y => (x == y) = false)
    (inside : ∀ x ∈ l, ∃ y ∈ m, (y == x) = true) : l.length ≤ m.length := by
  obtain ⟨f, injective, -⟩ := exists_positions apart inside
  simpa using Fintype.card_le_of_injective f injective

/-- Entries that are different and as many leave none out. -/
theorem covered_of_apart (apart : l.Pairwise fun x y => (x == y) = false)
    (inside : ∀ x ∈ l, ∃ y ∈ m, (y == x) = true) (length : l.length = m.length) :
    ∀ y ∈ m, ∃ x ∈ l, (y == x) = true := by
  intro y member
  obtain ⟨f, injective, same⟩ := exists_positions apart inside
  have bijective := (Fintype.bijective_iff_injective_and_card f).mpr ⟨injective, by simp [length]⟩
  obtain ⟨j, rfl⟩ := List.get_of_mem member
  obtain ⟨i, rfl⟩ := bijective.surjective j
  exact ⟨l.get i, List.get_mem l i, same i⟩

end Counting

/-! What is compared. -/

namespace Value

@[elab_as_elim]
theorem rec_on_elements {motive : Value → Prop} (atom : ∀ a, motive (.atom a))
    (array : ∀ a : Sparse Value, (∀ cell ∈ a.cells, motive cell.2) → motive (.array a)) :
    ∀ v, motive v
  | .atom a => atom a
  | .array ⟨index, element, cells⟩ =>
      array ⟨index, element, cells⟩ fun cell _ => rec_on_elements atom array cell.2
termination_by v => sizeOf v
decreasing_by
  have smaller := List.sizeOf_lt_of_mem ‹cell ∈ _›
  cases cell
  simp only [Value.array.sizeOf_spec, Sparse.mk.sizeOf_spec, Prod.mk.sizeOf_spec] at smaller ⊢
  omega

theorem cellsIn_iff {cells : List (Key × Value)} {b : Sparse Value} :
    cellsIn cells b = true ↔
      ∀ cell ∈ cells, ∃ other, b.find? cell.1 = some other ∧ equalBy cell.2 other = true := by
  induction cells with
  | nil => simp [cellsIn]
  | cons cell cells induction =>
      obtain ⟨key, value⟩ := cell
      rw [cellsIn, Bool.and_eq_true, induction, List.forall_mem_cons]
      refine and_congr_left' ?_
      cases b.find? key <;> simp

theorem holds_iff {index : List Scalar} {element : Ty} {cells : List (Key × Value)} {key : Key}
    {value : Value} :
    holds cells key value = true ↔
      ∃ other, (Sparse.mk index element cells).find? key = some other ∧
        equal other value = true := by
  induction cells with
  | nil => simp [holds, Sparse.find?]
  | cons cell cells induction =>
      rw [holds, Sparse.find?_cons]
      split
      · simp
      · exact induction

/-- Under a key, the elements are compared the other way round. -/
theorem equalBy_eq (v : Value) : ∀ w, equalBy v w = equal w v ∧ equalBy w v = equal v w := by
  induction v using rec_on_elements with
  | atom a => rintro (b | b) <;> simp only [equal, equalBy, and_self]
  | array a induction =>
      obtain ⟨index, element, cells⟩ := a
      rintro (b | ⟨index', element', cells'⟩)
      · simp only [equal, equalBy, and_self]
      · simp only [equal, equalBy]
        constructor
        · congr 1
          rw [Bool.eq_iff_iff, cellsIn_iff, List.all_eq_true]
          refine forall₂_congr fun cell member => ?_
          rw [holds_iff]
          refine exists_congr fun other => and_congr_right fun found => ?_
          obtain ⟨cell', inside, -, rfl⟩ := Sparse.exists_of_find? found
          rw [(induction cell' inside cell.2).2]
        · congr 1
          rw [Bool.eq_iff_iff, cellsIn_iff, List.all_eq_true]
          refine forall₂_congr fun cell member => ?_
          rw [holds_iff]
          refine exists_congr fun other => and_congr_right fun found => ?_
          rw [(induction cell member other).1]

theorem beq_atom (a b : Atom) : (Value.atom a == Value.atom b) = (a == b) := by
  change equal (.atom a) (.atom b) = _
  rw [equal]

theorem beq_atom_array (a : Atom) (b : Sparse Value) :
    (Value.atom a == Value.array b) = false := by
  change equal (.atom a) (.array b) = _
  simp only [equal]

theorem beq_array_atom (a : Sparse Value) (b : Atom) :
    (Value.array a == Value.atom b) = false := by
  change equal (.array a) (.atom b) = _
  simp only [equal]

theorem beq_array_iff {a b : Sparse Value} :
    (Value.array a == Value.array b) = true ↔ a.cells.length = b.cells.length ∧
      ∀ cell ∈ a.cells, ∃ other, b.find? cell.1 = some other ∧ (other == cell.2) = true := by
  change equal (.array a) (.array b) = true ↔ _
  obtain ⟨index, element, cells⟩ := a
  rw [equal, Bool.and_eq_true, beq_iff_eq, cellsIn_iff]
  refine and_congr_right' (forall₂_congr fun cell member => exists_congr fun other => ?_)
  rw [(equalBy_eq cell.2 other).1]
  rfl

end Value

/-! Arrays in which no two tuples are equal. -/

namespace Sparse

variable {a b : Sparse Value} {key : Key} {value : Value}

theorem Unique.find?_eq_some_iff (unique : a.Unique) :
    a.find? key = some value ↔ ∃ cell ∈ a.cells, (cell.1 == key) = true ∧ cell.2 = value := by
  refine ⟨exists_of_find?, ?_⟩
  rintro ⟨cell, member, same, rfl⟩
  rw [← find?_congr same, unique.find? member, Key.hasNaN_of_beq (BEq.symm same),
    if_neg Bool.false_ne_true]

theorem Unique.find?_perm (unique : a.Unique) (unique' : b.Unique) (perm : a.cells.Perm b.cells)
    (key : Key) : a.find? key = b.find? key := by
  ext value
  rw [unique.find?_eq_some_iff, unique'.find?_eq_some_iff]
  simp only [perm.mem_iff]

theorem Unique.perm (unique : a.Unique) (perm : a.cells.Perm b.cells) : b.Unique where
  keys := (perm.map Prod.fst).pairwise unique.keys fun {_ _} => BEq.symm_false
  elements cell member := unique.elements cell (perm.mem_iff.mpr member)

/-- The same tuples have elements, and equal ones. -/
def Agrees (a b : Sparse Value) : Prop :=
  ∀ key, Option.Rel (fun v w : Value => (v == w) = true) (a.find? key) (b.find? key)

end Sparse

namespace Value

/-- There is no NaN in a value, neither as an index. -/
inductive NaNFree : Value → Prop
  | atom {a : Atom} (number : a.isNaN = false) : NaNFree (.atom a)
  | array {a : Sparse Value} (keys : ∀ key ∈ a.keys, key.hasNaN = false)
      (elements : ∀ cell ∈ a.cells, NaNFree cell.2) : NaNFree (.array a)

structure Regular (v : Value) : Prop where
  unique : v.Unique
  numbers : v.NaNFree

theorem regular_array_iff {a : Sparse Value} :
    (Value.array a).Regular ↔
      a.Unique ∧ (∀ key ∈ a.keys, key.hasNaN = false) ∧ ∀ cell ∈ a.cells, cell.2.Regular := by
  constructor
  · rintro ⟨unique, _ | ⟨keys, elements⟩⟩
    rw [unique_array_iff] at unique
    exact ⟨unique, keys, fun cell member => ⟨unique.elements cell member, elements cell member⟩⟩
  · rintro ⟨unique, keys, elements⟩
    exact ⟨unique_array_iff.mpr unique, .array keys fun cell member =>
      (elements cell member).numbers⟩

variable {a b c : Sparse Value} {v w : Value} {cell : Key × Value}

theorem tuples_inside (found : ∀ cell ∈ a.cells, ∃ other, b.find? cell.1 = some other) :
    ∀ key ∈ a.keys, ∃ key' ∈ b.keys, (key' == key) = true := by
  refine List.forall_mem_map.mpr fun cell member => ?_
  obtain ⟨other, found⟩ := found cell member
  obtain ⟨cell', inside, here, -⟩ := Sparse.exists_of_find? found
  exact ⟨cell'.1, List.mem_map_of_mem inside, here⟩

theorem regular_array (apart : a.keys.Pairwise fun key key' => (key == key') = false)
    (numbers : ∀ key ∈ a.keys, key.hasNaN = false) (elements : ∀ cell ∈ a.cells, cell.2.Regular) :
    (Value.array a).Regular :=
  regular_array_iff.mpr
    ⟨⟨apart, fun cell member => (elements cell member).unique⟩, numbers, elements⟩

/-- All tuples of the one array are found in the other, and none is left. -/
theorem covered_of_beq (unique : a.Unique) (same : (Value.array a == Value.array b) = true) :
    ∀ cell' ∈ b.cells, ∃ cell ∈ a.cells, (cell'.1 == cell.1) = true := by
  obtain ⟨length, inside⟩ := beq_array_iff.mp same
  have tuples := tuples_inside fun cell member => (inside cell member).imp fun _ found => found.1
  intro cell' member'
  obtain ⟨key, listed, here⟩ := covered_of_apart unique.keys tuples
    (by simpa only [Sparse.keys, List.length_map] using length) cell'.1
    (List.mem_map_of_mem member')
  obtain ⟨cell, member, rfl⟩ := List.mem_map.mp listed
  exact ⟨cell, member, here⟩

/-! The order of two equal values does not matter. -/

theorem beq_array_symm (unique : a.Unique) (unique' : b.Unique)
    (elements : ∀ cell ∈ a.cells, ∀ cell' ∈ b.cells, (cell'.2 == cell.2) = true →
      (cell.2 == cell'.2) = true)
    (same : (Value.array a == Value.array b) = true) :
    (Value.array b == Value.array a) = true := by
  obtain ⟨length, inside⟩ := beq_array_iff.mp same
  refine beq_array_iff.mpr ⟨length.symm, fun cell' member' => ?_⟩
  obtain ⟨cell, member, here⟩ := covered_of_beq unique same cell' member'
  refine ⟨cell.2, unique.find?_eq_some_iff.mpr ⟨cell, member, BEq.symm here, rfl⟩, ?_⟩
  obtain ⟨other, found, equal⟩ := inside cell member
  rw [unique'.find?_eq_some_iff.mpr ⟨cell', member', here, rfl⟩] at found
  cases found
  exact elements cell member cell' member' equal

theorem Unique.beq_comm (unique : v.Unique) (unique' : w.Unique) :
    (v == w) = true ↔ (w == v) = true := by
  induction unique generalizing w with
  | atom a =>
      rcases w with b | b
      · rw [beq_atom, beq_atom, BEq.comm]
      · rw [beq_atom_array, beq_array_atom]
  | @array a keys elements induction =>
      rcases w with b | b
      · rw [beq_atom_array, beq_array_atom]
      · have uniques : a.Unique := ⟨keys, elements⟩
        have uniques' := unique_array_iff.mp unique'
        constructor
        · refine beq_array_symm uniques uniques' fun cell member cell' member' => ?_
          exact (induction cell member (uniques'.elements cell' member')).mpr
        · refine beq_array_symm uniques' uniques fun cell' member' cell member => ?_
          exact (induction cell member (uniques'.elements cell' member')).mp

/-! Arrays are equal exactly if they agree. -/

theorem agrees_of_beq (unique : a.Unique) (unique' : b.Unique)
    (same : (Value.array a == Value.array b) = true) : a.Agrees b := by
  intro key
  obtain ⟨-, inside⟩ := beq_array_iff.mp same
  cases found : a.find? key with
  | some value =>
      obtain ⟨cell, member, here, rfl⟩ := Sparse.exists_of_find? found
      obtain ⟨other, found', equal⟩ := inside cell member
      rw [Sparse.find?_congr here] at found'
      rw [found']
      obtain ⟨cell', member', -, rfl⟩ := Sparse.exists_of_find? found'
      have comm := (unique.elements cell member).beq_comm (unique'.elements cell' member')
      exact .some (comm.mpr equal)
  | none =>
      have missing : b.find? key = none := by
        rw [Sparse.find?_eq_none_iff] at found ⊢
        intro cell' member'
        rw [← Bool.not_eq_true]
        intro here
        obtain ⟨cell, member, same⟩ := covered_of_beq unique same cell' member'
        have absent := found cell member
        rw [BEq.trans (BEq.symm same) here] at absent
        cases absent
      rw [missing]
      exact .none

theorem Regular.find?_self (regular : (Value.array a).Regular) (member : cell ∈ a.cells) :
    a.find? cell.1 = some cell.2 := by
  obtain ⟨unique, keys, -⟩ := regular_array_iff.mp regular
  rw [unique.find? member, keys cell.1 (List.mem_map_of_mem member), if_neg Bool.false_ne_true]

theorem Regular.found {key : Key} (regular : (Value.array a).Regular)
    (found : a.find? key = some v) : v.Regular := by
  obtain ⟨-, -, elements⟩ := regular_array_iff.mp regular
  obtain ⟨cell, member, -, rfl⟩ := Sparse.exists_of_find? found
  exact elements cell member

/-- In both directions a look-up finds what it looks for, so there are as many tuples. -/
theorem beq_of_agrees (regular : (Value.array a).Regular) (regular' : (Value.array b).Regular)
    (agrees : a.Agrees b) : (Value.array a == Value.array b) = true := by
  obtain ⟨unique, -, elements⟩ := regular_array_iff.mp regular
  obtain ⟨unique', -, elements'⟩ := regular_array_iff.mp regular'
  have inside : ∀ cell ∈ a.cells, ∃ other, b.find? cell.1 = some other ∧
      (other == cell.2) = true := by
    intro cell member
    have there := agrees cell.1
    rw [regular.find?_self member] at there
    generalize found : b.find? cell.1 = other at there
    cases there with
    | some equal =>
        obtain ⟨cell', member', -, rfl⟩ := Sparse.exists_of_find? found
        have comm := (elements cell member).unique.beq_comm (elements' cell' member').unique
        exact ⟨_, rfl, comm.mp equal⟩
  have behind : ∀ cell ∈ b.cells, ∃ other, a.find? cell.1 = some other := by
    intro cell member
    have there := agrees cell.1
    rw [regular'.find?_self member] at there
    generalize a.find? cell.1 = other at there
    cases there with
    | some _ => exact ⟨_, rfl⟩
  have le := length_le_of_apart unique.keys
    (tuples_inside fun cell member => (inside cell member).imp fun _ found => found.1)
  have ge := length_le_of_apart unique'.keys (tuples_inside behind)
  simp only [Sparse.keys, List.length_map] at le ge
  exact beq_array_iff.mpr ⟨Nat.le_antisymm le ge, inside⟩

theorem beq_iff_agrees (regular : (Value.array a).Regular) (regular' : (Value.array b).Regular) :
    (Value.array a == Value.array b) = true ↔ a.Agrees b :=
  ⟨agrees_of_beq (unique_array_iff.mp regular.unique) (unique_array_iff.mp regular'.unique),
    beq_of_agrees regular regular'⟩

/-! Equality of values without a NaN in them is an equivalence. -/

theorem agrees_of_find?_eq (same : ∀ key, a.find? key = b.find? key)
    (elements : ∀ cell ∈ a.cells, (cell.2 == cell.2) = true) : a.Agrees b := by
  intro key
  rw [← same]
  cases found : a.find? key with
  | none => exact .none
  | some value =>
      obtain ⟨cell, member, -, rfl⟩ := Sparse.exists_of_find? found
      exact .some (elements cell member)

theorem Regular.beq_self (regular : v.Regular) : (v == v) = true := by
  induction v using rec_on_elements with
  | atom a =>
      rw [beq_atom, Atom.beq_self]
      cases regular.numbers with
      | atom number => exact number
  | array a induction =>
      obtain ⟨-, -, elements⟩ := regular_array_iff.mp regular
      exact beq_of_agrees regular regular
        (agrees_of_find?_eq (fun _ => rfl) fun cell member =>
          induction cell member (elements cell member))

theorem Regular.beq_trans {x : Value} (regular : v.Regular) (regular' : w.Regular)
    (regular'' : x.Regular) (first : (v == w) = true) (second : (w == x) = true) :
    (v == x) = true := by
  induction v using rec_on_elements generalizing w x with
  | atom a =>
      rcases w with b | b
      · rcases x with c | c
        · rw [beq_atom] at first second ⊢
          exact BEq.trans first second
        · rw [beq_atom_array] at second
          cases second
      · rw [beq_atom_array] at first
        cases first
  | array a induction =>
      rcases w with b | b
      · rw [beq_array_atom] at first
        cases first
      · rcases x with c | c
        · rw [beq_array_atom] at second
          cases second
        · rw [beq_iff_agrees regular regular'] at first
          rw [beq_iff_agrees regular' regular''] at second
          refine beq_of_agrees regular regular'' fun key => ?_
          have here := first key
          have there := second key
          generalize found : a.find? key = value at here ⊢
          generalize found' : b.find? key = value' at here there
          generalize found'' : c.find? key = value'' at there ⊢
          cases here with
          | none =>
              cases there
              exact .none
          | some equal =>
              cases there with
              | some equal' =>
                  obtain ⟨cell, member, -, rfl⟩ := Sparse.exists_of_find? found
                  exact .some (induction cell member (regular.found found) (regular'.found found')
                    (regular''.found found'') equal equal')

theorem Regular.perm (regular : (Value.array a).Regular) (perm : a.cells.Perm b.cells) :
    (Value.array b).Regular := by
  obtain ⟨unique, keys, elements⟩ := regular_array_iff.mp regular
  refine regular_array_iff.mpr ⟨unique.perm perm, fun key member => ?_, fun cell member => ?_⟩
  · exact keys key ((perm.map Prod.fst).mem_iff.mpr member)
  · exact elements cell (perm.mem_iff.mpr member)

theorem beq_of_perm (regular : (Value.array a).Regular) (perm : a.cells.Perm b.cells) :
    (Value.array a == Value.array b) = true := by
  obtain ⟨unique, -, elements⟩ := regular_array_iff.mp regular
  exact beq_of_agrees regular (regular.perm perm)
    (agrees_of_find?_eq (unique.find?_perm (unique.perm perm) perm) fun cell member =>
      (elements cell member).beq_self)

/-- Where no two tuples of an array are equal and there is no NaN, equality is an equivalence. It
does not depend on the order of the elements, and says that the same tuples have equal elements. -/
theorem equality_of_regular :
    Equivalence (fun v w : {v : Value // v.Regular} => (v.1 == w.1) = true) ∧
    ∀ a b : Sparse Value, (Value.array a).Regular →
      (a.cells.Perm b.cells → (Value.array a == Value.array b) = true) ∧
      ((Value.array b).Regular → ((Value.array a == Value.array b) = true ↔ a.Agrees b)) := by
  refine ⟨⟨fun v => v.2.beq_self, fun {v w} => (v.2.unique.beq_comm w.2.unique).mp,
    fun {v w x} => v.2.beq_trans w.2 x.2⟩, fun a b regular => ⟨beq_of_perm regular, ?_⟩⟩
  exact fun regular' => beq_iff_agrees regular regular'

/-- Counts of names, for two numbers. -/
def counts (cells : List (Key × Value)) : Value :=
  .array ⟨[.str], .int, cells⟩

def tally : Sparse Value :=
  ⟨[.float], .array [.str] .int,
    [([.float 0], counts [([.str "a"], .int 1), ([.str "b"], .int 2)]), ([.float 1], counts [])]⟩

/-- With a negative zero, and in another order at both depths. -/
def recount : Sparse Value :=
  ⟨[.float], .array [.str] .int,
    [([.float 1], counts []), ([.float (-0)], counts [([.str "b"], .int 2), ([.str "a"], .int 1)])]⟩

theorem counts_regular {cells : List (Key × Value)}
    (apart : (cells.map Prod.fst).Pairwise fun key key' => (key == key') = false)
    (numbers : ∀ key ∈ cells.map Prod.fst, key.hasNaN = false)
    (ints : ∀ cell ∈ cells, ∃ n, cell.2 = .int n) : (counts cells).Regular := by
  refine regular_array apart numbers fun cell member => ?_
  obtain ⟨n, equal⟩ := ints cell member
  rw [equal]
  exact ⟨.atom _, .atom rfl⟩

theorem tally_regular : (Value.array tally).Regular := by
  refine regular_array (by decide +kernel) (by decide +kernel) ?_
  refine List.forall_mem_cons.mpr ⟨?_, List.forall_mem_singleton.mpr ?_⟩
  · exact counts_regular (by decide +kernel) (by decide +kernel) (by simp)
  · exact counts_regular .nil nofun nofun

theorem recount_regular : (Value.array recount).Regular := by
  refine regular_array (by decide +kernel) (by decide +kernel) ?_
  refine List.forall_mem_cons.mpr ⟨?_, List.forall_mem_singleton.mpr ?_⟩
  · exact counts_regular .nil nofun nofun
  · exact counts_regular (by decide +kernel) (by decide +kernel) (by simp)

theorem tallies_equal :
    let reversed : Sparse Value := { tally with cells := tally.cells.reverse }
    (Value.array tally).Regular ∧ (Value.array recount).Regular ∧
      tally.cells.Perm reversed.cells ∧ (Value.array tally == Value.array reversed) = true ∧
      (Value.array tally == Value.array recount) = true ∧ tally.Agrees recount := by
  intro reversed
  obtain ⟨-, arrays⟩ := equality_of_regular
  have perm : tally.cells.Perm reversed.cells := (List.reverse_perm tally.cells).symm
  have equal : (Value.array tally == Value.array recount) = true := by decide +kernel
  exact ⟨tally_regular, recount_regular, perm, (arrays tally reversed tally_regular).1 perm, equal,
    ((arrays tally recount tally_regular).2 recount_regular).mp equal⟩

end Value

end StackScript
