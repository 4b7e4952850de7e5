import StackScript.Proofs.Value.Floats
import StackScript.Proofs.Value.Typing

namespace StackScript

/-! Which element of an array an index tuple stands for. A tuple with a NaN in it stands for none:
it is not even equal to itself. -/

def Atom.isNaN : Atom → Bool
  | .float x => x.isNaN
  | .int _ | .str _ | .bool _ => false

def Key.hasNaN (key : Key) : Bool :=
  key.any Atom.isNaN

/-! Equal indexes and keys. -/

theorem Atom.int_beq (m n : Int64) : (Atom.int m == Atom.int n) = (m == n) := rfl

theorem Atom.float_beq (x y : Float) : (Atom.float x == Atom.float y) = (x == y) := rfl

theorem Atom.str_beq (s t : String) : (Atom.str s == Atom.str t) = (s == t) := rfl

theorem Atom.bool_beq (p q : Bool) : (Atom.bool p == Atom.bool q) = (p == q) := rfl

instance : PartialEquivBEq Atom where
  symm {a b} same := by
    cases a <;> cases b <;> try cases same
    case int => rw [Atom.int_beq] at *; exact BEq.symm same
    case float => rw [Atom.float_beq] at *; exact BEq.symm same
    case str => rw [Atom.str_beq] at *; exact BEq.symm same
    case bool => rw [Atom.bool_beq] at *; exact BEq.symm same
  trans {a b c} first second := by
    cases a <;> cases b <;> (try cases first) <;> cases c <;> try cases second
    case int => rw [Atom.int_beq] at *; exact BEq.trans first second
    case float => rw [Atom.float_beq] at *; exact BEq.trans first second
    case str => rw [Atom.str_beq] at *; exact BEq.trans first second
    case bool => rw [Atom.bool_beq] at *; exact BEq.trans first second

instance : PartialEquivBEq Key where
  symm {key key'} same := by
    induction key generalizing key' with
    | nil => cases key' <;> first | rfl | cases same
    | cons a key induction =>
        cases key' with
        | nil => cases same
        | cons b key' =>
            rw [List.cons_beq_cons, Bool.and_eq_true] at same ⊢
            exact ⟨BEq.symm same.1, induction same.2⟩
  trans {key key' key''} first second := by
    induction key generalizing key' key'' with
    | nil => cases key' <;> first | exact second | cases first
    | cons a key induction =>
        cases key' with
        | nil => cases first
        | cons b key' =>
            cases key'' with
            | nil => cases second
            | cons c key'' =>
                rw [List.cons_beq_cons, Bool.and_eq_true] at first second ⊢
                exact ⟨BEq.trans first.1 second.1, induction first.2 second.2⟩

theorem Atom.beq_self {a : Atom} : (a == a) = true ↔ a.isNaN = false := by
  cases a with
  | float x => exact float_beq_self
  | int n => exact ⟨fun _ => rfl, fun _ => beq_self_eq_true n⟩
  | str s => exact ⟨fun _ => rfl, fun _ => beq_self_eq_true s⟩
  | bool b => exact ⟨fun _ => rfl, fun _ => beq_self_eq_true b⟩

theorem Key.beq_self {key : Key} : (key == key) = true ↔ key.hasNaN = false := by
  induction key with
  | nil => exact ⟨fun _ => rfl, fun _ => rfl⟩
  | cons a key induction =>
      rw [List.cons_beq_cons, Bool.and_eq_true, Atom.beq_self, induction, hasNaN, hasNaN,
        List.any_cons, Bool.or_eq_false_iff]

/-- What something else is equal to has no NaN in it. -/
theorem Key.hasNaN_of_beq {key key' : Key} (same : (key == key') = true) : key'.hasNaN = false :=
  Key.beq_self.mp (BEq.trans (BEq.symm same) same)

namespace Sparse

variable {a a' : Sparse Value} {indexes : List Value} {key : Key} {position : Nat}

/-- A fresh element, with the default value, at the end. -/
def extended (a : Sparse Value) (key : Key) : Sparse Value :=
  { a with cells := a.cells ++ [(key, Value.default a.element)] }

theorem materialize_found (checked : a.checkKey indexes = .ok key)
    (found : a.position? key = some position) : materialize indexes a = .ok position a := by
  simp only [materialize, checked, found]

theorem materialize_missing (checked : a.checkKey indexes = .ok key)
    (missing : a.position? key = none) :
    materialize indexes a = .ok a.cells.length (a.extended key) := by
  simp only [materialize, checked, missing]
  rfl

/-- An accepted tuple is found, or is added at the end. -/
theorem materialize_cases (accepted : materialize indexes a = .ok position a') :
    ∃ key, a.checkKey indexes = .ok key ∧
      (a.position? key = some position ∧ a' = a ∨
        a.position? key = none ∧ position = a.cells.length ∧ a' = a.extended key) := by
  cases checked : a.checkKey indexes with
  | error fault =>
      simp only [materialize, checked] at accepted
      cases accepted
  | ok key =>
      refine ⟨key, rfl, ?_⟩
      cases found : a.position? key with
      | some place =>
          rw [materialize_found checked found] at accepted
          cases accepted
          exact .inl ⟨rfl, rfl⟩
      | none =>
          rw [materialize_missing checked found] at accepted
          cases accepted
          exact .inr ⟨rfl, rfl, rfl⟩

theorem checkKey_extended (a : Sparse Value) (key : Key) (indexes : List Value) :
    (a.extended key).checkKey indexes = a.checkKey indexes :=
  rfl

theorem position?_eq_none_iff :
    a.position? key = none ↔ ∀ cell ∈ a.cells, (cell.1 == key) = false := by
  simp [position?, List.findIdx?_eq_none_iff]

theorem position?_extended (missing : a.position? key = none) :
    (a.extended key).position? key = if key.hasNaN then none else some a.cells.length := by
  rw [position?] at missing
  rw [position?, extended, List.findIdx?_append, missing, Option.none_or, List.findIdx?_singleton]
  cases number : key.hasNaN with
  | true =>
      have other : ¬ (key == key) = true := by simp [Key.beq_self, number]
      simp [other]
  | false => simp [Key.beq_self.mpr number]

theorem find?_of_position? (found : a.position? key = some position) :
    ∃ cell, a.cells[position]? = some cell ∧ (cell.1 == key) = true ∧
      a.find? key = some cell.2 := by
  obtain ⟨inside, same, -⟩ := List.findIdx?_eq_some_iff_getElem.mp found
  have there := List.getElem?_eq_getElem inside
  refine ⟨_, there, same, ?_⟩
  rw [position?] at found
  rw [find?, List.find?_eq_bind_findIdx?_getElem?, found, Option.bind_some, there, Option.map_some]

theorem find?_of_position?_none (missing : a.position? key = none) : a.find? key = none := by
  rw [position?] at missing
  rw [find?, List.find?_eq_bind_findIdx?_getElem?, missing, Option.bind_none, Option.map_none]

theorem toKey?_of_checkKey (checked : a.checkKey indexes = .ok key) :
    Value.toKey? indexes = some key := by
  simp only [checkKey] at checked
  split at checked
  · rename_i known
    split at checked
    · rw [known, Except.ok.inj checked]
    · cases checked
  · cases checked

theorem hasNaN_of_position? (found : a.position? key = some position) : key.hasNaN = false := by
  obtain ⟨cell, -, same, -⟩ := find?_of_position? found
  exact Key.hasNaN_of_beq same

/-- The index tuples, in the order of creation. -/
def keys (a : Sparse Value) : List Key :=
  a.cells.map Prod.fst

theorem position?_eq_findIdx?_keys (a : Sparse Value) (key : Key) :
    a.position? key = a.keys.findIdx? (· == key) := by
  rw [position?, keys, List.findIdx?_map]
  rfl

theorem map_fst_set {cells : List (Key × Value)} {cell : Key × Value}
    (there : cells[position]? = some cell) (value : Value) :
    (cells.set position (cell.1, value)).map Prod.fst = cells.map Prod.fst := by
  obtain ⟨inside, rfl⟩ := List.getElem?_eq_some_iff.mp there
  rw [List.map_set, ← List.getElem_map Prod.fst, List.set_getElem_self]
  rwa [List.length_map]

/-- Index values stand for the element at a position: it is found there again, with its value and
with any value that is stored there. -/
structure Resolves (a : Sparse Value) (indexes : List Value) (key : Key) (position : Nat) :
    Prop where
  again : materialize indexes a = .ok position a
  found : ∃ cell, a.cells[position]? = some cell ∧ (cell.1 == key) = true ∧
    a.find? key = some cell.2
  stored : ∀ value, ∃ a', editAt position (set value) a = .ok ⟨⟩ a' ∧
    materialize indexes a' = .ok position a' ∧ a'.find? key = some value

theorem resolves_of_position? (checked : a.checkKey indexes = .ok key)
    (found : a.position? key = some position) : a.Resolves indexes key position := by
  refine ⟨materialize_found checked found, find?_of_position? found, fun value => ?_⟩
  obtain ⟨cell, there, -, -⟩ := find?_of_position? found
  let a' : Sparse Value := { a with cells := a.cells.set position (cell.1, value) }
  have found' : a'.position? key = some position := by
    rw [position?_eq_findIdx?_keys] at found ⊢
    rwa [keys, map_fst_set there]
  refine ⟨a', ?_, materialize_found checked found', ?_⟩
  · simp only [editAt, Edit.atPosition, there, Edit.set_apply, a']
  · obtain ⟨cell', there', -, finds⟩ := find?_of_position? found'
    have inside := (List.getElem?_eq_some_iff.mp there).choose
    rw [List.getElem?_set_self inside] at there'
    rw [finds, ← Option.some.inj there']

/-- The second look finds the element of the first if no index is a NaN; otherwise it never finds
one. Elements that there were before keep their places, keys and values. -/
theorem materialize_identity (accepted : materialize indexes a = .ok position a') :
    (∀ i < a.cells.length, a'.cells[i]? = a.cells[i]?) ∧
      ∃ key, Value.toKey? indexes = some key ∧
        if key.hasNaN then
          position = a.cells.length ∧ a'.find? key = none ∧
            ∃ a'', materialize indexes a' = .ok (position + 1) a''
        else a'.Resolves indexes key position := by
  obtain ⟨key, checked, ⟨found, rfl⟩ | ⟨missing, rfl, rfl⟩⟩ := materialize_cases accepted
  · refine ⟨fun _ _ => rfl, key, toKey?_of_checkKey checked, ?_⟩
    rw [hasNaN_of_position? found, if_neg Bool.false_ne_true]
    exact resolves_of_position? checked found
  · refine ⟨fun i inside => List.getElem?_append_left inside, key, toKey?_of_checkKey checked, ?_⟩
    have checked' := (checkKey_extended a key indexes).trans checked
    have again := position?_extended missing
    split <;> rename_i number
    · rw [if_pos number] at again
      refine ⟨rfl, find?_of_position?_none again, (a.extended key).extended key, ?_⟩
      rw [materialize_missing checked' again, extended, List.length_append]
      rfl
    · rw [if_neg number] at again
      exact resolves_of_position? checked' again

/-- An array with an element for the index 0. -/
def zeroIndexed : Sparse Value where
  index := [.float]
  element := .int
  cells := [([.float 0], .int 5)]

/-- A negative zero stands for the same element. -/
theorem zeroIndexed_resolves_negative_zero :
    materialize [.float (-0)] zeroIndexed = .ok 0 zeroIndexed ∧
      zeroIndexed.Resolves [.float (-0)] [.float (-0)] 0 := by
  have accepted : materialize [.float (-0)] zeroIndexed = .ok 0 zeroIndexed :=
    materialize_found rfl (by decide)
  obtain ⟨-, key, known, resolved⟩ := materialize_identity accepted
  cases known
  rw [if_neg (by decide)] at resolved
  exact ⟨accepted, resolved⟩

/-- A NaN never finds the element that was created for it, and gets another one. -/
theorem nan_materialized_twice :
    let nan : Atom := .float (0 / 0)
    let first := zeroIndexed.extended [nan]
    materialize [.atom nan] zeroIndexed = .ok 1 first ∧ first.find? [nan] = none ∧
      materialize [.atom nan] first = .ok 2 (first.extended [nan]) := by
  have missing : zeroIndexed.position? [.float (0 / 0)] = none := by decide
  have missing' : (zeroIndexed.extended [.float (0 / 0)]).position? [.float (0 / 0)] = none := by
    decide
  exact ⟨materialize_missing rfl missing, find?_of_position?_none missing',
    materialize_missing rfl missing'⟩

end Sparse

end StackScript
