namespace StackScript

/-! Under each name the places where it stands in a list that grows at its end. -/

/-- The names stand in the order in which they come up. -/
structure NameIndex where
  entries : List (String × List Nat)
  deriving DecidableEq, Repr

namespace NameIndex

def empty : NameIndex where
  entries := []

/-- The places under a name, of which an unknown name has none. -/
def places (index : NameIndex) (name : String) : List Nat :=
  (index.entries.lookup name).getD []

/-- Puts a place behind the others of its name. -/
def insert (name : String) (place : Nat) : List (String × List Nat) → List (String × List Nat)
  | [] => [(name, [place])]
  | (other, places) :: rest =>
      if other = name then (other, places ++ [place]) :: rest
      else (other, places) :: insert name place rest

def push (index : NameIndex) (name : String) (place : Nat) : NameIndex where
  entries := insert name place index.entries

theorem lookup_insert (name name' : String) (place : Nat) (entries : List (String × List Nat)) :
    ((insert name place entries).lookup name').getD [] =
      (entries.lookup name').getD [] ++ if name = name' then [place] else [] := by
  induction entries with
  | nil =>
      by_cases same : name = name'
      · simp [insert, same]
      · simp [insert, List.lookup_cons, same, beq_false_of_ne (Ne.symm same)]
  | cons entry rest induction =>
      obtain ⟨other, places⟩ := entry
      by_cases here : other = name
      · subst here
        by_cases same : other = name'
        · simp [insert, same]
        · simp [insert, List.lookup_cons, same, beq_false_of_ne (Ne.symm same)]
      · rw [insert, if_neg here, List.lookup_cons, List.lookup_cons]
        cases found : name' == other with
        | true =>
            obtain rfl := eq_of_beq found
            simp [Ne.symm here]
        | false => exact induction

theorem places_push (index : NameIndex) (name name' : String) (place : Nat) :
    (index.push name place).places name' =
      index.places name' ++ if name = name' then [place] else [] :=
  lookup_insert name name' place index.entries

/-- An index is in step with a list if it has all places of each name, in their order. -/
def InStep (index : NameIndex) (names : List String) : Prop :=
  ∀ name, index.places name =
    (List.range names.length).filter fun place => names[place]? = some name

theorem inStep_empty : empty.InStep [] :=
  fun _ => rfl

theorem InStep.push {index : NameIndex} {names : List String} (inStep : index.InStep names)
    (name : String) : (index.push name names.length).InStep (names ++ [name]) := by
  intro name'
  have before : (List.range names.length).filter
      (fun place => (names ++ [name])[place]? = some name') = index.places name' := by
    rw [inStep]
    refine List.filter_congr fun place inside => ?_
    rw [List.getElem?_append_left (List.mem_range.mp inside)]
  have last : (names ++ [name])[names.length]? = some name := List.getElem?_concat_length
  rw [places_push, List.length_append, List.length_singleton, List.range_succ,
    List.filter_append, before, List.filter_cons, List.filter_nil, last]
  simp

theorem InStep.mem_places {index : NameIndex} {names : List String} (inStep : index.InStep names)
    {name : String} {place : Nat} :
    place ∈ index.places name ↔ names[place]? = some name := by
  rw [inStep, List.mem_filter, List.mem_range, decide_eq_true_eq, and_iff_right_iff_imp]
  exact fun here => (List.getElem?_eq_some_iff.mp here).1

end NameIndex

end StackScript
