import StackScript.Proofs.Triple
import StackScript.Proofs.Ty.Acceptance
import StackScript.Value.Widening

namespace StackScript

/-! Values that have a type at every depth, and edits that keep the type of what they edit. -/

/-- The keys of an array have the declared index types, and its elements the declared type. -/
inductive Value.HasTy : Value → Ty → Prop
  | atom (a : Atom) : HasTy (.atom a) (.scalar a.scalar)
  | array {index : List Scalar} {element : Ty} {cells : List (Key × Value)}
      (keys : ∀ cell ∈ cells, cell.1.map Atom.scalar = index)
      (elements : ∀ cell ∈ cells, HasTy cell.2 element) :
      HasTy (.array ⟨index, element, cells⟩) (.array index element)

structure Sparse.Typed (a : Sparse Value) (index : List Scalar) (element : Ty) : Prop where
  index_eq : a.index = index
  element_eq : a.element = element
  keys : ∀ cell ∈ a.cells, cell.1.map Atom.scalar = index
  elements : ∀ cell ∈ a.cells, cell.2.HasTy element

/-- A value of a static type: where a float is expected there may be an int. -/
def Value.Fits (v : Value) (ty : Ty) : Prop :=
  v.HasTy ty ∨ ty = .float ∧ v.HasTy .int

namespace Value

theorem HasTy.ty_eq {v : Value} {ty : Ty} (typed : v.HasTy ty) : v.ty = ty := by
  cases typed <;> rfl

theorem hasTy_array_iff {a : Sparse Value} {index : List Scalar} {element : Ty} :
    (Value.array a).HasTy (.array index element) ↔ a.Typed index element := by
  constructor
  · intro typed
    cases typed with
    | array keys elements => exact ⟨rfl, rfl, keys, elements⟩
  · intro typed
    obtain ⟨index', element', cells⟩ := a
    obtain ⟨rfl, rfl, keys, elements⟩ := typed
    exact .array keys elements

theorem HasTy.exists_atom {v : Value} {s : Scalar} (typed : v.HasTy (.scalar s)) :
    ∃ a : Atom, v = .atom a ∧ a.scalar = s := by
  cases typed with
  | atom a => exact ⟨a, rfl, rfl⟩

theorem HasTy.exists_array {v : Value} {index : List Scalar} {element : Ty}
    (typed : v.HasTy (.array index element)) :
    ∃ a : Sparse Value, v = .array a ∧ a.Typed index element := by
  cases typed with
  | array keys elements => exact ⟨_, rfl, rfl, rfl, keys, elements⟩

theorem HasTy.exists_int {v : Value} (typed : v.HasTy .int) : ∃ n, v = .int n := by
  obtain ⟨a, rfl, scalar⟩ := typed.exists_atom
  cases a with
  | int n => exact ⟨n, rfl⟩
  | _ => cases scalar

theorem HasTy.exists_float {v : Value} (typed : v.HasTy .float) : ∃ x, v = .float x := by
  obtain ⟨a, rfl, scalar⟩ := typed.exists_atom
  cases a with
  | float x => exact ⟨x, rfl⟩
  | _ => cases scalar

theorem HasTy.exists_str {v : Value} (typed : v.HasTy .str) : ∃ s, v = .str s := by
  obtain ⟨a, rfl, scalar⟩ := typed.exists_atom
  cases a with
  | str s => exact ⟨s, rfl⟩
  | _ => cases scalar

theorem HasTy.exists_bool {v : Value} (typed : v.HasTy .bool) : ∃ b, v = .bool b := by
  obtain ⟨a, rfl, scalar⟩ := typed.exists_atom
  cases a with
  | bool b => exact ⟨b, rfl⟩
  | _ => cases scalar

theorem hasTy_int (n : Int64) : HasTy (.int n) .int := .atom (.int n)

theorem hasTy_float (x : Float) : HasTy (.float x) .float := .atom (.float x)

theorem hasTy_str (s : String) : HasTy (.str s) .str := .atom (.str s)

theorem hasTy_bool (b : Bool) : HasTy (.bool b) .bool := .atom (.bool b)

theorem hasTy_default (ty : Ty) : (default ty).HasTy ty := by
  cases ty with
  | scalar s => simpa [default] using HasTy.atom (Atom.default s)
  | array index element => exact .array (by simp) (by simp)

theorem HasTy.fits {v : Value} {ty : Ty} (typed : v.HasTy ty) : v.Fits ty :=
  .inl typed

theorem Fits.hasTy {v : Value} {ty : Ty} (fits : v.Fits ty) (other : ty ≠ .float) :
    v.HasTy ty := by
  rcases fits with typed | ⟨float, -⟩
  · exact typed
  · exact absurd float other

theorem Fits.assign {v : Value} {target ty : Ty} (fits : v.Fits ty)
    (assignable : target.assignable ty = true) : v.Fits target := by
  simp only [Ty.assignable, Bool.or_eq_true, Bool.and_eq_true, decide_eq_true_eq] at assignable
  rcases assignable with rfl | ⟨rfl, numeric⟩
  · exact fits
  · cases ty with
    | array index element => simp [Ty.isNumeric] at numeric
    | scalar s =>
        cases s with
        | int => exact .inr ⟨rfl, fits.hasTy (by simp)⟩
        | float => exact fits
        | _ => simp [Ty.isNumeric, Scalar.isNumeric] at numeric

theorem Fits.numeric {v : Value} {ty : Ty} (fits : v.Fits ty) (numeric : ty.isNumeric = true) :
    (∃ n, v = .int n) ∨ ∃ x, v = .float x := by
  cases ty with
  | array index element => simp [Ty.isNumeric] at numeric
  | scalar s =>
      cases s with
      | int => exact .inl (fits.hasTy (by simp)).exists_int
      | float =>
          rcases fits with float | ⟨-, int⟩
          · exact .inr float.exists_float
          · exact .inl int.exists_int
      | _ => simp [Ty.isNumeric, Scalar.isNumeric] at numeric

/-! Widening gives a value of the wider type. -/

theorem scalar_widen {a : Atom} {s : Scalar} (accepts : s.accepts a.scalar = true) :
    (a.widen s).scalar = s := by
  cases a <;> cases s <;> simp_all [Scalar.accepts, Atom.scalar, Atom.widen]

theorem scalars_widen {key : Key} {index : List Scalar}
    (accepts : Ty.acceptsIndex index (key.map Atom.scalar) = true) :
    (Key.widen key index).map Atom.scalar = index := by
  induction key generalizing index with
  | nil => cases index <;> simp_all [Ty.acceptsIndex, Key.widen]
  | cons a key induction =>
      cases index with
      | nil => simp [Ty.acceptsIndex] at accepts
      | cons s index =>
          simp only [List.map_cons, Ty.acceptsIndex, Bool.and_eq_true] at accepts
          have first := scalar_widen accepts.1
          have rest := induction accepts.2
          simp only [Key.widen] at rest ⊢
          simp [first, rest]

theorem mem_widenCells {cell : Key × Value} {cells : List (Key × Value)} {index : List Scalar}
    {element : Ty} (member : cell ∈ widenCells cells index element) :
    ∃ key value, (key, value) ∈ cells ∧ cell = (Key.widen key index, value.widen element) := by
  induction cells with
  | nil => simp [widenCells] at member
  | cons first cells induction =>
      obtain ⟨key, value⟩ := first
      simp only [widenCells, List.mem_cons] at member
      rcases member with rfl | member
      · exact ⟨key, value, by simp, rfl⟩
      · obtain ⟨key', value', inside, equal⟩ := induction member
        exact ⟨key', value', by simp [inside], equal⟩

theorem HasTy.widen {v : Value} {ty ty' : Ty} (typed : v.HasTy ty)
    (accepts : ty'.accepts ty = true) : (v.widen ty').HasTy ty' := by
  induction typed generalizing ty' with
  | atom a =>
      cases ty' with
      | array index element => simp [Ty.accepts] at accepts
      | scalar s =>
          have scalar := scalar_widen (a := a) (s := s) (by simpa [Ty.accepts] using accepts)
          simpa [Value.widen, scalar] using HasTy.atom (a.widen s)
  | @array index element cells keys elements induction =>
      cases ty' with
      | scalar s => simp [Ty.accepts] at accepts
      | array index' element' =>
          simp only [Ty.accepts, Bool.and_eq_true] at accepts
          simp only [Value.widen]
          split
          · rename_i same
            obtain ⟨rfl, rfl⟩ := same
            exact .array keys elements
          · refine .array ?_ ?_
            · intro cell member
              obtain ⟨key, value, inside, rfl⟩ := mem_widenCells member
              apply scalars_widen
              rw [keys _ inside]
              exact accepts.1
            · intro cell member
              obtain ⟨key, value, inside, rfl⟩ := mem_widenCells member
              exact induction _ inside accepts.2

end Value

theorem Value.Fits.accepted {v : Value} {ty : Ty} (fits : v.Fits ty) :
    ty.accepts v.ty = true ∧ (v.widen ty).HasTy ty := by
  have accepted : ty.accepts v.ty = true := by
    rcases fits with typed | ⟨rfl, typed⟩
    · rw [typed.ty_eq]
      exact Ty.accepts_refl ty
    · rw [typed.ty_eq]
      rfl
  refine ⟨accepted, ?_⟩
  rcases fits with typed | ⟨rfl, typed⟩
  · exact typed.widen (Ty.accepts_refl ty)
  · exact typed.widen rfl

/-- A path of keys leads from values of one type to values of another. -/
inductive Ty.Path : Ty → List Key → Ty → Prop
  | nil (ty : Ty) : Path ty [] ty
  | cons {index : List Scalar} {element ty : Ty} {key : Key} {path : List Key}
      (exact : key.map Atom.scalar = index) (rest : Path element path ty) :
      Path (.array index element) (key :: path) ty

theorem Ty.Path.concat {start element : Ty} {index : List Scalar} {key : Key} {path : List Key}
    (leads : Ty.Path start path (.array index element)) (exact : key.map Atom.scalar = index) :
    Ty.Path start (path ++ [key]) element := by
  generalize target : Ty.array index element = ty at leads
  induction leads with
  | nil ty =>
      subst target
      exact .cons exact (.nil element)
  | cons first rest induction => exact .cons first (induction target)

/-! Edits that keep the type of the value. -/

/-- An edit of values of a type leaves a value of that type, also when it faults. -/
def Value.Keeps {β : Type} (edit : Edit Value β) (ty : Ty) (result : β → Prop)
    (faults : Fault → Prop) : Prop :=
  Meets (·.HasTy ty) edit (fun b v => v.HasTy ty ∧ result b) (fun f v => v.HasTy ty ∧ faults f)

namespace Sparse

theorem toKey?_map_atom (key : Key) : Value.toKey? (key.map .atom) = some key := by
  induction key with
  | nil => rfl
  | cons a key induction =>
      have step : Value.toKey? (.atom a :: key.map .atom) =
          (Value.toKey? (key.map .atom)).bind fun rest => some (a :: rest) := by
        simp [Value.toKey?, List.mapM_cons]
      rw [List.map_cons, step, induction]
      rfl

theorem checkKey_map_atom {a : Sparse Value} {key : Key}
    (exact : key.map Atom.scalar = a.index) : a.checkKey (key.map .atom) = .ok key := by
  simp [checkKey, toKey?_map_atom, exact]

theorem scalars_of_checkKey {a : Sparse Value} {indexes : List Value} {key : Key}
    (checked : a.checkKey indexes = .ok key) : key.map Atom.scalar = a.index := by
  simp only [checkKey] at checked
  split at checked
  · split at checked
    · rename_i exact
      rwa [← Except.ok.inj checked]
    · cases checked
  · cases checked

theorem checkKey_error {a : Sparse Value} {indexes : List Value} {fault : Fault}
    (checked : a.checkKey indexes = .error fault) : fault = .inconsistentIndexDatatypes := by
  simp only [checkKey] at checked
  split at checked
  · split at checked
    · cases checked
    · exact (Except.error.inj checked).symm
  · exact (Except.error.inj checked).symm

variable {index : List Scalar} {element : Ty}

theorem materialize_meets (indexes : List Value) :
    Meets (·.Typed index element) (materialize indexes)
      (fun position a => a.Typed index element ∧ position < a.cells.length)
      (fun fault a => a.Typed index element ∧ fault = .inconsistentIndexDatatypes) := by
  intro a typed
  simp only [materialize]
  cases checked : a.checkKey indexes with
  | error fault => exact ⟨typed, checkKey_error checked⟩
  | ok key =>
      have exact := scalars_of_checkKey checked
      rw [typed.index_eq] at exact
      simp only
      cases found : a.position? key with
      | some position =>
          simp only [position?, List.findIdx?_eq_some_iff_findIdx_eq] at found
          exact ⟨typed, found.1⟩
      | none =>
          simp only
          refine ⟨⟨typed.index_eq, typed.element_eq, ?_, ?_⟩, by simp⟩
          · intro cell member
            rcases List.mem_append.mp member with member | member
            · exact typed.keys cell member
            · rw [List.mem_singleton.mp member]
              exact exact
          · intro cell member
            rcases List.mem_append.mp member with member | member
            · exact typed.elements cell member
            · rw [List.mem_singleton.mp member, typed.element_eq]
              exact Value.hasTy_default element

theorem materialize_exact {key : Key} (exact : key.map Atom.scalar = index) :
    Meets (·.Typed index element) (materialize (key.map .atom))
      (fun position a => a.Typed index element ∧ position < a.cells.length)
      (fun _ _ => False) := by
  intro a typed
  have result := materialize_meets (key.map .atom) a typed
  have checked : a.checkKey (key.map .atom) = .ok key :=
    checkKey_map_atom (by rw [exact, typed.index_eq])
  cases found : a.position? key <;>
    simpa only [materialize, checked, found] using result

theorem editAt_meets {β : Type} {edit : Edit Value β} {result : β → Prop} {faults : Fault → Prop}
    (keeps : Value.Keeps edit element result faults) (position : Nat) :
    Meets (fun a => a.Typed index element ∧ position < a.cells.length) (editAt position edit)
      (fun b a => a.Typed index element ∧ result b)
      (fun f a => a.Typed index element ∧ faults f) := by
  rintro a ⟨typed, inside⟩
  have member : a.cells[position] ∈ a.cells := List.getElem_mem inside
  have edited := keeps _ (typed.elements _ member)
  -- Replacing an element by one of the same type keeps keys and types.
  have replaced : ∀ value : Value, value.HasTy element →
      Typed { a with cells := a.cells.set position (a.cells[position].1, value) } index
        element := by
    intro value hasTy
    refine ⟨typed.index_eq, typed.element_eq, ?_, ?_⟩
    · intro cell inside
      rcases List.mem_or_eq_of_mem_set inside with old | rfl
      · exact typed.keys cell old
      · exact typed.keys a.cells[position] member
    · intro cell inside
      rcases List.mem_or_eq_of_mem_set inside with old | rfl
      · exact typed.elements cell old
      · exact hasTy
  simp only [editAt, Edit.atPosition, List.getElem?_eq_getElem inside]
  cases run : edit a.cells[position].2 with
  | ok b value =>
      rw [run] at edited
      exact ⟨replaced value edited.1, edited.2⟩
  | error fault value =>
      rw [run] at edited
      exact ⟨replaced value edited.1, edited.2⟩

theorem editElement_meets {β : Type} {edit : Edit Value β} {result : β → Prop}
    {faults : Fault → Prop} {key : Key} (exact : key.map Atom.scalar = index)
    (keeps : Value.Keeps edit element result faults) :
    Meets (·.Typed index element) (editElement (key.map .atom) edit)
      (fun b a => a.Typed index element ∧ result b)
      (fun f a => a.Typed index element ∧ faults f) :=
  Meets.bind
    ((materialize_exact exact).mono (fun _ typed => typed) (fun _ _ found => found)
      (fun _ _ impossible => impossible.elim))
    fun position => editAt_meets keeps position

end Sparse

namespace Value

variable {β : Type} {result : β → Prop} {faults : Fault → Prop}

theorem editArray_meets {before : Sparse Value → Prop} {after : β → Sparse Value → Prop}
    {fail : Fault → Sparse Value → Prop} {edit : Edit (Sparse Value) β}
    (meets : Meets before edit after fail) :
    Meets (fun v => ∃ a, v = .array a ∧ before a) (editArray edit)
      (fun b v => ∃ a, v = .array a ∧ after b a) (fun f v => ∃ a, v = .array a ∧ fail f a) := by
  rintro v ⟨a, rfl, start⟩
  have edited := meets a start
  simp only [editArray]
  cases run : edit a with
  | ok b a' =>
      rw [run] at edited
      exact ⟨a', rfl, edited⟩
  | error fault a' =>
      rw [run] at edited
      exact ⟨a', rfl, edited⟩

theorem keeps_editArray {index : List Scalar} {element : Ty} {edit : Edit (Sparse Value) β}
    (meets : Meets (·.Typed index element) edit (fun b a => a.Typed index element ∧ result b)
      (fun f a => a.Typed index element ∧ faults f)) :
    Keeps (editArray edit) (.array index element) result faults := by
  refine (editArray_meets meets).mono (fun _ typed => typed.exists_array) ?_ ?_
  · rintro b _ ⟨a, rfl, typed, holds⟩
    exact ⟨hasTy_array_iff.mpr typed, holds⟩
  · rintro fault _ ⟨a, rfl, typed, holds⟩
    exact ⟨hasTy_array_iff.mpr typed, holds⟩

theorem keeps_editArray_scalar (edit : Edit (Sparse Value) β) (s : Scalar) :
    Keeps (editArray edit) (.scalar s) (fun _ => False) (· = .expectedArray) := by
  intro v typed
  obtain ⟨a, rfl, -⟩ := typed.exists_atom
  exact ⟨typed, rfl⟩

/-- What is edited at the end of a path is found there, because every key on it has the declared
types. -/
theorem keeps_editPath {start ty : Ty} {path : List Key} {edit : Edit Value β}
    (leads : Ty.Path start path ty) (keeps : Keeps edit ty result faults) :
    Keeps (editPath edit path) start result faults := by
  induction leads with
  | nil ty => exact keeps
  | cons exact rest induction =>
      exact keeps_editArray (Sparse.editElement_meets exact (induction keeps))

theorem keeps_get (ty : Ty) : Keeps get ty (·.HasTy ty) (fun _ => False) :=
  Meets.get fun _ typed => ⟨typed, typed⟩

theorem keeps_set {ty : Ty} {v : Value} (typed : v.HasTy ty) :
    Keeps (set v) ty (fun _ => True) (fun _ => False) :=
  Meets.set fun _ _ => ⟨typed, trivial⟩

end Value

end StackScript
