import StackScript.Proofs.Value.Typing

namespace StackScript

/-! Widening goes up in the order of the types. It can be done in several steps as well as at once,
and leaves each element of an array in its place. -/

/-! Keys. -/

theorem Atom.widen_scalar (a : Atom) : a.widen a.scalar = a := by
  cases a <;> rfl

theorem Atom.widen_widen {a : Atom} {s t : Scalar} (accepts : s.accepts a.scalar = true)
    (accepts' : t.accepts s = true) : (a.widen s).widen t = a.widen t := by
  rcases Scalar.accepts_iff.mp accepts with rfl | ⟨rfl, int⟩
  · rw [widen_scalar]
  · rcases Scalar.accepts_iff.mp accepts' with rfl | ⟨-, impossible⟩
    · cases a <;> rfl
    · cases impossible

theorem Key.widen_cons (a : Atom) (key : Key) (s : Scalar) (index : List Scalar) :
    Key.widen (a :: key) (s :: index) = a.widen s :: key.widen index :=
  rfl

theorem Key.widen_scalars (key : Key) : key.widen (key.map Atom.scalar) = key := by
  induction key with
  | nil => rfl
  | cons a key induction => rw [List.map_cons, widen_cons, Atom.widen_scalar, induction]

theorem Key.widen_widen {key : Key} {index index' : List Scalar}
    (accepts : Ty.acceptsIndex index (key.map Atom.scalar) = true)
    (accepts' : Ty.acceptsIndex index' index = true) :
    (key.widen index).widen index' = key.widen index' := by
  induction key generalizing index index' with
  | nil => rfl
  | cons a key induction =>
      cases index with
      | nil => cases accepts
      | cons s index =>
          cases index' with
          | nil => cases accepts'
          | cons t index' =>
              rw [List.map_cons, Ty.acceptsIndex, Bool.and_eq_true] at accepts
              rw [Ty.acceptsIndex, Bool.and_eq_true] at accepts'
              rw [widen_cons, widen_cons, widen_cons, Atom.widen_widen accepts.1 accepts'.1,
                induction accepts.2 accepts'.2]

namespace Value

variable {v : Value} {ty : Ty}

theorem widen_ty (v : Value) : v.widen v.ty = v := by
  rcases v with a | ⟨index, element, cells⟩
  · rw [Value.ty, widen, Atom.widen_scalar]
  · simp only [Value.ty, Sparse.ty, widen, and_self, if_true]

theorem HasTy.widen_self (typed : v.HasTy ty) : v.widen ty = v := by
  rw [← typed.ty_eq, widen_ty]

theorem widenCells_eq_map (cells : List (Key × Value)) (index : List Scalar) (element : Ty) :
    widenCells cells index element =
      cells.map fun cell => (cell.1.widen index, cell.2.widen element) := by
  induction cells with
  | nil => rfl
  | cons cell cells induction =>
      obtain ⟨key, value⟩ := cell
      rw [widenCells, induction, List.map_cons]

theorem map_fst_widenCells (cells : List (Key × Value)) (index : List Scalar) (element : Ty) :
    (widenCells cells index element).map Prod.fst =
      (cells.map Prod.fst).map (Key.widen · index) := by
  rw [widenCells_eq_map, List.map_map, List.map_map]
  rfl

end Value

namespace Sparse

variable {a : Sparse Value} {index : List Scalar} {element : Ty}

theorem cells_widen (a : Sparse Value) (index : List Scalar) (element : Ty) :
    (a.widen index element).cells =
      a.cells.map fun cell => (cell.1.widen index, cell.2.widen element) :=
  Value.widenCells_eq_map a.cells index element

theorem widen_congr {b : Sparse Value}
    (cells : (a.cells.map fun cell => (cell.1.widen index, cell.2.widen element)) =
      b.cells.map fun cell => (cell.1.widen index, cell.2.widen element)) :
    a.widen index element = b.widen index element := by
  rw [← cells_widen, ← cells_widen] at cells
  exact congrArg (Sparse.mk index element) cells

/-- Nothing changes in an array that has the types already. -/
theorem Typed.widen_self (typed : a.Typed index element) : a.widen index element = a := by
  have same : (a.widen index element).cells = a.cells := by
    rw [cells_widen]
    refine (List.map_congr_left fun cell member => ?_).trans (List.map_id a.cells)
    obtain rfl := typed.keys cell member
    rw [Key.widen_scalars, (typed.elements cell member).widen_self]
    rfl
  obtain ⟨rfl, rfl, -, -⟩ := typed
  exact congrArg (Sparse.mk a.index a.element) same

end Sparse

namespace Value

variable {v : Value} {a : Sparse Value} {ty t u : Ty}

/-- It makes no difference that an array of the right type is left alone. -/
theorem HasTy.widen_array (typed : (Value.array a).HasTy ty) (index : List Scalar) (element : Ty) :
    (Value.array a).widen (.array index element) = .array (a.widen index element) := by
  by_cases same : a.ty = .array index element
  · obtain rfl : ty = .array index element := typed.ty_eq.symm.trans same
    rw [typed.widen_self, (hasTy_array_iff.mp typed).widen_self]
  · obtain ⟨index', element', cells⟩ := a
    have differ : ¬ (index' = index ∧ element' = element) := by
      rintro ⟨rfl, rfl⟩
      exact same rfl
    simp only [Value.widen, if_neg differ, Sparse.widen]

theorem HasTy.widen_widen (typed : v.HasTy ty) (accepts : t.accepts ty = true)
    (accepts' : u.accepts t = true) : (v.widen t).widen u = v.widen u := by
  induction typed generalizing t u with
  | atom a =>
      cases t with
      | array index element => cases accepts
      | scalar s =>
          cases u with
          | array index element => cases accepts'
          | scalar s' =>
              simp only [Value.widen]
              rw [Atom.widen_widen accepts accepts']
  | @array index element cells keys elements induction =>
      have typed : HasTy (.array ⟨index, element, cells⟩) (.array index element) :=
        .array keys elements
      cases t with
      | scalar s => cases accepts
      | array index' element' =>
          cases u with
          | scalar s => cases accepts'
          | array index'' element'' =>
              have widened := typed.widen accepts
              rw [Ty.accepts_array] at accepts accepts'
              rw [typed.widen_array] at widened ⊢
              rw [typed.widen_array, widened.widen_array]
              refine congrArg Value.array (Sparse.widen_congr ?_)
              rw [Sparse.cells_widen, List.map_map]
              refine List.map_congr_left fun cell member => ?_
              have key := keys cell member
              simp only [Function.comp_apply]
              rw [Key.widen_widen (key ▸ accepts.1) accepts'.1,
                induction cell member accepts.2 accepts'.2]

/-- What is promised of widening to a type, once more to the same type, and on to another one. -/
structure Widens (v : Value) (t u : Ty) : Prop where
  typed : (v.widen t).HasTy t
  again : (v.widen t).widen t = v.widen t
  further : (v.widen t).widen u = v.widen u
  /-- The elements of an array are those from before, in their places. -/
  elements : ∀ a, v = .array a → ∃ index element b, t = .array index element ∧
    v.widen t = .array b ∧
      b.cells = a.cells.map fun cell => (cell.1.widen index, cell.2.widen element)

theorem HasTy.widens (typed : v.HasTy ty) (accepts : t.accepts ty = true)
    (accepts' : u.accepts t = true) : v.Widens t u where
  typed := typed.widen accepts
  again := (typed.widen accepts).widen_self
  further := typed.widen_widen accepts accepts'
  elements := by
    rintro a rfl
    cases t with
    | scalar s =>
        rw [← typed.ty_eq] at accepts
        cases accepts
    | array index element =>
        exact ⟨index, element, _, rfl, typed.widen_array index element,
          a.cells_widen index element⟩

/-- Acceptance is a partial order of the types, in which what may be assigned or passed lies below
the cell that takes it. Whatever has a type can be widened to any type above, by any way. -/
theorem widening_consistent :
    (∀ a : Ty, a.accepts a = true) ∧
    (∀ a b c : Ty, a.accepts b = true → b.accepts c = true → a.accepts c = true) ∧
    (∀ a b : Ty, a.accepts b = true → b.accepts a = true → a = b) ∧
    (∀ target value : Ty, target.assignable value = true → target.accepts value = true) ∧
    (∀ params args : List Ty, Ty.callable params args = true →
      List.Forall₂ (fun param arg : Ty => param.accepts arg = true) params args) ∧
    ∀ (v : Value) (ty t u : Ty), v.HasTy ty → t.accepts ty = true → u.accepts t = true →
      v.Widens t u := by
  refine ⟨Ty.accepts_refl, fun a b c => Ty.accepts_trans, fun a b => Ty.accepts_antisymm,
    fun target value => Ty.accepts_of_assignable, fun params args callable => ?_,
    fun v ty t u => HasTy.widens⟩
  exact (callable_iff.mp callable).imp fun _ _ => Ty.accepts_of_assignable

/-- An int in a table with names and numbers. -/
def count : Value :=
  .array ⟨[.str], .array [.int] .int, [([.str "a"], .array ⟨[.int], .int, [([.int 1], .int 2)]⟩)]⟩

/-- First the number that is an index becomes a float, and then also the one that is counted. -/
theorem count_widens :
    let t : Ty := .array [.str] (.array [.float] .int)
    let u : Ty := .array [.str] (.array [.float] .float)
    t.accepts count.ty = true ∧ u.accepts t = true ∧ u.accepts count.ty = true ∧
      count.HasTy count.ty ∧ count.Widens t u ∧
      Ty.callable [.float, u] [.int, u] = true ∧
      List.Forall₂ (fun param arg : Ty => param.accepts arg = true) [.float, u] [.int, u] := by
  intro t u
  obtain ⟨-, transitive, -, -, passed, widens⟩ := widening_consistent
  have typed : count.HasTy count.ty := by
    refine .array (List.forall_mem_singleton.mpr rfl) (List.forall_mem_singleton.mpr ?_)
    exact .array (List.forall_mem_singleton.mpr rfl)
      (List.forall_mem_singleton.mpr (.atom (.int 2)))
  have first : t.accepts count.ty = true := rfl
  have second : u.accepts t = true := rfl
  exact ⟨first, second, transitive u t count.ty second first, typed,
    widens count count.ty t u typed first second, rfl, passed _ _ rfl⟩

end Value

end StackScript
