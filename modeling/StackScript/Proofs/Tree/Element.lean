import StackScript.Proofs.Grammar.Constants
import StackScript.Proofs.Tree.Cells

namespace StackScript

/-! Elements of variables under constant indexes, and statements that set them to constants. -/

theorem Atom.scalar_neg {a b : Atom} (negative : (Value.atom a).neg = .ok (.atom b)) :
    b.scalar = a.scalar := by
  cases a <;> cases negative <;> rfl

theorem Atom.isNaN_of_neg {a b : Atom} (negative : (Value.atom a).neg = .ok (.atom b))
    (number : a.isNaN = false) : b.isNaN = false := by
  cases a <;> cases negative <;> first | rfl | exact isNaN_neg number

namespace Expr

/-- What stands for a constant: a literal, or the negative of a constant. -/
inductive Constant : Expr → Atom → Prop
  | literal (l : Literal) : Constant (.literal l) l.atom
  | negate {e : Expr} {a b : Atom} (inner : Constant e a)
      (negative : (Value.atom a).neg = .ok (.atom b)) : Constant (.negate e) b

/-- An element of a variable, or the variable itself, with the index tuples that lead to it. -/
inductive Element (lifetime : Lifetime) (symbol : Nat) : Expr → List Key → Prop
  | root : Element lifetime symbol (.cell lifetime symbol) []
  | index {array : Expr} {indexes : List Expr} {path : List Key} {key : Key}
      (inner : Element lifetime symbol array path) (constants : List.Forall₂ Constant indexes key) :
      Element lifetime symbol (.element array indexes) (path ++ [key])

/-- The number of indexes of an element. -/
def arity : Expr → Nat
  | .element _ indexes => indexes.length
  | _ => 0

/-- The indexes of all elements can be counted in a byte. -/
def Narrow (e : Expr) : Prop :=
  ∀ part ∈ e.parts, part.arity < 256

instance (e : Expr) : Decidable e.Narrow :=
  inferInstanceAs (Decidable (∀ part ∈ e.parts, part.arity < 256))

variable {r : Registry} {e array : Expr} {indexes : List Expr} {a : Atom} {key : Key}
variable {lifetime : Lifetime} {symbol : Nat} {path : List Key} {ty : Ty} {index : List Scalar}

theorem Constant.exact (constant : e.Constant a) (typed : e.Typed r ty) :
    .scalar a.scalar = ty := by
  induction constant generalizing ty with
  | literal l => exact l.scalar_atom.trans typed.1
  | negate inner negative induction => rw [Atom.scalar_neg negative, induction typed.1]

theorem Constant.number (constant : e.Constant a)
    (numbers : e.AllLiterals fun l => l.atom.isNaN = false) : a.isNaN = false := by
  induction constant with
  | literal l => exact numbers l (List.mem_singleton.mpr rfl)
  | negate inner negative induction =>
      exact Atom.isNaN_of_neg negative
        (induction fun l member => numbers l (List.mem_cons_of_mem _ member))

theorem constants_exact (constants : List.Forall₂ Constant indexes key)
    (all : TypedAll r indexes (index.map .scalar)) : key.map Atom.scalar = index := by
  induction constants generalizing index with
  | nil =>
      cases index with
      | nil => rfl
      | cons s index => exact all.elim
  | cons constant others induction =>
      cases index with
      | nil => exact all.elim
      | cons s index =>
          rw [List.map_cons, Ty.scalar.inj (constant.exact all.1), induction all.2]

theorem constants_number (constants : List.Forall₂ Constant indexes key)
    (numbers : ∀ e ∈ indexes, e.AllLiterals fun l => l.atom.isNaN = false) :
    key.hasNaN = false := by
  induction constants with
  | nil => rfl
  | @cons e a indexes key constant others induction =>
      obtain ⟨first, rest⟩ := List.forall_mem_cons.mp numbers
      have behind : key.any Atom.isNaN = false := induction rest
      rw [Key.hasNaN, List.any_cons, constant.number first, behind]
      rfl

namespace Element

theorem narrow (element : e.Element lifetime symbol path) (narrow : e.Narrow) :
    ∀ key ∈ path, key.length < 256 := by
  induction element with
  | root => exact List.forall_mem_nil _
  | index inner constants induction =>
      obtain ⟨here, others⟩ := List.forall_mem_cons.mp narrow
      refine List.forall_mem_append.mpr
        ⟨induction (List.forall_mem_append.mp others).1, List.forall_mem_singleton.mpr ?_⟩
      exact constants.length_eq ▸ here

theorem numbers (element : e.Element lifetime symbol path)
    (numbers : e.AllLiterals fun l => l.atom.isNaN = false) :
    ∀ key ∈ path, key.hasNaN = false := by
  induction element with
  | root => exact List.forall_mem_nil _
  | @index array indexes path key inner constants induction =>
      refine List.forall_mem_append.mpr
        ⟨induction fun l member => numbers l
            (List.mem_cons_of_mem _ (List.mem_append_left _ member)),
          List.forall_mem_singleton.mpr ?_⟩
      exact constants_number constants fun e inside l member => numbers l
        (List.mem_cons_of_mem _ (List.mem_append_right _ (mem_partsOf.mpr ⟨e, inside, member⟩)))

/-- The path leads from the type of the variable to that of the element. -/
theorem exists_symbol (element : e.Element lifetime symbol path) (typed : e.Typed r ty) :
    ∃ s, r.get? symbol = some s ∧ (lifetime = .static → s.kind.isStatic = true) ∧
      Ty.Path s.ty path ty := by
  induction element generalizing ty with
  | root =>
      cases lifetime with
      | static =>
          obtain ⟨s, found, isStatic, rfl⟩ := typed
          exact ⟨s, found, fun _ => isStatic, .nil _⟩
      | dynamic =>
          obtain ⟨s, found, rfl⟩ := typed
          exact ⟨s, found, nofun, .nil _⟩
  | index inner constants induction =>
      obtain ⟨index, -, typedA, all⟩ := typed
      obtain ⟨s, found, isStatic, leads⟩ := induction typedA
      exact ⟨s, found, isStatic, leads.concat (constants_exact constants all)⟩

end Element

end Expr

/-! Statements. -/

namespace Stmt

mutual

/-- A statement and the statements inside of it. -/
def all : Stmt → List Stmt
  | .assign target update value => [.assign target update value]
  | .declare symbol => [.declare symbol]
  | .block scope declared body => .block scope declared body :: allOf body
  | .function scope symbol params body => .function scope symbol params body :: allOf body

def allOf : List Stmt → List Stmt
  | [] => []
  | stmt :: rest => stmt.all ++ allOf rest

end

variable {r : Registry} {code : List UInt8}

/-- A statement of the program that stands in the code. -/
def Placed (r : Registry) (code : List UInt8) (stmt : Stmt) : Prop :=
  (∃ scope, stmt.Typed r scope) ∧ ∃ place, Stands code place stmt.listing

mutual

theorem all_placed {scope : Scope} : (stmt : Stmt) → ∀ {place : Nat}, stmt.Typed r scope →
    Stands code place stmt.listing →
      (∀ r' ∈ stmt.routines, ∃ place, Stands code place r'.listing) →
        ∀ inner ∈ stmt.all, inner.Placed r code
  | .assign _ _ _, _, typed, stands, _ =>
      List.forall_mem_singleton.mpr ⟨⟨_, typed⟩, _, stands⟩
  | .declare _, _, typed, stands, _ => List.forall_mem_singleton.mpr ⟨⟨_, typed⟩, _, stands⟩
  | .block _ _ body, _, typed, stands, functions => by
      refine List.forall_mem_cons.mpr ⟨⟨⟨_, typed⟩, _, stands⟩, ?_⟩
      obtain ⟨-, -, all⟩ := typed
      rw [listing] at stands
      exact allOf_placed body all stands.append_right functions
  | .function _ symbol params body, _, typed, stands, functions => by
      refine List.forall_mem_cons.mpr ⟨⟨⟨_, typed⟩, _, stands⟩, ?_⟩
      obtain ⟨-, -, -, -, all⟩ := typed
      obtain ⟨⟨place, stands⟩, inner⟩ := List.forall_mem_cons.mp functions
      rw [routine] at stands
      exact allOf_placed body all stands.append_left.append_right inner

theorem allOf_placed {scope : Scope} : (stmts : List Stmt) → ∀ {place : Nat},
    TypedAll r scope stmts → Stands code place (listingOf stmts) →
      (∀ r' ∈ routinesOf stmts, ∃ place, Stands code place r'.listing) →
        ∀ inner ∈ allOf stmts, inner.Placed r code
  | [], _, _, _, _ => List.forall_mem_nil _
  | stmt :: rest, _, ⟨typed, others⟩, stands, functions => by
      rw [listingOf] at stands
      obtain ⟨here, there⟩ := List.forall_mem_append.mp functions
      exact List.forall_mem_append.mpr ⟨all_placed stmt typed stands.append_left here,
        allOf_placed rest others stands.append_right there⟩

end

mutual

theorem expressions_subset : (stmt : Stmt) → ∀ inner ∈ stmt.all,
    inner.expressions ⊆ stmt.expressions
  | .assign _ _ _ => List.forall_mem_singleton.mpr (List.Subset.refl _)
  | .declare _ => List.forall_mem_singleton.mpr (List.Subset.refl _)
  | .block _ _ body => List.forall_mem_cons.mpr ⟨List.Subset.refl _, expressionsOf_subset body⟩
  | .function _ _ _ body =>
      List.forall_mem_cons.mpr ⟨List.Subset.refl _, expressionsOf_subset body⟩

theorem expressionsOf_subset : (stmts : List Stmt) → ∀ inner ∈ allOf stmts,
    inner.expressions ⊆ expressionsOf stmts
  | [] => List.forall_mem_nil _
  | stmt :: rest =>
      List.forall_mem_append.mpr
        ⟨fun inner member =>
            List.subset_append_of_subset_left _ (expressions_subset stmt inner member),
          fun inner member =>
            List.subset_append_of_subset_right _ (expressionsOf_subset rest inner member)⟩

end

/-! Programs that run from the first statement to the last. -/

mutual

/-- A statement that only sets elements of variables that live for the whole run to constants. -/
def Straight : Stmt → Prop
  | .assign target update value =>
      update = .set ∧ target.Narrow ∧ (∃ symbol path, target.Element .static symbol path) ∧
        ∃ a, value.Constant a
  | .declare _ => True
  | .block _ _ body => StraightAll body
  | .function _ _ _ _ => True

def StraightAll : List Stmt → Prop
  | [] => True
  | stmt :: rest => stmt.Straight ∧ StraightAll rest

end

/-- What some statements do last. -/
inductive Ends (last : Stmt) : List Stmt → Prop
  | here {rest : List Stmt} (silent : listingOf rest = []) : Ends last (last :: rest)
  | inside {scope : Scope} {declared : List Nat} {body rest : List Stmt} (inner : Ends last body)
      (silent : listingOf rest = []) : Ends last (.block scope declared body :: rest)
  | later {stmt : Stmt} {rest : List Stmt} (behind : Ends last rest) : Ends last (stmt :: rest)

theorem mem_all (stmt : Stmt) : stmt ∈ stmt.all := by
  cases stmt <;> exact List.mem_cons_self

theorem Ends.mem_allOf {last : Stmt} {stmts : List Stmt} (ends : Ends last stmts) :
    last ∈ allOf stmts := by
  induction ends with
  | here silent => exact List.mem_append_left _ last.mem_all
  | inside inner silent induction =>
      exact List.mem_append_left _ (List.mem_cons_of_mem _ induction)
  | later behind induction => exact List.mem_append_right _ induction

end Stmt

theorem TypedProgram.placed_statement {r : Registry} {stmts : List Stmt}
    (program : TypedProgram r stmts) {stmt : Stmt} (member : stmt ∈ Stmt.allOf stmts) :
    stmt.Placed r (Compilation.assemble r stmts).code := by
  have whole := stands r stmts
  apply Stmt.allOf_placed stmts program.typed
  · exact whole.append_left.append_right.append_left
  · intro r' inside
    exact Routine.exists_stands whole.append_right (List.mem_append_right _ inside)
  · exact member

end StackScript
