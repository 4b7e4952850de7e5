import StackScript.Proofs.Program

namespace StackScript

/-! The expressions of a program, each of which is typed and has its code somewhere in the unit. -/

namespace Expr

mutual

@[simp] def parts : Expr → List Expr
  | .literal l => [.literal l]
  | .cell lifetime symbol => [.cell lifetime symbol]
  | .element array indexes => .element array indexes :: (array.parts ++ partsOf indexes)
  | .call function arguments => .call function arguments :: partsOf arguments
  | .negate operand => .negate operand :: operand.parts
  | .arith operation lhs rhs => .arith operation lhs rhs :: (lhs.parts ++ rhs.parts)
  | .compare relation lhs rhs => .compare relation lhs rhs :: (lhs.parts ++ rhs.parts)
  | .choice condition whenTrue whenFalse =>
      .choice condition whenTrue whenFalse ::
        (condition.parts ++ whenTrue.parts ++ whenFalse.parts)

@[simp] def partsOf : List Expr → List Expr
  | [] => []
  | e :: rest => e.parts ++ partsOf rest

end

/-- An expression of the program that stands in the code. -/
def Placed (r : Registry) (code : List UInt8) (e : Expr) : Prop :=
  (∃ ty, e.Typed r ty) ∧ ∃ place, Stands code place e.listing

variable {r : Registry} {code : List UInt8}

theorem Placed.of_stands {e : Expr} {ty : Ty} {place : Nat} (typed : e.Typed r ty)
    (stands : Stands code place e.listing) : e.Placed r code :=
  ⟨⟨ty, typed⟩, place, stands⟩

mutual

theorem placed_of_mem : (e : Expr) → ∀ {ty : Ty} {place : Nat}, e.Typed r ty →
    Stands code place e.listing → ∀ part ∈ e.parts, part.Placed r code
  | .literal _, _, _, typed, stands => List.forall_mem_singleton.mpr (.of_stands typed stands)
  | .cell _ _, _, _, typed, stands => List.forall_mem_singleton.mpr (.of_stands typed stands)
  | .element array indexes, _, _, typed, stands => by
      refine List.forall_mem_cons.mpr ⟨.of_stands typed stands, ?_⟩
      obtain ⟨index, place, typedA, all⟩ := typed
      rw [listing] at stands
      exact List.forall_mem_append.mpr
        ⟨placed_of_mem array typedA stands.append_left.append_left,
          placed_of_mem_all indexes all stands.append_left.append_right⟩
  | .call function arguments, _, _, typed, stands => by
      refine List.forall_mem_cons.mpr ⟨.of_stands typed stands, ?_⟩
      obtain ⟨s, tys, found, isFunction, same, all, callable⟩ := typed
      rw [listing] at stands
      exact placed_of_mem_all arguments all stands.append_left
  | .negate operand, _, _, typed, stands => by
      refine List.forall_mem_cons.mpr ⟨.of_stands typed stands, ?_⟩
      rw [listing] at stands
      exact placed_of_mem operand typed.1 stands.append_left
  | .arith operation lhs rhs, _, _, typed, stands => by
      refine List.forall_mem_cons.mpr ⟨.of_stands typed stands, ?_⟩
      obtain ⟨left, right, typedL, typedR, result⟩ := typed
      rw [listing] at stands
      exact List.forall_mem_append.mpr
        ⟨placed_of_mem lhs typedL stands.append_left.append_left,
          placed_of_mem rhs typedR stands.append_left.append_right⟩
  | .compare relation lhs rhs, _, _, typed, stands => by
      refine List.forall_mem_cons.mpr ⟨.of_stands typed stands, ?_⟩
      obtain ⟨left, right, typedL, typedR, consistent, bool⟩ := typed
      rw [listing] at stands
      exact List.forall_mem_append.mpr
        ⟨placed_of_mem lhs typedL stands.append_left.append_left,
          placed_of_mem rhs typedR stands.append_left.append_right⟩
  | .choice condition whenTrue whenFalse, _, _, typed, stands => by
      refine List.forall_mem_cons.mpr ⟨.of_stands typed stands, ?_⟩
      obtain ⟨accepted, refused, typedC, typedT, typedF, consistent, joined⟩ := typed
      rw [listing] at stands
      have branches := stands.append_left.append_left
      exact List.forall_mem_append.mpr
        ⟨List.forall_mem_append.mpr
          ⟨placed_of_mem condition typedC branches.append_left.append_left,
            placed_of_mem whenTrue typedT branches.append_right⟩,
          placed_of_mem whenFalse typedF stands.append_right⟩

theorem placed_of_mem_all : (es : List Expr) → ∀ {tys : List Ty} {place : Nat},
    TypedAll r es tys → Stands code place (listings es) →
      ∀ part ∈ partsOf es, part.Placed r code
  | [], _, _, _, _ => List.forall_mem_nil _
  | e :: rest, _ :: _, _, ⟨typed, others⟩, stands =>
      List.forall_mem_append.mpr ⟨placed_of_mem e typed stands.append_left,
        placed_of_mem_all rest others stands.append_right⟩

end

end Expr

namespace Stmt

mutual

/-- The expressions of a statement, those in its blocks and functions included. -/
def expressions : Stmt → List Expr
  | .assign target _ value => target.parts ++ value.parts
  | .declare _ => []
  | .block _ _ body => expressionsOf body
  | .function _ _ _ body => expressionsOf body

def expressionsOf : List Stmt → List Expr
  | [] => []
  | stmt :: rest => stmt.expressions ++ expressionsOf rest

end

theorem expressionsOf_append (front back : List Stmt) :
    expressionsOf (front ++ back) = expressionsOf front ++ expressionsOf back := by
  induction front with
  | nil => rfl
  | cons stmt front induction => simp [expressionsOf, induction]

variable {r : Registry} {code : List UInt8}

mutual

theorem placed_of_mem {scope : Scope} : (stmt : Stmt) → ∀ {place : Nat}, stmt.Typed r scope →
    Stands code place stmt.listing →
      (∀ r' ∈ stmt.routines, ∃ place, Stands code place r'.listing) →
        ∀ e ∈ stmt.expressions, e.Placed r code
  | .assign target update value, _, ⟨_, _, _, typedT, typedV, _⟩, stands, _ => by
      rw [listing] at stands
      exact List.forall_mem_append.mpr
        ⟨target.placed_of_mem typedT stands.append_left.append_left,
          value.placed_of_mem typedV stands.append_left.append_right⟩
  | .declare _, _, _, _, _ => List.forall_mem_nil _
  | .block _ _ body, _, ⟨_, _, all⟩, stands, functions => by
      rw [listing] at stands
      exact placed_of_mem_all body all stands.append_right functions
  | .function _ symbol params body, _, ⟨_, _, _, _, all⟩, _, functions => by
      obtain ⟨⟨place, stands⟩, inner⟩ := List.forall_mem_cons.mp functions
      rw [routine] at stands
      exact placed_of_mem_all body all stands.append_left.append_right inner

theorem placed_of_mem_all {scope : Scope} : (stmts : List Stmt) → ∀ {place : Nat},
    TypedAll r scope stmts → Stands code place (listingOf stmts) →
      (∀ r' ∈ routinesOf stmts, ∃ place, Stands code place r'.listing) →
        ∀ e ∈ expressionsOf stmts, e.Placed r code
  | [], _, _, _, _ => List.forall_mem_nil _
  | stmt :: rest, _, ⟨typed, others⟩, stands, functions => by
      rw [listingOf] at stands
      obtain ⟨here, there⟩ := List.forall_mem_append.mp functions
      exact List.forall_mem_append.mpr ⟨placed_of_mem stmt typed stands.append_left here,
        placed_of_mem_all rest others stands.append_right there⟩

end

end Stmt

theorem Routine.exists_stands {code : List UInt8} {offset : Nat} {routines : List Routine}
    (stands : Stands code offset (Routine.code routines)) {r : Routine} (member : r ∈ routines) :
    ∃ place, Stands code place r.listing := by
  obtain ⟨front, back, rfl⟩ := List.append_of_mem member
  rw [Routine.code_append, Routine.code_cons] at stands
  exact ⟨_, stands.append_right.append_left⟩

theorem TypedProgram.placed {r : Registry} {stmts : List Stmt} (program : TypedProgram r stmts)
    {e : Expr} (member : e ∈ Stmt.expressionsOf stmts) :
    e.Placed r (Compilation.assemble r stmts).code := by
  have whole := stands r stmts
  apply Stmt.placed_of_mem_all stmts program.typed
  · exact whole.append_left.append_right.append_left
  · intro r' inside
    exact Routine.exists_stands whole.append_right (List.mem_append_right _ inside)
  · exact member

end StackScript
