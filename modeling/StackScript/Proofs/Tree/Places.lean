import StackScript.Proofs.Code.Places
import StackScript.Proofs.Tree.Flow

namespace StackScript

/-! The jumps in the code of expressions, statements and functions stay in it, and the texts in it
end where they should. -/

/-- The jumps of a choice lead to its second branch and behind it. -/
theorem Listing.Inward.choice {offset : Nat} {condition whenTrue whenFalse : Listing}
    (tested : condition.Inward offset)
    (accepted : whenTrue.Inward (offset + condition.width + jumpSize))
    (refused : whenFalse.Inward (offset + condition.width + jumpSize + whenTrue.width + jumpSize))
    (fits : offset + condition.width + jumpSize + whenTrue.width + jumpSize + whenFalse.width <
      2 ^ 32) :
    Listing.Inward offset
      (condition ++
        [.jumpIfFalse (UInt32.ofNat (jumpSize + whenTrue.width + jumpSize))] ++ whenTrue ++
        [.jump (UInt32.ofNat (jumpSize + whenFalse.width))] ++ whenFalse) := by
  have size : jumpSize = 5 := rfl
  have moved {distance base : Nat} (small : base + distance < 2 ^ 32) :
      (UInt32.ofNat distance + UInt32.ofNat base).toNat = base + distance := by
    rw [← UInt32.ofNat_add, Nat.add_comm distance, UInt32.toNat_ofNat_of_lt' small]
  intro place i target member jumps
  simp only [places_append, width_append, width_cons, width_nil, Instruction.width_jump,
    Instruction.width_jumpIfFalse, Nat.add_zero, List.mem_append, ← Nat.add_assoc] at member
  rcases member with (((here | test) | here) | jump) | here
  · obtain ⟨later, reaches⟩ := tested place i target here jumps
    exact ⟨later, reaches.append_left.append_left.append_left.append_left⟩
  · obtain ⟨rfl, rfl⟩ := Prod.mk.inj (List.mem_singleton.mp test)
    obtain rfl := Option.some.inj jumps
    rw [moved (by omega)]
    refine ⟨by omega, Reaches.append_right ?_⟩
    simp only [width_append, width_cons, width_nil, Instruction.width_jump,
      Instruction.width_jumpIfFalse, Nat.add_zero, ← Nat.add_assoc]
    exact .start _ whenFalse
  · obtain ⟨later, reaches⟩ := accepted place i target here jumps
    refine ⟨later, Reaches.append_left (Reaches.append_left (Reaches.append_right ?_))⟩
    simpa only [width_append, width_cons, width_nil, Instruction.width_jumpIfFalse, Nat.add_zero,
      ← Nat.add_assoc] using reaches
  · obtain ⟨rfl, rfl⟩ := Prod.mk.inj (List.mem_singleton.mp jump)
    obtain rfl := Option.some.inj jumps
    rw [moved (by omega)]
    refine ⟨by omega, .inr ?_⟩
    simp only [width_append, width_cons, width_nil, Instruction.width_jump,
      Instruction.width_jumpIfFalse, Nat.add_zero]
    omega
  · obtain ⟨later, reaches⟩ := refused place i target here jumps
    refine ⟨later, Reaches.append_right ?_⟩
    simpa only [width_append, width_cons, width_nil, Instruction.width_jump,
      Instruction.width_jumpIfFalse, Nat.add_zero, ← Nat.add_assoc] using reaches

theorem Listing.Inward.concat {offset : Nat} {front : Listing} {last : Instruction}
    (inward : front.Inward offset) (plain : last.target? = none) :
    Listing.Inward offset (front ++ [last]) :=
  inward.append (.plain (List.forall_mem_singleton.mpr plain))

namespace Expr

theorem target?_literal (l : Literal) : l.instruction.target? = none := by
  cases l <;> rfl

mutual

theorem inward : (e : Expr) → ∀ offset, offset + e.listing.width < 2 ^ 32 →
    e.listing.Inward offset
  | .literal l, _, _ => .plain (List.forall_mem_singleton.mpr (target?_literal l))
  | .cell .static _, _, _ => .plain (List.forall_mem_singleton.mpr rfl)
  | .cell .dynamic _, _, _ => .plain (List.forall_mem_singleton.mpr rfl)
  | .element array indexes, offset, fits => by
      simp only [listing, Listing.width_append] at fits
      exact ((inward array offset (by omega)).append
        (inward_all indexes _ (by omega))).concat rfl
  | .call _ arguments, offset, fits => by
      simp only [listing, Listing.width_append] at fits
      exact (inward_all arguments offset (by omega)).concat rfl
  | .negate operand, offset, fits => by
      simp only [listing, Listing.width_append] at fits
      exact (inward operand offset (by omega)).concat rfl
  | .arith _ lhs rhs, offset, fits => by
      simp only [listing, Listing.width_append] at fits
      exact ((inward lhs offset (by omega)).append (inward rhs _ (by omega))).concat rfl
  | .compare _ lhs rhs, offset, fits => by
      simp only [listing, Listing.width_append] at fits
      exact ((inward lhs offset (by omega)).append (inward rhs _ (by omega))).concat rfl
  | .choice condition whenTrue whenFalse, offset, fits => by
      simp only [listing, Listing.width_append, Listing.width_cons, Listing.width_nil,
        Instruction.width_jump, Instruction.width_jumpIfFalse, Nat.add_zero] at fits
      exact .choice (inward condition _ (by omega)) (inward whenTrue _ (by omega))
        (inward whenFalse _ (by omega)) (by omega)

theorem inward_all : (es : List Expr) → ∀ offset, offset + (listings es).width < 2 ^ 32 →
    (listings es).Inward offset
  | [], _, _ => .plain (List.forall_mem_nil _)
  | e :: rest, offset, fits => by
      rw [listings, Listing.width_append] at fits
      exact (inward e offset (by omega)).append (inward_all rest _ (by omega))

end

variable {r : Registry}

mutual

theorem nulFree : (e : Expr) → ∀ {ty : Ty}, e.Typed r ty → ∀ i ∈ e.listing, i.NulFree
  | .literal l, _, ⟨_, clean⟩ => by
      refine List.forall_mem_singleton.mpr ?_
      cases l with
      | str s => exact clean
      | _ => trivial
  | .cell .static _, _, _ => List.forall_mem_singleton.mpr trivial
  | .cell .dynamic _, _, _ => List.forall_mem_singleton.mpr trivial
  | .element array indexes, _, ⟨_, _, typed, all⟩ =>
      forall_mem_concat
        (List.forall_mem_append.mpr ⟨nulFree array typed, nulFree_all indexes all⟩) trivial
  | .call _ arguments, _, ⟨_, _, _, _, _, all, _⟩ =>
      forall_mem_concat (nulFree_all arguments all) trivial
  | .negate operand, _, ⟨typed, _⟩ => forall_mem_concat (nulFree operand typed) trivial
  | .arith _ lhs rhs, _, ⟨_, _, typedL, typedR, _⟩ =>
      forall_mem_concat (List.forall_mem_append.mpr ⟨nulFree lhs typedL, nulFree rhs typedR⟩)
        trivial
  | .compare _ lhs rhs, _, ⟨_, _, typedL, typedR, _⟩ =>
      forall_mem_concat (List.forall_mem_append.mpr ⟨nulFree lhs typedL, nulFree rhs typedR⟩)
        trivial
  | .choice condition whenTrue whenFalse, _, ⟨_, _, typedC, typedT, typedF, _⟩ =>
      List.forall_mem_append.mpr
        ⟨forall_mem_concat
          (List.forall_mem_append.mpr
            ⟨forall_mem_concat (nulFree condition typedC) trivial, nulFree whenTrue typedT⟩)
          trivial, nulFree whenFalse typedF⟩

theorem nulFree_all :
    (es : List Expr) → ∀ {tys : List Ty}, TypedAll r es tys → ∀ i ∈ listings es, i.NulFree
  | [], _, _ => List.forall_mem_nil _
  | e :: rest, _ :: _, ⟨typed, all⟩ =>
      List.forall_mem_append.mpr ⟨nulFree e typed, nulFree_all rest all⟩

end

end Expr

namespace Stmt

mutual

theorem inward : (stmt : Stmt) → ∀ offset, offset + stmt.listing.width < 2 ^ 32 →
    stmt.listing.Inward offset
  | .assign target _ value, offset, fits => by
      simp only [listing, Listing.width_append] at fits
      exact ((target.inward offset (by omega)).append (value.inward _ (by omega))).concat rfl
  | .declare _, _, _ => .plain (List.forall_mem_nil _)
  | .block _ declared body, offset, fits => by
      simp only [listing, Listing.width_append] at fits
      refine .append (.plain fun i member => ?_) (inwardOf body _ (by omega))
      obtain ⟨cell, -, rfl⟩ := List.mem_map.mp member
      rfl
  | .function _ _ _ _, _, _ => .plain (List.forall_mem_nil _)

theorem inwardOf : (stmts : List Stmt) → ∀ offset, offset + (listingOf stmts).width < 2 ^ 32 →
    (listingOf stmts).Inward offset
  | [], _, _ => .plain (List.forall_mem_nil _)
  | stmt :: rest, offset, fits => by
      rw [listingOf, Listing.width_append] at fits
      exact (inward stmt offset (by omega)).append (inwardOf rest _ (by omega))

end

/-- The jumps of a function stay in it. -/
theorem routine_closed (symbol : Nat) (params : List Nat) (body : List Stmt) {offset : Nat}
    (fits : offset + (routine symbol params body).listing.width < 2 ^ 32) :
    (routine symbol params body).listing.Closed offset := by
  simp only [routine, Listing.width_append] at fits
  refine Listing.Inward.closed (.append (.plain fun i member => ?_) (inwardOf body _ ?_)) rfl
  · simp only [List.mem_append, List.mem_singleton, List.mem_map] at member
    rcases member with (rfl | ⟨param, -, rfl⟩) | ⟨cell, -, rfl⟩ <;> rfl
  · simp only [Listing.width_append]
    omega

variable {r : Registry}

mutual

theorem nulFree {scope : Scope} :
    (stmt : Stmt) → stmt.Typed r scope → ∀ i ∈ stmt.listing, i.NulFree
  | .assign target _ value, ⟨_, _, _, typedT, typedV, _⟩ =>
      forall_mem_concat (List.forall_mem_append.mpr ⟨target.nulFree typedT, value.nulFree typedV⟩)
        trivial
  | .declare _, _ => List.forall_mem_nil _
  | .block _ _ body, ⟨_, _, all⟩ => by
      refine List.forall_mem_append.mpr ⟨fun i member => ?_, nulFreeOf body all⟩
      obtain ⟨cell, -, rfl⟩ := List.mem_map.mp member
      trivial
  | .function _ _ _ _, _ => List.forall_mem_nil _

theorem nulFreeOf {scope : Scope} :
    (stmts : List Stmt) → TypedAll r scope stmts → ∀ i ∈ listingOf stmts, i.NulFree
  | [], _ => List.forall_mem_nil _
  | stmt :: rest, ⟨first, others⟩ =>
      List.forall_mem_append.mpr ⟨nulFree stmt first, nulFreeOf rest others⟩

end

theorem routine_nulFree {scope : Scope} (symbol : Nat) (params : List Nat) {body : List Stmt}
    (all : TypedAll r scope body) : ∀ i ∈ (routine symbol params body).listing, i.NulFree := by
  intro i member
  simp only [routine, List.mem_append, List.mem_singleton, List.mem_map] at member
  rcases member with (((rfl | ⟨param, -, rfl⟩) | ⟨cell, -, rfl⟩) | line) | rfl
  · trivial
  · trivial
  · trivial
  · exact nulFreeOf body all i line
  · trivial

end Stmt

/-- An instruction in the code of some functions belongs to one of them. -/
theorem Routine.exists_of_mem_places {offset place : Nat} {routines : List Routine}
    {i : Instruction} (member : (place, i) ∈ Listing.places offset (Routine.code routines)) :
    ∃ front r back, routines = front ++ r :: back ∧
      (place, i) ∈ r.listing.places (offset + (Routine.code front).width) := by
  induction routines generalizing offset with
  | nil => cases member
  | cons r rest induction =>
      rw [code_cons, Listing.places_append, List.mem_append] at member
      rcases member with here | there
      · exact ⟨[], r, rest, rfl, here⟩
      · obtain ⟨front, r', back, rfl, inside⟩ := induction there
        refine ⟨r :: front, r', back, rfl, ?_⟩
        rwa [code_cons, Listing.width_append, ← Nat.add_assoc]

end StackScript
