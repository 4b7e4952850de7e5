import StackScript.Proofs.Tree.Listing
import StackScript.Proofs.Tree.Typing

namespace StackScript.Stmt

/-! Every symbol that a program declares takes room in its code, so a program whose code is in reach
of words has a variable table in reach of words. -/

mutual

/-- The variables that a statement resets in line. -/
def resets : Stmt → List Nat
  | .block _ declared body => declared ++ resetsOf body
  | _ => []

def resetsOf : List Stmt → List Nat
  | [] => []
  | stmt :: rest => stmt.resets ++ resetsOf rest

end

theorem resetsOf_append (front back : List Stmt) :
    resetsOf (front ++ back) = resetsOf front ++ resetsOf back := by
  induction front with
  | nil => rfl
  | cons stmt front induction => simp [resetsOf, induction]

mutual

/-- The cells that the functions defined in a statement allocate or reset. -/
def cells : Stmt → List Nat
  | .block _ _ body => cellsOf body
  | .function _ symbol params body =>
      symbol :: params ++ localsOf body ++ resetsOf body ++ cellsOf body
  | _ => []

def cellsOf : List Stmt → List Nat
  | [] => []
  | stmt :: rest => stmt.cells ++ cellsOf rest

end

theorem width_map {mk : Nat → Instruction} (width : ∀ cell, (mk cell).width = 5)
    (cells : List Nat) : Listing.width (cells.map mk) = 5 * cells.length := by
  induction cells with
  | nil => rfl
  | cons cell cells induction =>
      rw [List.map_cons, Listing.width_cons, induction, width, List.length_cons]
      omega

theorem width_initVar (cell : Nat) : (Instruction.initVar (UInt32.ofNat cell)).width = 5 := by
  simp [Instruction.width_eq, Instruction.operands]

theorem width_allocVar (cell : Nat) : (Instruction.allocVar (UInt32.ofNat cell)).width = 5 := by
  simp [Instruction.width_eq, Instruction.operands]

theorem width_allocVars (cell : Nat) : (Instruction.allocVars (UInt32.ofNat cell)).width = 5 := by
  simp [Instruction.width_eq, Instruction.operands]

mutual

theorem resets_width : (stmt : Stmt) → 5 * stmt.resets.length ≤ stmt.listing.width
  | .assign _ _ _ => Nat.zero_le _
  | .declare _ => Nat.zero_le _
  | .block _ declared body => by
      have inner := resetsOf_width body
      rw [resets, listing, Listing.width_append, width_map width_initVar, List.length_append]
      omega
  | .function _ _ _ _ => Nat.zero_le _

theorem resetsOf_width :
    (stmts : List Stmt) → 5 * (resetsOf stmts).length ≤ (listingOf stmts).width
  | [] => Nat.zero_le _
  | stmt :: rest => by
      have first := resets_width stmt
      have others := resetsOf_width rest
      rw [resetsOf, listingOf, Listing.width_append, List.length_append]
      omega

end

mutual

theorem cells_width : (stmt : Stmt) →
    5 * stmt.cells.length ≤ Listing.width (Routine.code stmt.routines)
  | .assign _ _ _ => Nat.zero_le _
  | .declare _ => Nat.zero_le _
  | .block _ _ body => cellsOf_width body
  | .function _ symbol params body => by
      have inner := cellsOf_width body
      have line := resetsOf_width body
      simp only [cells, routines, routine, Routine.code_cons, Listing.width_append,
        Listing.width_cons, Listing.width_nil, width_map width_allocVars,
        width_map width_allocVar, width_allocVar, List.length_append, List.length_cons,
        List.length_reverse]
      omega

theorem cellsOf_width :
    (stmts : List Stmt) → 5 * (cellsOf stmts).length ≤ Listing.width (Routine.code (routinesOf stmts))
  | [] => Nat.zero_le _
  | stmt :: rest => by
      have first := cells_width stmt
      have others := cellsOf_width rest
      rw [cellsOf, routinesOf, Routine.code_append, Listing.width_append, List.length_append]
      omega

end

theorem direct_subset_locals (stmts : List Stmt) : direct stmts ⊆ localsOf stmts := by
  induction stmts with
  | nil => exact List.nil_subset _
  | cons stmt stmts induction =>
      cases stmt with
      | declare symbol => exact List.cons_subset_cons symbol induction
      | _ => exact List.subset_append_of_subset_right _ induction

mutual

/-- A declared symbol is a variable declared here, or one that a block or a function takes care
of. -/
theorem mem_declares {r : Registry} {scope : Scope} :
    (stmt : Stmt) → stmt.Typed r scope → ∀ symbol ∈ stmt.declares,
      stmt = .declare symbol ∨ symbol ∈ stmt.resets ∨ symbol ∈ stmt.cells
  | .assign _ _ _, _, _, member => absurd member List.not_mem_nil
  | .declare _, _, _, member => .inl (congrArg _ (List.mem_singleton.mp member).symm)
  | .block _ declared body, ⟨_, reset, all⟩, symbol, member => by
      rcases mem_declaresOf body all symbol member with here | line | cell
      · exact .inr (.inl (List.mem_append_left _ (reset here)))
      · exact .inr (.inl (List.mem_append_right _ line))
      · exact .inr (.inr cell)
  | .function _ name params body, ⟨_, _, _, _, all⟩, symbol, member => by
      refine .inr (.inr ?_)
      rcases List.mem_append.mp member with own | inside
      · simp only [cells, List.append_assoc]
        exact List.mem_append_left _ own
      · simp only [cells, List.mem_append]
        rcases mem_declaresOf body all symbol inside with here | line | cell
        · exact .inl (.inl (.inr (direct_subset_locals body here)))
        · exact .inl (.inr line)
        · exact .inr cell

theorem mem_declaresOf {r : Registry} {scope : Scope} :
    (stmts : List Stmt) → TypedAll r scope stmts → ∀ symbol ∈ declaresOf stmts,
      symbol ∈ direct stmts ∨ symbol ∈ resetsOf stmts ∨ symbol ∈ cellsOf stmts
  | [], _, _, member => absurd member List.not_mem_nil
  | stmt :: rest, ⟨typed, all⟩, symbol, member => by
      simp only [resetsOf, cellsOf, List.mem_append]
      rcases List.mem_append.mp member with first | others
      · rcases mem_declares stmt typed symbol first with rfl | line | cell
        · exact .inl List.mem_cons_self
        · exact .inr (.inl (.inl line))
        · exact .inr (.inr (.inl cell))
      · rcases mem_declaresOf rest all symbol others with here | line | cell
        · refine .inl ?_
          cases stmt with
          | declare other => exact List.mem_cons_of_mem other here
          | _ => exact here
        · exact .inr (.inl (.inr line))
        · exact .inr (.inr (.inr cell))

end

mutual

theorem outlines_perm :
    (stmt : Stmt) → (stmt.locals ++ stmt.outlines.flatten).Perm stmt.declares
  | .assign _ _ _ => .refl []
  | .declare symbol => .refl [symbol]
  | .block _ _ body => outlinesOf_perm body
  | .function _ symbol params body => by
      have inner := outlinesOf_perm body
      rw [locals, outlines, List.flatten_cons, outline, declares, List.nil_append,
        List.cons_append, List.cons_append, List.append_assoc]
      exact .cons symbol (params.reverse_perm.append inner)

theorem outlinesOf_perm :
    (stmts : List Stmt) → (localsOf stmts ++ (outlinesOf stmts).flatten).Perm (declaresOf stmts)
  | [] => .refl []
  | stmt :: rest => by
      have both := (outlines_perm stmt).append (outlinesOf_perm rest)
      rw [List.append_assoc] at both
      rw [localsOf, outlinesOf, declaresOf, List.flatten_append, List.append_assoc]
      exact ((List.perm_append_comm_assoc ..).append_left stmt.locals).trans both

end

end StackScript.Stmt
