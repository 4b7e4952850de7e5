import StackScript.Proofs.Program

namespace StackScript

/-! The symbols that a program names, in the order in which its code names them. -/

/-- The symbol in an instruction that is emitted for a name. -/
def Instruction.named? : Instruction → Option UInt32
  | .putAddr index | .putDAddr index | .call index => some index
  | _ => none

namespace Listing

def named (listing : Listing) : List UInt32 :=
  listing.filterMap Instruction.named?

@[simp] theorem named_append (front back : Listing) :
    named (front ++ back) = front.named ++ back.named := by
  simp [named]

theorem named_eq_nil {listing : Listing} (none : ∀ i ∈ listing, i.named? = none) :
    listing.named = [] :=
  List.filterMap_eq_nil_iff.mpr none

theorem named_map (mk : Nat → Instruction) (none : ∀ cell, (mk cell).named? = none)
    (cells : List Nat) : named (cells.map mk) = [] := by
  apply named_eq_nil
  intro i member
  obtain ⟨cell, -, rfl⟩ := List.mem_map.mp member
  exact none cell

end Listing

namespace Expr

mutual

def symbols : Expr → List Nat
  | .literal _ => []
  | .cell _ symbol => [symbol]
  | .element array indexes => array.symbols ++ symbolsOf indexes
  | .call function arguments => symbolsOf arguments ++ [function]
  | .negate operand => operand.symbols
  | .arith _ lhs rhs => lhs.symbols ++ rhs.symbols
  | .compare _ lhs rhs => lhs.symbols ++ rhs.symbols
  | .choice condition whenTrue whenFalse =>
      condition.symbols ++ whenTrue.symbols ++ whenFalse.symbols

def symbolsOf : List Expr → List Nat
  | [] => []
  | e :: rest => e.symbols ++ symbolsOf rest

end

mutual

theorem named_listing : (e : Expr) → Listing.named e.listing = e.symbols.map UInt32.ofNat
  | .literal l => by cases l <;> rfl
  | .cell .static _ => rfl
  | .cell .dynamic _ => rfl
  | .element array indexes => by
      rw [listing, Listing.named_append, Listing.named_append, named_listing array,
        named_listings indexes, symbols, List.map_append]
      exact List.append_nil _
  | .call function arguments => by
      rw [listing, Listing.named_append, named_listings arguments, symbols, List.map_append]
      rfl
  | .negate operand => by
      rw [listing, Listing.named_append, named_listing operand]
      exact List.append_nil _
  | .arith _ lhs rhs => by
      rw [listing, Listing.named_append, Listing.named_append, named_listing lhs,
        named_listing rhs, symbols, List.map_append]
      exact List.append_nil _
  | .compare _ lhs rhs => by
      rw [listing, Listing.named_append, Listing.named_append, named_listing lhs,
        named_listing rhs, symbols, List.map_append]
      exact List.append_nil _
  | .choice condition whenTrue whenFalse => by
      simp only [listing, Listing.named_append, named_listing condition, named_listing whenTrue,
        named_listing whenFalse, symbols, List.map_append]
      rw [show Listing.named [Instruction.jumpIfFalse _] = [] from rfl,
        show Listing.named [Instruction.jump _] = [] from rfl, List.append_nil, List.append_nil]

theorem named_listings :
    (es : List Expr) → Listing.named (listings es) = (symbolsOf es).map UInt32.ofNat
  | [] => rfl
  | e :: rest => by
      rw [listings, Listing.named_append, named_listing e, named_listings rest, symbolsOf,
        List.map_append]

end

end Expr

namespace Stmt

mutual

/-- The symbols that the code of a statement names in line. -/
def symbols : Stmt → List Nat
  | .assign target _ value => target.symbols ++ value.symbols
  | .declare _ => []
  | .block _ _ body => symbolsOf body
  | .function _ _ _ _ => []

def symbolsOf : List Stmt → List Nat
  | [] => []
  | stmt :: rest => stmt.symbols ++ symbolsOf rest

end

mutual

/-- The symbols that the functions defined in a statement name. -/
def inner : Stmt → List Nat
  | .assign _ _ _ => []
  | .declare _ => []
  | .block _ _ body => innerOf body
  | .function _ _ _ body => symbolsOf body ++ innerOf body

def innerOf : List Stmt → List Nat
  | [] => []
  | stmt :: rest => stmt.inner ++ innerOf rest

end

mutual

theorem named_listing : (stmt : Stmt) → Listing.named stmt.listing = stmt.symbols.map UInt32.ofNat
  | .assign target _ value => by
      rw [listing, Listing.named_append, Listing.named_append, target.named_listing,
        value.named_listing, symbols, List.map_append]
      exact List.append_nil _
  | .declare _ => rfl
  | .block _ declared body => by
      rw [listing, Listing.named_append, Listing.named_map _ (fun _ => rfl), List.nil_append,
        named_listingOf body, symbols]
  | .function _ _ _ _ => rfl

theorem named_listingOf :
    (stmts : List Stmt) → Listing.named (listingOf stmts) = (symbolsOf stmts).map UInt32.ofNat
  | [] => rfl
  | stmt :: rest => by
      rw [listingOf, Listing.named_append, named_listing stmt, named_listingOf rest, symbolsOf,
        List.map_append]

end

theorem named_routine (symbol : Nat) (params : List Nat) (body : List Stmt) :
    Listing.named (routine symbol params body).listing = (symbolsOf body).map UInt32.ofNat := by
  simp only [routine, Listing.named_append, named_listingOf,
    Listing.named_map (fun cell => .allocVars (UInt32.ofNat cell)) (fun _ => rfl),
    Listing.named_map (fun cell => .allocVar (UInt32.ofNat cell)) (fun _ => rfl)]
  exact List.append_nil _

mutual

theorem named_routines : (stmt : Stmt) →
    Listing.named (Routine.code stmt.routines) = stmt.inner.map UInt32.ofNat
  | .assign _ _ _ => rfl
  | .declare _ => rfl
  | .block _ _ body => named_routinesOf body
  | .function _ symbol params body => by
      rw [routines, Routine.code_cons, Listing.named_append, named_routine, named_routinesOf body,
        inner, List.map_append]

theorem named_routinesOf : (stmts : List Stmt) →
    Listing.named (Routine.code (routinesOf stmts)) = (innerOf stmts).map UInt32.ofNat
  | [] => rfl
  | stmt :: rest => by
      rw [routinesOf, Routine.code_append, Listing.named_append, named_routines stmt,
        named_routinesOf rest, innerOf, List.map_append]

end

end Stmt

end StackScript
