import StackScript.Compilation
import StackScript.Proofs.Code.Placement

namespace StackScript

/-! The code of expressions, statements and functions as lists of instructions, and where functions
start in it. -/

theorem forall_mem_concat {listing : Listing} {last : Instruction} {P : Instruction → Prop}
    (all : ∀ i ∈ listing, P i) (end' : P last) : ∀ i ∈ listing ++ [last], P i :=
  List.forall_mem_append.mpr ⟨all, List.forall_mem_singleton.mpr end'⟩

namespace Expr

mutual

def listing : Expr → Listing
  | .literal l => [l.instruction]
  | .cell .static symbol => [.putAddr (UInt32.ofNat symbol)]
  | .cell .dynamic symbol => [.putDAddr (UInt32.ofNat symbol)]
  | .element array indexes =>
      array.listing ++ listings indexes ++ [.putIndAddr (UInt8.ofNat indexes.length)]
  | .call function arguments => listings arguments ++ [.call (UInt32.ofNat function)]
  | .negate operand => operand.listing ++ [.neg]
  | .arith operation lhs rhs => lhs.listing ++ rhs.listing ++ [.arith operation]
  | .compare relation lhs rhs => lhs.listing ++ rhs.listing ++ [.compare relation]
  | .choice condition whenTrue whenFalse =>
      condition.listing ++
        [.jumpIfFalse (UInt32.ofNat (jumpSize + whenTrue.listing.width + jumpSize))] ++
        whenTrue.listing ++ [.jump (UInt32.ofNat (jumpSize + whenFalse.listing.width))] ++
        whenFalse.listing

def listings : List Expr → Listing
  | [] => []
  | e :: rest => e.listing ++ listings rest

end

mutual

theorem holds : (e : Expr) → e.unit.Holds e.listing
  | .literal _ => CodeUnit.holds_single _
  | .cell .static _ => CodeUnit.holds_single _
  | .cell .dynamic _ => CodeUnit.holds_single _
  | .element array indexes =>
      (array.holds.append (holds_all indexes)).append (CodeUnit.holds_single _)
  | .call _ arguments => (holds_all arguments).append (CodeUnit.holds_single _)
  | .negate operand => operand.holds.append (CodeUnit.holds_single _)
  | .arith _ lhs rhs => (lhs.holds.append rhs.holds).append (CodeUnit.holds_single _)
  | .compare _ lhs rhs => (lhs.holds.append rhs.holds).append (CodeUnit.holds_single _)
  | .choice condition whenTrue whenFalse => by
      simp only [unit, listing, whenTrue.holds.size, whenFalse.holds.size]
      exact (((condition.holds.append (CodeUnit.holds_single _)).append whenTrue.holds).append
        (CodeUnit.holds_single _)).append whenFalse.holds

theorem holds_all : (es : List Expr) → (units es).Holds (listings es)
  | [] => CodeUnit.holds_empty
  | e :: rest => e.holds.append (holds_all rest)

end

end Expr

namespace CodeUnit

theorem append_noFunctions {left right : CodeUnit} (first : left.functions = [])
    (second : right.functions = []) : (left ++ right).functions = [] := by
  rw [append_functions, first, second]
  rfl

end CodeUnit

namespace Expr

mutual

theorem unit_functions : (e : Expr) → e.unit.functions = []
  | .literal _ => rfl
  | .cell .static _ => rfl
  | .cell .dynamic _ => rfl
  | .element array indexes =>
      CodeUnit.append_noFunctions
        (CodeUnit.append_noFunctions array.unit_functions (units_functions indexes)) rfl
  | .call _ arguments => CodeUnit.append_noFunctions (units_functions arguments) rfl
  | .negate operand => CodeUnit.append_noFunctions operand.unit_functions rfl
  | .arith _ lhs rhs =>
      CodeUnit.append_noFunctions
        (CodeUnit.append_noFunctions lhs.unit_functions rhs.unit_functions) rfl
  | .compare _ lhs rhs =>
      CodeUnit.append_noFunctions
        (CodeUnit.append_noFunctions lhs.unit_functions rhs.unit_functions) rfl
  | .choice condition whenTrue whenFalse =>
      CodeUnit.append_noFunctions
        (CodeUnit.append_noFunctions
          (CodeUnit.append_noFunctions
            (CodeUnit.append_noFunctions condition.unit_functions rfl)
            whenTrue.unit_functions) rfl)
        whenFalse.unit_functions

theorem units_functions : (es : List Expr) → (units es).functions = []
  | [] => rfl
  | e :: rest => CodeUnit.append_noFunctions e.unit_functions (units_functions rest)

end

end Expr

/-! Functions one after the other. -/

/-- The code of a function with the number of its symbol. -/
structure Routine where
  symbol : Nat
  listing : Listing

namespace Routine

def code (routines : List Routine) : Listing :=
  routines.flatMap Routine.listing

@[simp] theorem code_nil : code [] = [] := rfl

@[simp] theorem code_cons (r : Routine) (rest : List Routine) :
    code (r :: rest) = r.listing ++ code rest := rfl

@[simp] theorem code_append (front back : List Routine) :
    code (front ++ back) = code front ++ code back := by
  simp [code]

/-- Where each function starts if the first one starts at an offset. -/
def refs : (offset : Nat) → List Routine → List FunctionRef
  | _, [] => []
  | offset, r :: rest =>
      { symbol := r.symbol, offset } :: refs (offset + r.listing.width) rest

theorem refs_append (offset : Nat) (front back : List Routine) :
    refs offset (front ++ back) =
      refs offset front ++ refs (offset + (code front).width) back := by
  induction front generalizing offset with
  | nil => simp [refs]
  | cons r front induction => simp [refs, induction, Nat.add_assoc]

theorem refs_add (base offset : Nat) (routines : List Routine) :
    refs (offset + base) routines =
      (refs offset routines).map fun f => { f with offset := f.offset + base } := by
  induction routines generalizing offset with
  | nil => rfl
  | cons r rest induction => simp [refs, ← induction, Nat.add_right_comm]

theorem exists_split {offset : Nat} {routines : List Routine} {f : FunctionRef}
    (member : f ∈ refs offset routines) :
    ∃ front r back, routines = front ++ r :: back ∧ f.symbol = r.symbol ∧
      f.offset = offset + (code front).width := by
  induction routines generalizing offset with
  | nil => cases member
  | cons r rest induction =>
      rcases List.mem_cons.mp member with rfl | member
      · exact ⟨[], r, rest, rfl, rfl, rfl⟩
      · obtain ⟨front, r', back, rfl, symbol, place⟩ := induction member
        refine ⟨r :: front, r', back, rfl, symbol, place.trans ?_⟩
        rw [code_cons, Listing.width_append, Nat.add_assoc]

theorem le_of_mem_refs {offset : Nat} {routines : List Routine} {f : FunctionRef}
    (member : f ∈ refs offset routines) : offset ≤ f.offset := by
  obtain ⟨front, -, -, -, -, place⟩ := exists_split member
  exact place ▸ Nat.le_add_right offset _

/-- Functions that stand one after the other: the last one that starts before a place in one of them
is that one. -/
theorem find?_refs {offset place : Nat} {front back : List Routine} {r : Routine}
    (later : offset + (code front).width ≤ place)
    (earlier : place < offset + (code front).width + r.listing.width) :
    (refs offset (front ++ r :: back)).reverse.find? (fun f => decide (f.offset ≤ place)) =
      some { symbol := r.symbol, offset := offset + (code front).width } := by
  have behind : (refs (offset + (code front).width + r.listing.width) back).reverse.find?
      (fun f => decide (f.offset ≤ place)) = none := by
    rw [List.find?_eq_none]
    intro f member
    have after := le_of_mem_refs (List.mem_reverse.mp member)
    simp only [decide_eq_true_eq]
    omega
  rw [refs_append, List.reverse_append, List.find?_append, refs, List.reverse_cons,
    List.find?_append, behind, Option.none_or, List.find?_singleton, if_pos (by simpa using later)]
  rfl

theorem exists_ref (offset : Nat) {routines : List Routine} {r : Routine} (member : r ∈ routines) :
    ∃ f ∈ refs offset routines, f.symbol = r.symbol := by
  induction routines generalizing offset with
  | nil => cases member
  | cons first rest induction =>
      rcases List.mem_cons.mp member with rfl | member
      · exact ⟨_, List.mem_cons_self, rfl⟩
      · obtain ⟨f, inside, found⟩ := induction _ member
        exact ⟨f, List.mem_cons_of_mem _ inside, found⟩

end Routine

/-- The unit consists of the functions, and records where they start. -/
structure CodeUnit.Carries (unit : CodeUnit) (routines : List Routine) : Prop where
  holds : unit.Holds (Routine.code routines)
  functions : unit.functions = Routine.refs 0 routines

namespace CodeUnit

theorem carries_empty : Carries empty [] where
  holds := holds_empty
  functions := rfl

theorem Carries.append {left right : CodeUnit} {front back : List Routine}
    (first : left.Carries front) (second : right.Carries back) :
    (left ++ right).Carries (front ++ back) where
  holds := by
    rw [Routine.code_append]
    exact first.holds.append second.holds
  functions := by
    rw [append_functions, first.functions, second.functions, first.holds.size,
      Routine.refs_append, ← Routine.refs_add]

theorem carries_routine {unit : CodeUnit} {r : Routine} (holds : unit.Holds r.listing)
    (functions : unit.functions = [{ symbol := r.symbol, offset := 0 }]) : unit.Carries [r] where
  holds := by simpa using holds
  functions := functions

end CodeUnit

/-- An emission consists of code that runs in line and of functions. -/
structure Emission.Holds (emission : Emission) (listing : Listing)
    (routines : List Routine) : Prop where
  inline : emission.inline.Holds listing
  noFunctions : emission.inline.functions = []
  functions : emission.functions.Carries routines

namespace Stmt

mutual

/-- What a statement runs in line. -/
def listing : Stmt → Listing
  | .assign target update value => target.listing ++ value.listing ++ [.assign update]
  | .declare _ => []
  | .block _ declared body =>
      declared.map (fun cell => .initVar (UInt32.ofNat cell)) ++ listingOf body
  | .function _ _ _ _ => []

def listingOf : List Stmt → Listing
  | [] => []
  | stmt :: rest => stmt.listing ++ listingOf rest

end

theorem listingOf_append (front back : List Stmt) :
    listingOf (front ++ back) = listingOf front ++ listingOf back := by
  induction front with
  | nil => rfl
  | cons stmt front induction => simp [listingOf, induction]

/-- The code of a function from the allocation of its cells to its return. -/
def routine (symbol : Nat) (params : List Nat) (body : List Stmt) : Routine where
  symbol := symbol
  listing :=
    [.allocVar (UInt32.ofNat symbol)] ++
      params.reverse.map (fun param => .allocVars (UInt32.ofNat param)) ++
      (localsOf body).map (fun cell => .allocVar (UInt32.ofNat cell)) ++
      listingOf body ++ [.ret (UInt32.ofNat symbol)]

mutual

/-- The functions that a statement defines, each before those defined in it. -/
def routines : Stmt → List Routine
  | .assign _ _ _ => []
  | .declare _ => []
  | .block _ _ body => routinesOf body
  | .function _ symbol params body => routine symbol params body :: routinesOf body

def routinesOf : List Stmt → List Routine
  | [] => []
  | stmt :: rest => stmt.routines ++ routinesOf rest

end

/-- The cells of a function in the order in which it allocates them. -/
def outline (symbol : Nat) (params : List Nat) (body : List Stmt) : List Nat :=
  symbol :: (params.reverse ++ localsOf body)

mutual

/-- The cells of each function that a statement defines. -/
def outlines : Stmt → List (List Nat)
  | .assign _ _ _ => []
  | .declare _ => []
  | .block _ _ body => outlinesOf body
  | .function _ symbol params body => outline symbol params body :: outlinesOf body

def outlinesOf : List Stmt → List (List Nat)
  | [] => []
  | stmt :: rest => stmt.outlines ++ outlinesOf rest

end

/-- A function as it is defined: its symbol, its parameters and its body. -/
structure Definition where
  symbol : Nat
  params : List Nat
  body : List Stmt

namespace Definition

def routine (d : Definition) : Routine :=
  Stmt.routine d.symbol d.params d.body

def outline (d : Definition) : List Nat :=
  Stmt.outline d.symbol d.params d.body

end Definition

mutual

/-- The functions that a statement defines, in the order of their code. -/
def definitions : Stmt → List Definition
  | .assign _ _ _ => []
  | .declare _ => []
  | .block _ _ body => definitionsOf body
  | .function _ symbol params body => ⟨symbol, params, body⟩ :: definitionsOf body

def definitionsOf : List Stmt → List Definition
  | [] => []
  | stmt :: rest => stmt.definitions ++ definitionsOf rest

end

mutual

theorem routines_eq : (stmt : Stmt) → stmt.routines = stmt.definitions.map Definition.routine
  | .assign _ _ _ => rfl
  | .declare _ => rfl
  | .block _ _ body => routinesOf_eq body
  | .function _ _ _ body => congrArg _ (routinesOf_eq body)

theorem routinesOf_eq :
    (stmts : List Stmt) → routinesOf stmts = (definitionsOf stmts).map Definition.routine
  | [] => rfl
  | stmt :: rest => by
      rw [routinesOf, definitionsOf, List.map_append, routines_eq stmt, routinesOf_eq rest]

end

mutual

theorem outlines_eq : (stmt : Stmt) → stmt.outlines = stmt.definitions.map Definition.outline
  | .assign _ _ _ => rfl
  | .declare _ => rfl
  | .block _ _ body => outlinesOf_eq body
  | .function _ _ _ body => congrArg _ (outlinesOf_eq body)

theorem outlinesOf_eq :
    (stmts : List Stmt) → outlinesOf stmts = (definitionsOf stmts).map Definition.outline
  | [] => rfl
  | stmt :: rest => by
      rw [outlinesOf, definitionsOf, List.map_append, outlines_eq stmt, outlinesOf_eq rest]

end

theorem functionUnit_carries {symbol : Nat} {params : List Nat} {body : List Stmt}
    {emission : Emission} (emitted : emission.Holds (listingOf body) (routinesOf body)) :
    (functionUnit symbol params (localsOf body) emission).Carries
      (routine symbol params body :: routinesOf body) := by
  have own : (((CodeUnit.single (.allocVar (UInt32.ofNat symbol))).addFunction symbol 0) ++
      .ofInstructions (params.reverse.map fun param => .allocVars (UInt32.ofNat param)) ++
      .ofInstructions ((localsOf body).map fun cell => .allocVar (UInt32.ofNat cell)) ++
      emission.inline ++ .single (.ret (UInt32.ofNat symbol))).Carries
        [routine symbol params body] := by
    apply CodeUnit.carries_routine
    · have start := (CodeUnit.holds_single (.allocVar (UInt32.ofNat symbol))).addFunction symbol 0
      have arguments : (CodeUnit.ofInstructions
          (params.reverse.map fun param => .allocVars (UInt32.ofNat param))).Holds _ :=
        CodeUnit.holds_ofInstructions (by simp [Instruction.target?])
      have others : (CodeUnit.ofInstructions
          ((localsOf body).map fun cell => .allocVar (UInt32.ofNat cell))).Holds _ :=
        CodeUnit.holds_ofInstructions (by simp [Instruction.target?])
      exact (((start.append arguments).append others).append emitted.inline).append
        (CodeUnit.holds_single _)
    · simp only [CodeUnit.append_functions, emitted.noFunctions]
      rfl
  exact own.append emitted.functions

mutual

theorem emission_holds : (stmt : Stmt) → stmt.emission.Holds stmt.listing stmt.routines
  | .assign target update value =>
      { inline := (target.holds.append value.holds).append (CodeUnit.holds_single _)
        noFunctions :=
          CodeUnit.append_noFunctions
            (CodeUnit.append_noFunctions target.unit_functions value.unit_functions) rfl
        functions := CodeUnit.carries_empty }
  | .declare _ =>
      { inline := CodeUnit.holds_empty
        noFunctions := rfl
        functions := CodeUnit.carries_empty }
  | .block _ declared body =>
      { inline :=
          (CodeUnit.holds_ofInstructions (by simp [Instruction.target?])).append
            (emissionOf_holds body).inline
        noFunctions := CodeUnit.append_noFunctions rfl (emissionOf_holds body).noFunctions
        functions := CodeUnit.carries_empty.append (emissionOf_holds body).functions }
  | .function _ symbol params body =>
      { inline := CodeUnit.holds_empty
        noFunctions := rfl
        functions := functionUnit_carries (emissionOf_holds body) }

theorem emissionOf_holds :
    (stmts : List Stmt) → (emissionOf stmts).Holds (listingOf stmts) (routinesOf stmts)
  | [] =>
      { inline := CodeUnit.holds_empty
        noFunctions := rfl
        functions := CodeUnit.carries_empty }
  | stmt :: rest =>
      { inline := stmt.emission_holds.inline.append (emissionOf_holds rest).inline
        noFunctions :=
          CodeUnit.append_noFunctions stmt.emission_holds.noFunctions
            (emissionOf_holds rest).noFunctions
        functions := stmt.emission_holds.functions.append (emissionOf_holds rest).functions }

end

end Stmt

end StackScript
