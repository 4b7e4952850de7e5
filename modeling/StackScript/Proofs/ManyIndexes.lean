import StackScript.Proofs.Grammar.Indexes
import StackScript.Proofs.IndexArity

namespace StackScript

/-! A program with one array and any number of indexes. It is accepted with all of them, but from
256 on it fails. -/

open Compilation Grammar

namespace ManyIndexes

variable {n : Nat} {place : Position}

/-- The index types: one more than the number says, so that there is always one. -/
def index (n : Nat) : List Scalar :=
  List.replicate (n + 1) .int

def typesText : Nat → List Char
  | 0 => scalarWord .int
  | n + 1 => scalarWord .int ++ ',' :: typesText n

def typeText (n : Nat) : List Char :=
  "array".toList ++ ' ' :: '[' :: (typesText n ++ ']' :: (" of".toList ++ ' ' :: scalarWord .int))

def zeros (n : Nat) : List Formula :=
  List.replicate (n + 1) (.number 0 (by decide))

/-- Declares an array and sets its element at zeros. With two indexes it is
`array [int,int] of int a a[0 ,0 ] = 7`. -/
def source (n : Nat) : List Char :=
  typeText n ++ ' ' :: (['a'] ++ ' ' :: (['a'] ++ '[' :: (argumentsText [] (zeros n) ++
    ']' :: ' ' :: '=' :: ' ' :: ['7'])))

def symbols (n : Nat) (place : Position) : Registry :=
  withVariable initialRegistry .root "a" (.array (index n) .int) place

/-- The indexes of the element. -/
def literals (n : Nat) : List Expr :=
  List.replicate (n + 1) (.literal (.int 0))

def statements (n : Nat) : List Stmt :=
  [.declare 6, .assign (.element (.cell .static 6) (literals n)) .set (.literal (.int 7))]

/-! Reading. -/

theorem typesText_index : (n : Nat) → Source.IndexText (index n) (typesText n)
  | 0 => .last (Source.spelled_scalarWord .int)
  | n + 1 => .more (Source.spelled_scalarWord .int) Source.blank_nil (typesText_index n)

theorem typeText_type (n : Nat) : Source.TypeText (.array (index n) .int) (typeText n) :=
  .array (.of_letters rfl) Source.blank_space (typesText_index n) Source.blank_nil
    (.behind Source.blank_space rfl) rfl (.scalar (.behind Source.blank_space rfl))

theorem isNew_a : SingleVariable.IsNew ['a'] where
  named := rfl
  free := by decide
  other := by decide

theorem zeros_typed : (n : Nat) → WellTyped (zeros n) ((index n).map .scalar)
  | 0 => .cons rfl .nil
  | n + 1 => .cons rfl (zeros_typed n)

theorem zeros_exprs : (n : Nat) → (zeros n).map Formula.expr = literals n
  | 0 => rfl
  | n + 1 => congrArg (_ :: ·) (zeros_exprs n)

theorem assignment_reads (n : Nat) (place : Position) :
    Gives Rejection.IsDeep (symbols n place)
      (statement (nestedWithin maxNesting) (bodyWithin maxNesting) .static .root 0)
      (['a'] ++ '[' :: (argumentsText [] (zeros n) ++ ']' :: ' ' :: '=' :: ' ' :: ['7'])) []
      (.assign (.element (.cell .static 6) (literals n)) .set (.literal (.int 7))) True := by
  have listed : (symbols n place).find? (String.ofList ['a']) .root .inherited = some 6 :=
    @find?_withVariable initialRegistry .root _ isNew_a.other (.array (index n) .int) place
  have reads := (@nestedWithin_reads (symbols n place) [] .root (List.forall_mem_nil _)
    maxNesting).1
  have shallow : ∀ e ∈ zeros n, e.nesting < maxNesting := by
    intro e member
    rw [List.eq_of_mem_replicate member]
    decide
  have typed := zeros_typed n
  have element : elementTy? (.array (index n) .int) ((typedFormulas (zeros n)
      ((index n).map .scalar)).map Typed.ty) = some .int := by
    rw [typed.types]
    exact if_pos rfl
  have target : Gives Rejection.IsDeep (symbols n place) (target (nestedWithin maxNesting) .root)
      (['a'] ++ '[' :: (argumentsText [] (zeros n) ++ ']' :: ' ' :: '=' :: ' ' :: ['7']))
      (' ' :: '=' :: ' ' :: ['7'])
      { expr := .element (.cell .static 6) (literals n), ty := .int } True := by
    rw [← zeros_exprs, ← typed.exprs]
    exact target_gives_element isNew_a.named isNew_a.free listed rfl rfl
      (arguments_gives reads typed shallow (List.cons_ne_nil _ _)) element
  have value := reads (.number 7 (by decide)) .int [' ', '7'] [] rfl rfl .nil
  apply Gives.or_left
  exact assignment_gives target rfl (value.of_iff (iff_true_intro (by decide))) rfl

theorem program_reads (n : Nat) :
    ∃ place, Compiled (String.ofList (source n)) (symbols n place) (statements n)
      (assemble (symbols n place) (statements n)) := by
  have declared {nested : Nested} {body : BlockBody} {rest : List Char} :
      Meets (At initialRegistry (typeText n ++ ' ' :: (['a'] ++ ' ' :: rest)))
        (statement nested body .static .root 0)
        (fun stmt state => stmt = .declare 6 ∧ ∃ place, At (symbols n place) (' ' :: rest) state)
        fun _ _ => False :=
    declaration_declares (typeText_type n) (List.append_assoc "array".toList _ _) rfl
      (by decide) isNew_a.named isNew_a.free isNew_a.find?
  have long : 1 < (source n).length := by
    simp only [source, typeText, List.length_append, List.length_cons]
    omega
  have start : At initialRegistry (source n)
      { cursor := .ofSource (String.ofList (source n)), registry := initialRegistry } :=
    ⟨rfl, String.toList_ofList⟩
  have done := program_gives rfl long declared rfl rfl (List.cons_ne_nil _ _)
    (fun place => assignment_reads n place) rfl _ start
  cases run : program
      { cursor := .ofSource (String.ofList (source n)), registry := initialRegistry } with
  | ok stmts state =>
      rw [run] at done
      obtain ⟨rfl, -, place, same⟩ := done
      exact ⟨place, ⟨state, same, run⟩, rfl⟩
  | error r state =>
      rw [run] at done
      exact absurd trivial done.2

/-! Running. -/

theorem typesText_clean : (n : Nat) → '\x00' ∉ typesText n
  | 0 => by decide
  | n + 1 => by simp [typesText, scalarWord, typesText_clean n]

theorem argumentsText_clean : (n : Nat) → '\x00' ∉ argumentsText [] (zeros n)
  | 0 => by decide
  | n + 1 => by
      have first : '\x00' ∉ (Formula.number 0 (by decide)).text [] := by decide
      change '\x00' ∉ (Formula.number 0 _).text [] ++ ' ' :: ',' :: argumentsText [] (zeros n)
      simp [first, argumentsText_clean n]

theorem source_clean (n : Nat) : '\x00' ∉ source n := by
  simp [source, typeText, scalarWord, typesText_clean n, argumentsText_clean n]

theorem listings_width : (n : Nat) → (Expr.listings (literals n)).width = 9 * (n + 1)
  | 0 => by decide
  | n + 1 => by
      have first : (Expr.literal (.int 0)).listing.width = 9 := by decide
      change Listing.width ((Expr.literal (.int 0)).listing ++ Expr.listings (literals n)) = _
      rw [Listing.width_append, first, listings_width n]
      omega

theorem statements_width (n : Nat) :
    (Stmt.listingOf (statements n)).width = 9 * (n + 1) + 17 := by
  have element : (Expr.element (.cell .static 6) (literals n)).listing =
      (Expr.cell .static 6).listing ++ Expr.listings (literals n) ++
        [.putIndAddr (UInt8.ofNat (literals n).length)] := rfl
  have array : (Expr.cell .static 6).listing.width = 5 := by decide
  have count (c : UInt8) : Listing.width [.putIndAddr c] = 2 := rfl
  have value : (Expr.literal (.int 7)).listing.width = 9 := by decide
  have assign : Listing.width [.assign .set] = 1 := by decide
  simp only [statements, Stmt.listingOf, Stmt.listing, element, Listing.width_append,
    Listing.width_nil, array, listings_width, count, value, assign]
  omega

theorem assemble_addressable (small : n < 2 ^ 28) (place : Position) :
    (assemble (symbols n place) (statements n)).code.length < 2 ^ 32 := by
  have whole : (assemble (symbols n place) (statements n)).code.length =
      (listing (symbols n place) (statements n)).width :=
    (link_holds (symbols n place) (statements n)).size
  have reset : (symbols n place).declaredIn .root = [6] := rfl
  have functions : routines (statements n) = routines [] := rfl
  have prologue : (prologueListing [6]).width = 21 := by decide
  have stop : Listing.width [.stop] = 1 := by decide
  have builtins : (Routine.code (routines [])).width < 1000 := by decide
  rw [whole, listing, reset, functions, Listing.width_append, Listing.width_append,
    Listing.width_append, prologue, statements_width, stop]
  omega

/-- All numbers of indexes are accepted. -/
theorem builds (small : n < 2 ^ 28) : ∃ place, Builds (String.ofList (source n))
    (assemble (symbols n place) (statements n)) ∧
      Compiled (String.ofList (source n)) (symbols n place) (statements n)
        (assemble (symbols n place) (statements n)) := by
  obtain ⟨place, compiled⟩ := program_reads n
  refine ⟨place, ⟨?_, ?_, assemble_addressable small place⟩, compiled⟩
  · rw [String.toList_ofList]
    exact source_clean n
  · obtain ⟨state, same, run⟩ := compiled.read
    simp only [compile, run, same]

theorem constants : (n : Nat) →
    List.Forall₂ Expr.Constant (literals n) (List.replicate (n + 1) (.int 0))
  | 0 => .cons (.literal _) .nil
  | n + 1 => .cons (.literal _) (constants n)

theorem element (n : Nat) : (Expr.element (.cell .static 6) (literals n)).Element .static 6
    [List.replicate (n + 1) (.int 0)] :=
  .index .root (constants n)

theorem narrow (few : n < 255) : (Expr.element (.cell .static 6) (literals n)).Narrow := by
  have arity : (literals n).length < 256 := by
    rw [literals, List.length_replicate]
    omega
  refine List.forall_mem_cons.mpr ⟨arity, List.forall_mem_append.mpr ⟨by decide, ?_⟩⟩
  intro part inside
  obtain ⟨e, member, here⟩ := Expr.mem_partsOf.mp inside
  obtain rfl := List.eq_of_mem_replicate member
  obtain rfl := List.mem_singleton.mp here
  decide

/-- The program stops with fewer than 256 indexes, and fails with more. -/
theorem status_eq (room : n + 257 ≤ Machine.stackLimit) :
    ∃ unit, Builds (String.ofList (source n)) unit ∧
      (Execution.of unit).status =
        if n < 255 then .stopped else .failed (.expectedAddress .putIndAddr) := by
  have small : n < 2 ^ 28 := by
    have limit : Machine.stackLimit < 2 ^ 28 := by decide
    omega
  obtain ⟨place, builds, compiled⟩ := builds small
  refine ⟨_, builds, ?_⟩
  split
  · rename_i few
    have program := compiled.typedProgram builds.clean
    obtain ⟨t, typed, -⟩ := Stmt.exists_scalar (.literal (.int 7)) program.typed.2.1
    have straight : Stmt.StraightAll (statements n) :=
      ⟨trivial, ⟨rfl, narrow few, ⟨6, _, element n⟩, _, .literal _⟩, trivial⟩
    obtain ⟨m, -, last, run, -⟩ := builds.straight_reaches compiled straight (.later (.here rfl))
      (element n) (.literal (.int 7)) typed
    rw [Execution.of, Execution.within, run]
    rfl
  · rename_i many
    have length : (List.replicate (n + 1) (Atom.int 0)).length = n + 1 := List.length_replicate
    have split : statements n = [.declare 6] ++
        [.assign (.element (.cell .static 6) (literals n)) .set (.literal (.int 7))] := rfl
    exact builds.straight_fails compiled split ⟨trivial, trivial⟩ .root (constants n) (by decide)
      (by omega) (by omega)

/-- All 256 index types and indexes are accepted, but none of the indexes is counted. -/
theorem index_count_wraps :
    ∃ unit, Builds (String.ofList (source 255)) unit ∧
      (Execution.of unit).status = .failed (.expectedAddress .putIndAddr) :=
  status_eq (by decide)

end ManyIndexes

end StackScript
