import StackScript.Proofs.Formula.Storing
import StackScript.Proofs.Grammar.Assignment
import StackScript.Proofs.Program

namespace StackScript

/-! Programs that declare one variable and assign a value to it. -/

open Compilation Grammar

namespace SingleVariable

variable {word value : List Char} {s : Scalar} {place : Position} {expr : Expr} {fits : Prop}

/-- The symbols of a program with one variable of its own. -/
def symbols (name : String) (s : Scalar) (place : Position) : Registry :=
  withVariable initialRegistry .root name (.scalar s) place

def statements (expr : Expr) : List Stmt :=
  [.declare 6, .assign (.cell .static 6) .set expr]

/-- The text of the program, up to the value. -/
def source (s : Scalar) (word value : List Char) : List Char :=
  scalarWord s ++ ' ' :: (word ++ ' ' :: (word ++ ' ' :: '=' :: ' ' :: value))

/-- A word that no symbol of every program has for its name. -/
structure IsNew (word : List Char) : Prop where
  named : isName word = true
  free : reservedWords.contains (String.ofList (word.map Char.toLower)) = false
  other : ∀ symbol ∈ initialRegistry.symbols, symbol.name ≠ String.ofList word

theorem IsNew.find? (new : IsNew word) :
    initialRegistry.find? (String.ofList word) .root .exact = none := by
  refine Registry.find?_exact_eq_none_iff.mpr fun member => ?_
  obtain ⟨symbol, member, same⟩ := List.mem_map.mp member
  exact new.other symbol member (Prod.mk.inj same).2

theorem assignment_reads {levels : Nat} {body : BlockBody} (new : IsNew word)
    (valued : Gives Rejection.IsDeep (symbols (String.ofList word) s place)
      ((nestedWithin levels).conditional .root) (' ' :: value) [] { expr, ty := .scalar s } fits) :
    Gives Rejection.IsDeep (symbols (String.ofList word) s place)
      (statement (nestedWithin levels) body .static .root 0)
      (word ++ ' ' :: '=' :: ' ' :: value) [] (.assign (.cell .static 6) .set expr) fits := by
  have listed : (symbols (String.ofList word) s place).find? (String.ofList word) .root .inherited =
      some 6 :=
    @find?_withVariable initialRegistry .root _ new.other (.scalar s) place
  have target : Gives Rejection.IsDeep (symbols (String.ofList word) s place)
      (target (nestedWithin levels) .root) (word ++ ' ' :: '=' :: ' ' :: value)
      (' ' :: '=' :: ' ' :: value) { expr := .cell .static 6, ty := .scalar s } True :=
    target_gives (name_plain new.named _).1 new.named new.free listed rfl rfl
  apply Gives.or_left
  exact assignment_gives target rfl valued (by simp [updateAllowed, Ty.assignable])

theorem program_reads (new : IsNew word)
    (valued : ∀ place, Gives Rejection.IsDeep (symbols (String.ofList word) s place)
      ((nestedWithin maxNesting).conditional .root) (' ' :: value) [] { expr, ty := .scalar s }
      fits) :
    Meets (At initialRegistry (source s word value)) program
      (fun stmts state => stmts = statements expr ∧ fits ∧
        ∃ place, state.registry = symbols (String.ofList word) s place)
      (fun r _ => r.IsDeep ∧ ¬ fits) := by
  have spaced : (source s word value).dropWhile Cursor.isSpace = source s word value :=
    (name_plain (isName_scalarWord s) _).1
  have long : 1 < (source s word value).length := by
    simp only [source, List.length_append, List.length_cons]
    omega
  have name : word ++ ' ' :: '=' :: ' ' :: value ≠ [] := by simp
  have written : Source.TypeText (.scalar s) (scalarWord s) :=
    .scalar (Source.spelled_scalarWord s)
  exact program_gives spaced long
    (declaration_declares written rfl (isName_scalarWord s) (reserved_scalarWord s) new.named
      new.free new.find?)
    rfl (name_plain new.named _).1 name (fun place => assignment_reads new (valued place)) rfl

/-- The program is refused only if the value is nested too deeply. -/
theorem compile_source (new : IsNew word)
    (valued : ∀ place, Gives Rejection.IsDeep (symbols (String.ofList word) s place)
      ((nestedWithin maxNesting).conditional .root) (' ' :: value) [] { expr, ty := .scalar s }
      fits) :
    match compile (String.ofList (source s word value)) with
    | .failure d => d.deepest.cause = .nestingTooDeep ∧ ¬ fits
    | .success unit => fits ∧
        ∃ place, unit = assemble (symbols (String.ofList word) s place) (statements expr) := by
  have start : At initialRegistry (source s word value)
      { cursor := .ofSource (String.ofList (source s word value)), registry := initialRegistry } :=
    ⟨rfl, String.toList_ofList⟩
  have done := program_reads new valued _ start
  unfold compile
  cases run : program
      { cursor := .ofSource (String.ofList (source s word value)), registry := initialRegistry } with
  | ok stmts state =>
      rw [run] at done
      obtain ⟨rfl, fitting, place, same⟩ := done
      simp only [run]
      exact ⟨fitting, place, by rw [same]⟩
  | error r state =>
      rw [run] at done
      obtain ⟨⟨-, node, last, deep⟩, long⟩ := done
      simp only [run]
      exact ⟨by rw [Diagnostic.deepest_failure last, deep], long⟩

end SingleVariable

/-! What such a program does. -/

namespace Machine

variable {unit : CodeUnit} {m m' : Machine} {bytes limit : Nat}

theorem Reaches.stops (reaches : Reaches unit bytes m m')
    (decoded : unit.instructionAt? m'.ip = some (.stop, Instruction.stop.width))
    (enough : bytes < limit) :
    ∃ last, runFor unit limit m = (.stopped, last) ∧ last.statics = m'.statics := by
  obtain ⟨steps, bound, run⟩ := reaches
  have final : runFor unit (steps + 1) m =
      (.stopped, { m' with ip := m'.ip + Instruction.stop.width }) := by
    rw [runFor_add run, runFor, step_eq decoded]
    rfl
  exact ⟨_, runFor_ended final Status.noConfusion (by omega), rfl⟩

theorem initial_static {table : List Entry} {i : Nat} {entry : Entry}
    (listed : table[i]? = some entry) :
    (initial table).statics[i]? = some (Value.default entry.ty) := by
  simp [initial, listed]

/-- The value of a static variable is what its cell holds at the end. -/
theorem value?_finish {table : List Entry} {status : Status} {m : Machine} {i : Nat}
    {entry : Entry} {name : String} {value : Value} (listed : table[i]? = some entry)
    (named : entry.qualifiedName = name) (data : entry.isData = true)
    (first : ∀ j < i, ∀ other, table[j]? = some other → other.qualifiedName ≠ name)
    (held : m.statics[i]? = some value) :
    (m.finish table status).value? name = some value := by
  have zipped : (table.zip m.statics)[i]? = some (entry, value) := by
    rw [List.getElem?_zip_eq_some]
    exact ⟨listed, held⟩
  have found : (m.finish table status).finals.find? (fun v => v.entry.qualifiedName = name) =
      some { index := i, entry, value := some value } := by
    obtain ⟨inside, there⟩ := List.getElem?_eq_some_iff.mp zipped
    rw [List.find?_eq_some_iff_getElem]
    refine ⟨by simpa using named, i, by simpa [finish] using inside, ?_, ?_⟩
    · simp [finish, there, data]
    · intro j before
      have listed' : j < table.length := by
        simp only [List.length_zip] at inside
        omega
      have other := first j before _ (List.getElem?_eq_getElem listed')
      simpa [finish] using other
  rw [Execution.value?, found]
  rfl

end Machine

namespace SingleVariable

variable {name : String} {s : Scalar} {place : Position} {expr : Expr}

theorem listing_statements (name : String) (s : Scalar) (place : Position) (expr : Expr) :
    Compilation.listing (symbols name s place) (statements expr) =
      .initVar (UInt32.ofNat 6) ::
        (Machine.assignment 0 [.putBoolean true] ++
          (Machine.assignment 1 [.putBoolean false] ++
            (Machine.assignment 6 expr.listing ++
              (.stop :: Routine.code (routines (statements expr)))))) := by
  have reset : (symbols name s place).declaredIn .root = [6] := rfl
  rw [Compilation.listing, prologueListing, reset]
  simp [Machine.assignment, statements, Stmt.listingOf, Stmt.listing, Expr.listing, trueSymbol,
    falseSymbol]

/-- A static variable of some type is listed in the variable table. -/
def Lists (unit : CodeUnit) (i : Nat) (ty : Ty) : Prop :=
  ∃ entry, unit.table[i]? = some entry ∧ entry.storage = .data ∧ entry.ty = ty

theorem lists {r : Registry} {i : Nat} {symbol : Symbol} {ty : Ty} (stmts : List Stmt)
    (found : r.get? i = some symbol) (isStatic : symbol.kind.isStatic = true)
    (same : symbol.ty = ty) : Lists (assemble r stmts) i ty := by
  obtain ⟨code, listed, -⟩ := table_getElem? stmts found
  refine ⟨_, listed, ?_, same⟩
  cases kind : symbol.kind <;> simp_all [entryOf, Symbol.Kind.isStatic]

variable {unit : CodeUnit} {m : Machine} {rest : Listing}

theorem truth_reaches {i : Nat} {b c : Bool} (lists : Lists unit i .bool) (small : i < 2 ^ 32)
    (stands : Stands unit.code m.ip (Machine.assignment i [.putBoolean b] ++ rest))
    (empty : m.stack = #[]) (held : m.statics[i]? = some (.bool c)) :
    Machine.Reaches unit (Machine.assignment i [.putBoolean b]).width m
      (m.stored (Machine.assignment i [.putBoolean b]).width i (.bool b)) := by
  obtain ⟨entry, listed, data, -⟩ := lists
  have cell : m.statics[i]? = some (.atom (.bool c)) := held
  change Machine.Computes unit _ m (m.stored _ i) (some (.bool b))
  apply Machine.assignment_computes stands small listed data cell
  · rw [empty]
    decide
  · intro m' size stands'
    refine Formula.literal_computes stands' trivial rfl ?_ fun _ => rfl
    rw [size, empty]
    decide
  · rintro a same
    cases same
    rfl

/-- Some bytes on the way from the start to the assignment. -/
structure Prepares (unit : CodeUnit) (ty : Ty) (bytes : Nat) (m : Machine) : Prop where
  reaches : Machine.Reaches unit bytes (Machine.initial unit.table) m
  ip : m.ip = bytes
  empty : m.stack = #[]
  truths : ∀ i < 2, ∃ b, m.statics[i]? = some (.bool b)
  result : m.statics[6]? = some (Value.default ty)

namespace Prepares

variable {ty : Ty} {bytes : Nat}

theorem reset (result : Lists unit 6 ty) (truths : ∀ i < 2, Lists unit i .bool)
    (stands : Stands unit.code 0 (.initVar (UInt32.ofNat 6) :: rest)) :
    ∃ m, Prepares unit ty (Instruction.initVar (UInt32.ofNat 6)).width m ∧
      Stands unit.code m.ip rest := by
  obtain ⟨entry, listed, data, rfl⟩ := result
  have held := Machine.initial_static listed
  refine ⟨{ Machine.initial unit.table with
    ip := 0 + (Instruction.initVar (UInt32.ofNat 6)).width
    statics := (Machine.initial unit.table).statics.set 6 (Value.default entry.ty) }, ?_,
    stands.tail⟩
  constructor
  · exact Machine.reaches_of_execute (stands.decode trivial)
      (Action.initVar_eq (by decide) listed data held)
  · exact Nat.zero_add _
  · rfl
  · intro i small
    obtain ⟨other, listed', -, ty⟩ := truths i small
    have before := Machine.initial_static listed'
    rw [ty] at before
    refine ⟨false, ?_⟩
    rw [List.getElem?_set_ne (by omega)]
    exact before
  · exact List.getElem?_set_self (List.getElem?_eq_some_iff.mp held).1

theorem truth {i : Nat} {b : Bool} (prepares : Prepares unit ty bytes m) (small : i < 2)
    (lists : Lists unit i .bool)
    (stands : Stands unit.code m.ip (Machine.assignment i [.putBoolean b] ++ rest)) :
    ∃ m', Prepares unit ty (bytes + (Machine.assignment i [.putBoolean b]).width) m' ∧
      Stands unit.code m'.ip rest := by
  obtain ⟨c, held⟩ := prepares.truths i small
  refine ⟨m.stored (Machine.assignment i [.putBoolean b]).width i (.bool b), ?_,
    stands.append_right⟩
  constructor
  · exact prepares.reaches.trans
      (truth_reaches lists (by omega) stands prepares.empty held)
  · exact congrArg (· + (Machine.assignment i [.putBoolean b]).width) prepares.ip
  · exact prepares.empty
  · intro j low
    obtain ⟨d, there⟩ := prepares.truths j low
    by_cases same : i = j
    · subst same
      exact ⟨b, List.getElem?_set_self (List.getElem?_eq_some_iff.mp held).1⟩
    · exact ⟨d, (List.getElem?_set_ne same).trans there⟩
  · exact (List.getElem?_set_ne (by omega)).trans prepares.result

end Prepares

/-- The bytes in front of the assignment. -/
def prologueSize : Nat := 21

/-- The run of the program, and the cell of the variable behind it, when the code of the value takes
few steps. -/
theorem run_statements {steps : Nat} {value : Option Atom}
    (computes : ∀ m : Machine, m.stack.size = 1 →
      Stands (assemble (symbols name s place) (statements expr)).code m.ip expr.listing →
      Machine.Computes (assemble (symbols name s place) (statements expr)) steps m
        (m.pushed expr.listing.width) value)
    (fits : ∀ a, value = some a → a.ty = .scalar s)
    (enough : prologueSize + (5 + (steps + 1)) < Execution.stepLimit) :
    ∃ m, Machine.runFor (assemble (symbols name s place) (statements expr)) Execution.stepLimit
        (Machine.initial (assemble (symbols name s place) (statements expr)).table) =
        ((if value.isSome then .stopped else .failed (.divisionByZero .div)), m) ∧
      m.statics[6]? = some (.atom (value.getD (Atom.default s))) := by
  have stands := TypedProgram.stands (symbols name s place) (statements expr)
  rw [listing_statements] at stands
  have result : Lists (assemble (symbols name s place) (statements expr)) 6 (.scalar s) :=
    lists _ rfl rfl rfl
  have truths (i : Nat) (small : i < 2) :
      Lists (assemble (symbols name s place) (statements expr)) i .bool := by
    rcases (by omega : i = 0 ∨ i = 1) with rfl | rfl <;> exact lists _ rfl rfl rfl
  obtain ⟨m₀, prepares₀, stands₀⟩ := Prepares.reset result truths stands
  obtain ⟨m₁, prepares₁, stands₁⟩ := prepares₀.truth (by decide) (truths 0 (by decide)) stands₀
  obtain ⟨m, prepares, stands⟩ := prepares₁.truth (by decide) (truths 1 (by decide)) stands₁
  change Prepares _ _ prologueSize m at prepares
  obtain ⟨entry, listed, data, -⟩ := result
  have held : m.statics[6]? = some (.atom (Atom.default s)) := prepares.result
  have assigned := Machine.assignment_computes_within stands (by decide) listed
    data held (by rw [prepares.empty]; decide)
    (fun m' size stands' => computes m' (by rw [size, prepares.empty]; rfl) stands')
    (fun a same => by
      rw [fits a same]
      cases s <;> rfl)
  change Machine.Computes _ (5 + (steps + 1)) m _ value at assigned
  cases value with
  | none =>
      obtain ⟨steps', bound, run⟩ := prepares.reaches
      obtain ⟨steps'', bound', last, run', kept⟩ := assigned
      refine ⟨last, ?_, by rw [kept]; exact held⟩
      exact Machine.runFor_ended ((Machine.runFor_add run steps'').trans run') Status.noConfusion
        (by omega)
  | some a =>
      have reaches := prepares.reaches.trans assigned
      obtain ⟨last, run, kept⟩ := reaches.stops (stands.append_right.decode trivial) enough
      refine ⟨last, run, ?_⟩
      rw [kept]
      exact List.getElem?_set_self (List.getElem?_eq_some_iff.mp held).1

theorem value?_finish {qualified : String} {status : Status} {m : Machine} {value : Value}
    (named : (entryOf (Symbol.declare .var .root name .int)).qualifiedName = qualified)
    (others : ∀ symbol ∈ initialRegistry.symbols, (entryOf symbol).qualifiedName ≠ qualified)
    (held : m.statics[6]? = some value) :
    (m.finish (assemble (symbols name s place) (statements expr)).table status).value? qualified =
      some value := by
  have found : (symbols name s place).get? 6 =
      some { Symbol.declare .var .root name (.scalar s) with declaredAt := place } := rfl
  obtain ⟨code, listed, -⟩ := table_getElem? (statements expr) found
  apply Machine.value?_finish listed named rfl
  · intro j before other listed'
    have inside : j < initialRegistry.symbols.length := before
    have there : (symbols name s place).get? j = some initialRegistry.symbols[j] := by
      rw [← List.getElem?_eq_getElem inside]
      exact List.getElem?_append_left inside
    obtain ⟨code', listed'', -⟩ := table_getElem? (statements expr) there
    rw [listed''] at listed'
    cases listed'
    exact others initialRegistry.symbols[j] (List.getElem_mem inside)
  · exact held

end SingleVariable

end StackScript
