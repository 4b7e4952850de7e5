import StackScript.Proofs.Binding
import StackScript.Proofs.ElementAccess
import StackScript.Proofs.VariableTable

namespace StackScript

/-! Indexes are counted in a byte. With up to 255 of them, an assignment of a constant to an element
under constant indexes ends with the constant under these indexes; with more it fails. -/

open Machine Compilation

variable {source : String} {r : Registry} {stmts : List Stmt} {unit : CodeUnit}

namespace Compilation

/-- The prologue as statements. -/
def opening (globals : List Nat) : Stmt :=
  .block .root globals
    [.assign (.cell .static trueSymbol) .set (.literal (.bool true)),
      .assign (.cell .static falseSymbol) .set (.literal (.bool false))]

theorem prologueListing_eq (globals : List Nat) :
    prologueListing globals = (opening globals).listing :=
  rfl

end Compilation

/-- The prologue and the first statements of a program. -/
theorem Compiled.ready {front back : List Stmt} (compiled : Compiled source r stmts unit)
    (clean : '\x00' ∉ source.toList) (split : stmts = front ++ back)
    (straight : Stmt.StraightAll front) :
    Stmt.Ready r .root (opening (r.declaredIn .root) :: front) where
  straight := by
    have truth (symbol : Nat) (b : Bool) :
        (Stmt.assign (.cell .static symbol) .set (.literal (.bool b))).Straight :=
      ⟨rfl, by simp [Expr.Narrow, Expr.parts, Expr.arity], ⟨symbol, [], .root⟩, _, .literal _⟩
    exact ⟨⟨truth _ _, truth _ _, trivial⟩, straight⟩
  typed := by
    have program := compiled.typedProgram clean
    have truth {symbol : Nat} {s : Symbol} (b : Bool)
        (known : initialRegistry.get? symbol = some s) (isStatic : s.kind.isStatic = true)
        (bool : s.ty = .bool) :
        (Stmt.assign (.cell .static symbol) .set (.literal (.bool b))).Typed r .root :=
      ⟨.bool, .bool, rfl, ⟨s, program.grown.get? known, isStatic, bool⟩, ⟨rfl, trivial⟩, rfl⟩
    refine ⟨⟨fun cell member => ?_, List.nil_subset _, truth true rfl rfl rfl,
      truth false rfl rfl rfl, trivial⟩, (Stmt.typedAll_append.mp (split ▸ program.typed)).1⟩
    obtain ⟨s, found, isVariable, -⟩ := Grammar.mem_declaredIn_iff.mp member
    exact ⟨s, found, isVariable⟩
  static := by
    have tidy := compiled.tidyProgram
    intro cell member
    apply tidy.static
    rcases List.mem_append.mp member with global | line
    · exact tidy.globals (by simpa [opening, Stmt.resets, Stmt.resetsOf] using global)
    · apply Stmt.resetsOf_subset stmts tidy.tidy
      rw [split, Stmt.resetsOf_append]
      exact List.mem_append_left _ line
  numbers := by
    intro l member
    rcases List.mem_append.mp member with truth | inside
    · have known : l = .bool true ∨ l = .bool false := by
        simpa [opening, Stmt.expressions, Stmt.expressionsOf, Expr.parts] using truth
      rcases known with rfl | rfl <;> rfl
    · apply compiled.literals_numbers l
      rw [split, Stmt.expressionsOf_append]
      exact List.mem_append_left _ inside

/-- How a program counts the indexes of its elements, and what becomes of constants that it assigns
to elements under constant indexes. -/
structure CountsIndexes (r : Registry) (stmts : List Stmt) (unit : CodeUnit) : Prop where
  /-- Behind the code of an array and its indexes stands their number, as far as a byte holds it. -/
  emitted : ∀ {array : Expr} {indexes : List Expr},
    .element array indexes ∈ Stmt.expressionsOf stmts →
      ∃ index element, array.Typed r (.array index element) ∧
        Expr.TypedAll r indexes (index.map .scalar) ∧ indexes.length = index.length ∧
        ∃ place count, Stands unit.code place (array.listing ++ Expr.listings indexes) ∧
          unit.instructionAt? (place + (array.listing ++ Expr.listings indexes).width) =
            some (.putIndAddr count, (Instruction.putIndAddr count).width) ∧
          count.toNat = index.length % 256 ∧ (count.toNat = index.length ↔ index.length < 256)
  /-- An assignment of a constant edits the element under these indexes, and no other variable,
  wherever the program has got to it. -/
  executed : ∀ {target value : Expr} {lifetime : Lifetime} {symbol : Nat} {path : List Key}
      {a : Atom}, .assign target .set value ∈ Stmt.allOf stmts →
    target.Element lifetime symbol path → value.Constant a → target.Narrow →
      (∃ place, Stands unit.code place (Stmt.assign target .set value).listing) ∧
      ∃ t, target.Typed r (.scalar t) ∧ ∀ {steps : Nat} {m : Machine}, After unit steps m →
        Stands unit.code m.ip (Stmt.assign target .set value).listing →
        (lifetime = .dynamic → m.Live (UInt32.ofNat symbol)) →
        m.stack.size + 256 ≤ Machine.stackLimit →
          ∃ m' location, m.Locates symbol location lifetime ∧
            Traverses unit (Stmt.assign target .set value).listing m m' ∧ m'.stack = m.stack ∧
            Edits unit.table location m m' ∧ m'.Holds location path (.atom (a.widen t))
  /-- More indexes are not counted in a byte, and the program fails where it gets to them. -/
  failed : ∀ {array : Expr} {indexes : List Expr} {lifetime : Lifetime} {symbol : Nat}
      {path : List Key} {key : Key}, .element array indexes ∈ Stmt.expressionsOf stmts →
    array.Element lifetime symbol path → List.Forall₂ Expr.Constant indexes key → array.Narrow →
      256 ≤ key.length → ∀ {steps : Nat} {m : Machine}, After unit steps m →
        Stands unit.code m.ip (Expr.element array indexes).listing →
        (lifetime = .dynamic → m.Live (UInt32.ofNat symbol)) →
        m.stack.size + 256 + key.length ≤ Machine.stackLimit →
          ∃ more last, runFor unit more m = (.failed (.expectedAddress .putIndAddr), last)
  /-- If nothing else can go wrong before, the program fails at the first element with more. -/
  broken : ∀ {front back : List Stmt} {array value : Expr} {indexes : List Expr} {update : Update}
      {symbol : Nat} {path : List Key} {key : Key},
    stmts = front ++ .assign (.element array indexes) update value :: back →
    Stmt.StraightAll front → array.Element .static symbol path →
    List.Forall₂ Expr.Constant indexes key → array.Narrow → 256 ≤ key.length →
      256 + key.length ≤ Machine.stackLimit →
        (Execution.of unit).status = .failed (.expectedAddress .putIndAddr)
  /-- If nothing else can go wrong, the program stops with the constant under these indexes. -/
  stopped : ∀ {target value : Expr} {symbol : Nat} {path : List Key} {a : Atom},
    Stmt.StraightAll stmts → Stmt.Ends (.assign target .set value) stmts →
      target.Element .static symbol path → value.Constant a →
        (Execution.of unit).status = .stopped ∧
        ∃ t entry v, target.Typed r (.scalar t) ∧ unit.table[symbol]? = some entry ∧
          Ty.Path entry.ty path (.scalar t) ∧
          (Execution.of unit).value? entry.qualifiedName = some v ∧
          v.find? path = some (.atom (a.widen t))

namespace Builds

/-- Straight statements run from the start of the code to the instruction that stops. -/
theorem straight_reaches (builds : Builds source unit) (compiled : Compiled source r stmts unit)
    {target value : Expr} {symbol : Nat} {path : List Key} {a : Atom} {t : Scalar}
    (straight : Stmt.StraightAll stmts) (ends : Stmt.Ends (.assign target .set value) stmts)
    (element : target.Element .static symbol path) (constant : value.Constant a)
    (typed : target.Typed r (.scalar t)) :
    ∃ m : Machine, m.Holds (.static symbol) path (.atom (a.widen t)) ∧
      ∃ last, runFor unit Execution.stepLimit (.initial unit.table) = (.stopped, last) ∧
        last.statics = m.statics := by
  have ready := compiled.ready builds.clean (List.append_nil stmts).symm straight
  have program := compiled.typedProgram builds.clean
  obtain rfl := compiled.linked
  have whole := (TypedProgram.stands r stmts).append_left
  rw [prologueListing_eq, ← List.append_assoc] at whole
  obtain ⟨m, traverses, -, holds⟩ := (Stmt.Ends.later ends).traverses ready element constant
    (program.describes builds.addressable) typed whole.append_left
    ⟨initial_typed _, rfl⟩
  have enough : Listing.width (Stmt.listingOf (opening (r.declaredIn .root) :: stmts)) <
      Execution.stepLimit := by
    have inside := whole.append_left.le_length
    have limit : 2 ^ 32 < Execution.stepLimit := by decide
    have addressable := builds.addressable
    rw [Stmt.listingOf]
    omega
  obtain ⟨last, run, same⟩ :=
    traverses.reaches.stops ((traverses.behind whole).decode trivial) enough
  exact ⟨m, holds, last, run, same⟩

/-- Straight statements run to an element with more indexes than a byte counts. -/
theorem straight_fails (builds : Builds source unit) (compiled : Compiled source r stmts unit)
    {front back : List Stmt} {array value : Expr} {indexes : List Expr} {update : Update}
    {symbol : Nat} {path : List Key} {key : Key}
    (split : stmts = front ++ .assign (.element array indexes) update value :: back)
    (straight : Stmt.StraightAll front) (inner : array.Element .static symbol path)
    (constants : List.Forall₂ Expr.Constant indexes key) (narrow : array.Narrow)
    (wide : 256 ≤ key.length) (room : 256 + key.length ≤ Machine.stackLimit) :
    (Execution.of unit).status = .failed (.expectedAddress .putIndAddr) := by
  have ready := compiled.ready builds.clean split straight
  have program := compiled.typedProgram builds.clean
  obtain rfl := compiled.linked
  have describes := program.describes builds.addressable
  obtain ⟨-, ⟨ty, -, -, typed, -⟩, -⟩ := Stmt.typedAll_append.mp (split ▸ program.typed)
  have whole := (TypedProgram.stands r stmts).append_left
  nth_rewrite 2 [split] at whole
  rw [prologueListing_eq, Stmt.listingOf_append, Stmt.listingOf, Stmt.listing] at whole
  simp only [List.append_assoc] at whole
  rw [← List.append_assoc, ← List.append_assoc] at whole
  obtain ⟨m, traverses, idle⟩ :=
    Stmt.traverses_all describes (opening (r.declaredIn .root) :: front) ready
      whole.append_left.append_left ⟨initial_typed _, rfl⟩
  have element := traverses.behind whole.append_left
  obtain ⟨more, bound, last, failed⟩ := inner.fails constants describes typed narrow wide
    idle.typed rfl element (by rw [idle.empty]; simpa using room)
  obtain ⟨steps, bound', run⟩ := traverses.reaches
  have enough : steps + more ≤ Execution.stepLimit := by
    have inside := whole.append_left.le_length
    have limit : 2 ^ 32 < Execution.stepLimit := by decide
    have addressable := builds.addressable
    rw [Listing.width_append] at inside
    rw [Stmt.listingOf] at bound'
    omega
  have ended := runFor_ended ((runFor_add run more).trans failed) Status.noConfusion enough
  unfold Execution.of Execution.within
  rw [ended]
  rfl

/-- The number of indexes is counted exactly if it is less than 256, and then a constant is stored
under exactly the indexes that are given. -/
theorem countsIndexes (builds : Builds source unit) (compiled : Compiled source r stmts unit) :
    CountsIndexes r stmts unit where
  emitted := by
    intro array indexes member
    have program := compiled.typedProgram builds.clean
    obtain rfl := compiled.linked
    obtain ⟨⟨ty, index, -, typed, all⟩, place, stands⟩ := program.placed member
    have length : indexes.length = index.length := by
      rw [Expr.TypedAll.length indexes _ all, List.length_map]
    have counted : (UInt8.ofNat indexes.length).toNat = index.length % 256 := by
      rw [UInt8.toNat_ofNat', length]
    rw [Expr.listing] at stands
    refine ⟨index, ty, typed, all, length, place, _, stands.append_left,
      stands.append_right.decode trivial, counted, ?_⟩
    rw [counted]
    omega
  executed := by
    intro target value lifetime symbol path a member element constant narrow
    have program := compiled.typedProgram builds.clean
    have literals := compiled.literals_numbers
    obtain rfl := compiled.linked
    obtain ⟨⟨scope, typed⟩, placed⟩ := program.placed_statement member
    obtain ⟨t, typedT, -⟩ := Stmt.exists_scalar constant typed
    refine ⟨placed, t, typedT, fun after stands live room => ?_⟩
    have numbers : target.AllLiterals fun l => l.atom.isNaN = false :=
      fun l inside => literals l
        (Stmt.expressionsOf_subset stmts _ member (List.mem_append_left _ inside))
    obtain ⟨location, located⟩ := Machine.exists_locates live
    obtain ⟨m', traverses, stack, edits, holds⟩ := Stmt.assign_traverses element constant
      (program.describes builds.addressable) typed typedT narrow numbers after.sound.typed located
      stands room
    exact ⟨m', location, located, traverses, stack, edits, holds⟩
  failed := by
    intro array indexes lifetime symbol path key member inner constants narrow wide steps m after
      stands live room
    have program := compiled.typedProgram builds.clean
    obtain rfl := compiled.linked
    obtain ⟨⟨ty, typed⟩, -⟩ := program.placed member
    obtain ⟨location, located⟩ := Machine.exists_locates live
    obtain ⟨more, -, last, run⟩ := inner.fails constants (program.describes builds.addressable)
      typed narrow wide after.sound.typed located stands room
    exact ⟨more, last, run⟩
  broken := builds.straight_fails compiled
  stopped := by
    intro target value symbol path a straight ends element constant
    have program := compiled.typedProgram builds.clean
    obtain ⟨⟨scope, statement⟩, -⟩ := program.placed_statement ends.mem_allOf
    obtain ⟨t, typed, -⟩ := Stmt.exists_scalar constant statement
    obtain ⟨m, ⟨v, held, found⟩, last, run, same⟩ :=
      builds.straight_reaches compiled straight ends element constant typed
    obtain ⟨s, known, isStatic, leads⟩ := element.exists_symbol typed
    obtain ⟨code, listed⟩ := compiled.tabulates.indexed symbol s known
    have data : (entryOf { s with code }).isData = true := by
      have isStatic := isStatic rfl
      cases kind : s.kind <;> simp_all [entryOf, Entry.isData, Symbol.Kind.isStatic]
    obtain ⟨w, there, value⟩ := compiled.tabulates.values Execution.stepLimit symbol _ listed data
    rw [later, run, same] at there
    obtain rfl : v = w := Option.some.inj (held.symm.trans there)
    refine ⟨?_, t, _, v, typed, listed, leads, value, found⟩
    rw [Execution.of, Execution.within, run]
    rfl

/-- The constants of a program that sets one element of a nested array. -/
def nestedStore? : List Stmt → Option (Int64 × String × Bool × Int64)
  | [.declare 6,
      .assign
        (.element
          (.element (.cell .static 6) [.negate (.literal (.int n)), .literal (.str s)])
          [.literal (.bool b)])
        .set (.literal (.int c))] => some (n, s, b, c)
  | _ => none

theorem nestedStore?_eq {n c : Int64} {s : String} {b : Bool}
    (known : nestedStore? stmts = some (n, s, b, c)) :
    stmts =
      [.declare 6,
        .assign
          (.element
            (.element (.cell .static 6) [.negate (.literal (.int n)), .literal (.str s)])
            [.literal (.bool b)])
          .set (.literal (.int c))] := by
  unfold nestedStore? at known
  split at known
  · cases known
    rfl
  · cases known

/-- Two index lists, one of them with a negative number, and a constant that is widened. -/
theorem nested_element_stored :
    ∃ unit,
      Builds "array [int, string] of array [boolean] of float a a[-1, \"x\"][true] = 2" unit ∧
        (Execution.of unit).status = .stopped ∧
        ∃ v, (Execution.of unit).value? "0.a" = some v ∧
          v.find? [[.int (-1), .str "x"], [.bool true]] = some (.float (nearestFloat 2)) := by
  have builds :
      Builds "array [int, string] of array [boolean] of float a a[-1, \"x\"][true] = 2" _ :=
    .of_compile (by decide +kernel) (by decide +kernel) (by decide +kernel)
  obtain ⟨r, stmts, compiled⟩ := exists_compiled builds.success
  have known :
      (read? "array [int, string] of array [boolean] of float a a[-1, \"x\"][true] = 2").bind
        (fun known => nestedStore? known.1) = some (1, "x", true, 2) := by
    decide +kernel
  rw [compiled.read?_eq, Option.bind_some] at known
  obtain rfl := nestedStore?_eq known
  generalize same :
    (compile "array [int, string] of array [boolean] of float a a[-1, \"x\"][true] = 2").unit = unit
    at builds compiled
  have declared : (unit.table[6]?).map (fun entry => (entry.qualifiedName, entry.ty)) =
      some ("0.a", .array [.int, .str] (.array [.bool] .float)) := by
    subst same
    decide +kernel
  have element : (Expr.element
      (.element (.cell .static 6) [.negate (.literal (.int 1)), .literal (.str "x")])
      [.literal (.bool true)]).Element .static 6 [[.int (-1), .str "x"], [.bool true]] :=
    .index (.index .root (.cons (.negate (.literal _) rfl) (.cons (.literal _) .nil)))
      (.cons (.literal _) .nil)
  have constant : (Expr.literal (.int 2)).Constant (.int 2) := .literal _
  obtain ⟨stopped, t, entry, v, -, listed, leads, value, found⟩ :=
    (builds.countsIndexes compiled).stopped
      ⟨trivial, ⟨rfl, by decide, ⟨6, _, element⟩, _, constant⟩, trivial⟩ (.later (.here rfl))
      element constant
  rw [listed, Option.map_some, Option.some.injEq, Prod.mk.injEq] at declared
  obtain ⟨name, type⟩ := declared
  rw [type] at leads
  cases leads with
  | cons exact rest =>
      cases rest with
      | cons exact rest =>
          cases rest
          exact ⟨unit, builds, stopped, v, name ▸ value, found⟩

end Builds

end StackScript
