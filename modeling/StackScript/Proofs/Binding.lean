import StackScript.Proofs.Isolation
import StackScript.Proofs.Machine.Missing
import StackScript.Proofs.Residence
import StackScript.Proofs.Resolution.Program
import StackScript.Proofs.Tree.Ownership

namespace StackScript

/-! Names at run time. A dynamic name has a live cell exactly where the function whose code names it
allocates that cell itself, and nothing else faults for want of a cell. -/

open Compilation

/-- The function allocates the cell: that of its result, of a parameter, or of a variable that is
declared in its body or in a block of it. -/
def Compilation.Owns (stmts : List Stmt) (function cell : Nat) : Prop :=
  ∃ outline ∈ TypedProgram.outlines stmts, outline.head? = some function ∧ cell ∈ outline

/-- Functions name only cells that they allocate themselves, and other code names none. -/
structure Compilation.Contained (stmts : List Stmt) : Prop where
  inline : ∀ index, .putDAddr index ∉ Stmt.listingOf stmts
  functions : ∀ r' ∈ Stmt.routinesOf stmts, ∀ index, .putDAddr index ∈ r'.listing →
    Owns stmts r'.symbol index.toNat

instance (stmts : List Stmt) (function cell : Nat) : Decidable (Owns stmts function cell) :=
  inferInstanceAs (Decidable (∃ outline ∈ TypedProgram.outlines stmts,
    outline.head? = some function ∧ cell ∈ outline))

/-- The record whose cell an instruction pushes by name. -/
def Instruction.dynamic? : Instruction → Option UInt32
  | .putDAddr index => some index
  | _ => none

theorem Instruction.dynamic?_eq_some {i : Instruction} {index : UInt32} :
    i.dynamic? = some index ↔ i = .putDAddr index := by
  cases i <;> simp [dynamic?]

instance (stmts : List Stmt) : Decidable (Contained stmts) :=
  decidable_of_iff
    ((Stmt.listingOf stmts).all (fun i => i.dynamic?.isNone) = true ∧
      (Stmt.routinesOf stmts).all (fun r' => r'.listing.all fun i =>
        i.dynamic?.all fun index => decide (Owns stmts r'.symbol index.toNat)) = true) <| by
    simp only [List.all_eq_true, Option.isNone_iff_eq_none, Option.all_eq_true, decide_eq_true_eq]
    constructor
    · rintro ⟨inline, functions⟩
      refine ⟨fun index member => ?_, fun r' member index named => ?_⟩
      · cases inline _ member
      · exact functions r' member _ named index rfl
    · rintro ⟨inline, functions⟩
      refine ⟨fun i member => Option.eq_none_iff_forall_ne_some.mpr fun index named => ?_, ?_⟩
      · rw [Instruction.dynamic?_eq_some] at named
        exact inline index (named ▸ member)
      · intro r' member i line index named
        rw [Instruction.dynamic?_eq_some] at named
        exact functions r' member index (named ▸ line)

/-- What holds of the dynamic names of a program in all its runs. -/
structure NamesBound (stmts : List Stmt) (unit : CodeUnit) : Prop where
  live_iff : ∀ {steps width : Nat} {m : Machine} {index : UInt32}, Machine.After unit steps m →
    unit.instructionAt? m.ip = some (.putDAddr index, width) →
      (m.Live index ↔
        ∃ function, unit.functionAt? m.ip = some function ∧ Owns stmts function index.toNat)
  faults_iff : ∀ {steps : Nat} {m : Machine} {index : UInt32}, Machine.After unit steps m →
    ((∃ m', Machine.step unit m = .error (.unboundDynamicVariable index) m') ↔
      ∃ width, unit.instructionAt? m.ip = some (.putDAddr index, width) ∧ ¬ m.Live index)
  contained : Contained stmts → ∀ (steps : Nat) (index : UInt32),
    (Machine.runFor unit steps (Machine.initial unit.table)).1 ≠
      .failed (.unboundDynamicVariable index)

variable {source : String} {unit : CodeUnit} {r : Registry} {stmts : List Stmt}
variable {a : Activity} {m m' : Machine} {i : Instruction} {index : UInt32} {steps width : Nat}
variable {opening : Listing}

namespace Isolated

theorem not_live (configured : Configured unit unit.Stops a m) (outside : a.waiting = []) :
    ¬ m.Live index := by
  rintro ⟨frame, slot, value, back, -⟩
  have size := configured.frames_size
  rw [outside, List.length_nil, Array.size_eq_zero_iff] at size
  rw [size] at back
  cases back

theorem live_iff {caller : Pending} {waiting : List Pending} (planned : unit.Planned)
    (configured : Configured unit unit.Stops a m) (isolated : Isolated unit a [] m)
    (called : a.waiting = caller :: waiting) (prologue : unit.Prologue caller.callee opening) :
    m.Live index ↔ index ∈ opening.cells := by
  constructor
  · rintro ⟨frame, slot, value, back, -, cell⟩
    obtain ⟨front, frame', prologue', -, back', outline, -⟩ := isolated.frame called
    obtain rfl := Option.some.inj (back.symm.trans back')
    rw [List.append_nil] at prologue'
    obtain rfl := prologue.unique prologue'
    have cells : frame.cells.map Prod.fst = opening.cells := congrArg Prod.snd outline
    rw [← cells]
    exact List.mem_map_of_mem (List.mem_of_getElem? cell)
  · intro member
    obtain ⟨slot, placed⟩ := List.getElem?_of_mem member
    have found := isolated.dynamicLocation_eq planned configured called prologue placed
    by_contra missing
    rw [Action.dynamicLocation_of_not_live missing] at found
    cases found

end Isolated

/-! What a program looks up. -/

/-- Blocks reset only what is declared in them, and variables outside of functions live for the
whole run. -/
structure TidyProgram (r : Registry) (stmts : List Stmt) : Prop where
  tidy : Stmt.TidyAll stmts
  globals : r.declaredIn .root ⊆ Stmt.localsOf stmts
  static : ∀ cell ∈ Stmt.localsOf stmts, ∃ s, r.get? cell = some s ∧ s.kind.isStatic = true

theorem Compiled.tidyProgram (compiled : Compiled source r stmts unit) : TidyProgram r stmts := by
  obtain ⟨added, inline, functions, read⟩ := compiled.reads
  refine ⟨read.tidy, fun cell member => ?_, fun cell member => ?_⟩
  · obtain ⟨s, found, isVariable, root⟩ := Grammar.mem_declaredIn_iff.mp member
    refine read.grows.locals (Nat.le_of_not_lt fun old => ?_) found isVariable root
    -- The symbols that every program has are no variables of the root scope.
    obtain ⟨t, known⟩ : ∃ t, initialRegistry.get? cell = some t :=
      ⟨_, List.getElem?_eq_getElem old⟩
    have same := read.grows.extend.get? known
    rw [found] at same
    obtain rfl := Option.some.inj same
    have none : initialRegistry.declaredIn .root = [] := by decide +kernel
    have initial := Grammar.mem_declaredIn_iff.mpr ⟨s, known, isVariable, root⟩
    rw [none] at initial
    cases initial
  · obtain ⟨s, found, kind⟩ := read.static rfl cell member
    exact ⟨s, found, by rw [kind]; rfl⟩

namespace TypedProgram

theorem main_emits (program : TypedProgram r stmts) (tidy : TidyProgram r stmts) :
    ∀ i ∈ mainListing r stmts, Stmt.Emits r (Stmt.localsOf stmts) i := by
  have truth {index : Nat} {s : Symbol} (known : initialRegistry.get? index = some s)
      (isStatic : s.kind.isStatic = true) :
      Stmt.Emits r (Stmt.localsOf stmts) (.putAddr (UInt32.ofNat index)) :=
    .inl (.static (program.grown.get? known) isStatic)
  have plain {i : Instruction} (operation : i.isOperation = true) :
      Stmt.Emits r (Stmt.localsOf stmts) i := .inl (.operation operation)
  refine List.forall_mem_append.mpr ⟨List.forall_mem_append.mpr ⟨?_, ?_⟩,
    forall_mem_concat (fun i member => ?_) (plain rfl)⟩
  · intro i member
    obtain ⟨cell, global, rfl⟩ := List.mem_map.mp member
    exact .inr ⟨cell, tidy.globals global, rfl⟩
  · simp only [List.forall_mem_cons]
    exact ⟨truth rfl rfl, plain rfl, plain rfl, truth rfl rfl, plain rfl, plain rfl,
      List.forall_mem_nil _⟩
  · exact (Stmt.emitsOf stmts program.typed i member).mono (Stmt.resetsOf_subset stmts tidy.tidy)

theorem builtin_emits (function param : Nat) (builtin : Builtin) :
    ∀ i ∈ (builtinRoutine function param builtin).listing,
      Routine.Emits r [function, param] i := by
  simp only [builtinRoutine, List.forall_mem_cons]
  exact ⟨.allocates rfl, .allocates rfl, .inline (.inl (.dynamic function)),
    .syscall (List.mem_cons_of_mem _ List.mem_cons_self) _, .inline (.inl (.operation rfl)),
    .ret List.mem_cons_self, List.forall_mem_nil _⟩

theorem routines_keep (program : TypedProgram r stmts) (tidy : TidyProgram r stmts)
    {r' : Routine} (member : r' ∈ routines stmts) : r'.Keeps r (outlines stmts) := by
  rcases List.mem_append.mp member with given | defined
  · obtain ⟨⟨function, param, builtin⟩, there, rfl⟩ := List.mem_map.mp given
    exact ⟨[function, param], List.mem_append_left _ (List.mem_map_of_mem there), rfl,
      builtin_emits function param builtin⟩
  · exact (Stmt.routinesOf_keep stmts program.typed tidy.tidy r' defined).mono
      (List.subset_append_right _ _)

theorem main_allocates (program : TypedProgram r stmts) (tidy : TidyProgram r stmts)
    (own : i ∈ mainListing r stmts ∨ i.target?.isSome = true) : i.allocates? = none := by
  rcases own with line | jumps
  · exact (program.main_emits tidy i line).allocates?_eq
  · exact Instruction.allocates?_of_jump jumps

/-- Code outside of functions looks up only what it names. -/
theorem main_seeks (program : TypedProgram r stmts) (tidy : TidyProgram r stmts)
    (length : (assemble r stmts).code.length < 2 ^ 32)
    (own : i ∈ mainListing r stmts ∨ i.target?.isSome = true)
    (sought : i.seeks? (assemble r stmts).table = some index) : i = .putDAddr index := by
  rcases own with line | jumps
  · exact (program.main_emits tidy i line).seeks_named (program.describes length) tidy.static sought
  · rw [Instruction.seeks?_of_jump jumps] at sought
    cases sought

/-- Whatever else a function looks up, it allocates itself. -/
theorem routine_seeks (program : TypedProgram r stmts) (tidy : TidyProgram r stmts)
    (length : (assemble r stmts).code.length < 2 ^ 32) {r' : Routine}
    (member : r' ∈ routines stmts) (own : i ∈ r'.listing ∨ i.target?.isSome = true)
    (sought : i.seeks? (assemble r stmts).table = some index) :
    i = .putDAddr index ∨ Owns stmts r'.symbol index.toNat := by
  rcases own with line | jumps
  · obtain ⟨outline, owned, head, emits⟩ := program.routines_keep tidy member
    have inside (cell : Nat) (there : cell ∈ outline) : cell < r.size :=
      program.outlines_lt (List.mem_flatten.mpr ⟨outline, owned, there⟩)
    exact ((emits i line).seeks (program.describes length) inside sought).imp_right
      fun there => ⟨outline, owned, head, there⟩
  · rw [Instruction.seeks?_of_jump jumps] at sought
    cases sought

theorem mem_cells_iff (program : TypedProgram r stmts)
    (length : (assemble r stmts).code.length < 2 ^ 32) {function : UInt32}
    (prologue : (assemble r stmts).Prologue function opening) :
    index ∈ opening.cells ↔ Owns stmts function.toNat index.toNat := by
  obtain ⟨entry, params, code, listed, storage, opens⟩ := prologue
  obtain ⟨_, outline, member, opens', cells, head, -⟩ := program.opens length listed storage
  rw [opens.unique opens'.opening, cells]
  constructor
  · intro placed
    obtain ⟨cell, inside, rfl⟩ := List.mem_map.mp placed
    have bound := program.outlines_lt (List.mem_flatten.mpr ⟨outline, member, inside⟩)
    rw [UInt32.toNat_ofNat_of_lt' (Nat.lt_of_lt_of_le bound (program.describes length).size)]
    exact ⟨outline, member, head, inside⟩
  · rintro ⟨outline', member', head', inside⟩
    obtain rfl := program.eq_of_mem_outlines member member' (List.mem_of_mem_head? head)
      (List.mem_of_mem_head? head')
    exact List.mem_map.mpr ⟨index.toNat, inside, UInt32.ofNat_toNat⟩

end TypedProgram

/-! Runs. -/

/-- Where a machine is that comes to an instruction: outside of functions, or in the code of one
whose cells are live unless it still allocates them. -/
inductive AtWork (r : Registry) (stmts : List Stmt) (m : Machine) (i : Instruction) : Prop
  | outside (nowhere : (assemble r stmts).functionAt? m.ip = none)
      (own : i ∈ mainListing r stmts ∨ i.target?.isSome = true)
      (unbound : ∀ index, ¬ m.Live index)
  | inside {r' : Routine} (here : (assemble r stmts).functionAt? m.ip = some r'.symbol)
      (active : m.frames.size ≠ 0) (member : r' ∈ routines stmts)
      (own : i ∈ r'.listing ∨ i.target?.isSome = true)
      (bound : i.allocates? = none → ∀ index : UInt32,
        m.Live index ↔ Owns stmts r'.symbol index.toNat)

theorem Builds.atWork (builds : Builds source unit) (compiled : Compiled source r stmts unit)
    (after : Machine.After unit steps m)
    (decoded : unit.instructionAt? m.ip = some (i, width)) : AtWork r stmts m i := by
  have program := compiled.typedProgram builds.clean
  have planned := builds.planned
  have length := builds.addressable
  obtain rfl := compiled.linked
  obtain ⟨a, configured, orderly, resides⟩ := builds.resides (program.houses length) after
  rw [configured.ip_eq] at decoded
  have fine := resides.fine_at decoded
  have depth := configured.frames_size
  obtain ⟨todo, isolated⟩ := orderly.isolated
  cases called : a.waiting with
  | nil =>
      rw [called] at fine
      obtain ⟨nowhere, own⟩ := fine
      exact .outside (configured.ip_eq ▸ nowhere) own
        fun _ => Isolated.not_live configured called
  | cons caller waiting =>
      rw [called] at fine depth
      obtain ⟨here, r', member, named, own⟩ := fine
      rw [← named] at here
      refine .inside (configured.ip_eq ▸ here) (by rw [depth]; exact Nat.succ_ne_zero _) member own
        fun other index => ?_
      obtain rfl := isolated.todo_eq_nil decoded other
      obtain ⟨front, -, prologue, -⟩ := isolated.frame called
      rw [List.append_nil] at prologue
      rw [isolated.live_iff planned configured called prologue, named]
      exact program.mem_cells_iff length prologue

/-- Only an address that is pushed by name misses a cell. -/
theorem Builds.missing_named (builds : Builds source unit) (compiled : Compiled source r stmts unit)
    (after : Machine.After unit steps m)
    (failed : Machine.step unit m = .error (.unboundDynamicVariable index) m') :
    ∃ width, unit.instructionAt? m.ip = some (.putDAddr index, width) ∧ ¬ m.Live index := by
  have program := compiled.typedProgram builds.clean
  have tidy := compiled.tidyProgram
  have length := builds.addressable
  obtain ⟨a, -, orderly⟩ := builds.orderly after
  obtain ⟨i, width, decoded, why⟩ := Machine.step_missing orderly.sound failed
  refine ⟨width, ?_⟩
  have work := builds.atWork compiled after decoded
  obtain rfl := compiled.linked
  cases work with
  | outside nowhere own unbound =>
      rcases why with ⟨sought, missing⟩ | ⟨named, -⟩
      · obtain rfl := program.main_seeks tidy length own sought
        exact ⟨decoded, missing⟩
      · rw [program.main_allocates tidy own] at named
        cases named
  | inside here active member own bound =>
      rcases why with ⟨sought, missing⟩ | ⟨-, idle⟩
      · rcases program.routine_seeks tidy length member own sought with rfl | owned
        · exact ⟨decoded, missing⟩
        · have live := bound (Instruction.allocates?_of_seeks sought) index
          exact absurd (live.mpr owned) missing
      · exact absurd idle active

namespace TypedProgram

theorem mem_listingOf (r : Registry) (stmts : List Stmt)
    (member : .putDAddr index ∈ mainListing r stmts) : .putDAddr index ∈ Stmt.listingOf stmts := by
  simpa [mainListing, prologueListing] using member

theorem builtin_owns (stmts : List Stmt) {r' : Routine} (member : r' ∈ builtinRoutines)
    (named : .putDAddr index ∈ r'.listing) : Owns stmts r'.symbol index.toNat := by
  obtain ⟨⟨function, param, builtin⟩, there, rfl⟩ := List.mem_map.mp member
  obtain rfl : index = UInt32.ofNat function := by simpa [builtinRoutine] using named
  have itself : (UInt32.ofNat function).toNat = function := by
    simp only [builtinFunctions, List.mem_cons, List.not_mem_nil, or_false] at there
    rcases there with same | same <;> cases same <;> rfl
  rw [itself]
  exact ⟨[function, param], List.mem_append_left _ (List.mem_map_of_mem there), rfl,
    List.mem_cons_self⟩

end TypedProgram

theorem Builds.contained_bound (builds : Builds source unit)
    (compiled : Compiled source r stmts unit) (contained : Contained stmts)
    (after : Machine.After unit steps m)
    (decoded : unit.instructionAt? m.ip = some (.putDAddr index, width)) : m.Live index := by
  cases builds.atWork compiled after decoded with
  | outside nowhere own unbound =>
      rcases own with line | jumps
      · exact absurd (TypedProgram.mem_listingOf r stmts line) (contained.inline index)
      · cases jumps
  | inside here active member own bound =>
      rw [bound rfl index]
      rcases own with line | jumps
      · rcases List.mem_append.mp member with given | defined
        · exact TypedProgram.builtin_owns stmts given line
        · exact contained.functions _ defined index line
      · cases jumps

theorem Builds.namesBound (builds : Builds source unit) (compiled : Compiled source r stmts unit) :
    NamesBound stmts unit where
  live_iff := by
    intro steps width m index after decoded
    have linked := compiled.linked
    cases builds.atWork compiled after decoded with
    | outside nowhere own unbound =>
        rw [← linked] at nowhere
        refine iff_of_false (unbound index) ?_
        rintro ⟨function, here, -⟩
        rw [nowhere] at here
        cases here
    | inside here active member own bound =>
        rw [← linked] at here
        rw [bound rfl index]
        refine ⟨fun owned => ⟨_, here, owned⟩, ?_⟩
        rintro ⟨function, here', owned⟩
        obtain rfl := Option.some.inj (here.symm.trans here')
        exact owned
  faults_iff := by
    intro steps m index after
    refine ⟨fun ⟨m', failed⟩ => builds.missing_named compiled after failed, ?_⟩
    rintro ⟨width, decoded, missing⟩
    exact ⟨_, Machine.step_putDAddr_missing decoded missing⟩
  contained := by
    intro contained steps index ended
    obtain ⟨t, m, after, failed⟩ := Machine.runFor_failed (Machine.runFor_later ended)
    obtain ⟨width, decoded, missing⟩ := builds.missing_named compiled after failed
    exact missing (builds.contained_bound compiled contained after decoded)

/-- A variable of a function is bound in its own code, but not in that of a function inside of it. A
function that names only its parameter and its result is never at a loss for a cell. -/
theorem Builds.enclosing_variable_unbound :
    (∃ unit r stmts, Compiled
      "function f of int \x7b int x function g of int \x7b g = x \x7d x = g() \x7d int r r = f()"
        r stmts unit ∧
      (∃ m, Machine.After unit 11 m ∧ m.Live 7 ∧ Owns stmts 6 7) ∧
      ∃ m m', Machine.After unit 15 m ∧ ¬ Owns stmts 8 7 ∧
        Machine.step unit m = .error (.unboundDynamicVariable 7) m') ∧
    ∃ unit r stmts,
      Compiled "function f(int n) of int \x7b f = n \x7d int r r = f(2)" r stmts unit ∧
      Contained stmts ∧ ∀ (steps : Nat) (index : UInt32),
        (Machine.runFor unit steps (Machine.initial unit.table)).1 ≠
          .failed (.unboundDynamicVariable index) := by
  constructor
  · have builds : Builds
        "function f of int \x7b int x function g of int \x7b g = x \x7d x = g() \x7d int r r = f()"
        _ :=
      .of_compile (by decide +kernel) (by decide +kernel) (by decide +kernel)
    obtain ⟨r, stmts, compiled⟩ := exists_compiled builds.success
    have bound := builds.namesBound compiled
    generalize same : Compilation.unit
        (compile
        "function f of int \x7b int x function g of int \x7b g = x \x7d x = g() \x7d int r r = f()")
        = unit at builds compiled bound
    -- The run is computed once, for all that it has to show.
    obtain ⟨toOuter, toInner, outer, inner, atOuter, atInner, live, failed⟩ :
        (Machine.runFor unit 11 (.initial unit.table)).1 = .running ∧
        (Machine.runFor unit 15 (.initial unit.table)).1 = .running ∧
        unit.instructionAt? ((Machine.initial unit.table).later unit 11).ip =
          some (.putDAddr 7, 5) ∧
        unit.instructionAt? ((Machine.initial unit.table).later unit 15).ip =
          some (.putDAddr 7, 5) ∧
        unit.functionAt? ((Machine.initial unit.table).later unit 11).ip = some 6 ∧
        unit.functionAt? ((Machine.initial unit.table).later unit 15).ip = some 8 ∧
        ((Machine.initial unit.table).later unit 11).Live 7 ∧
        ¬ ((Machine.initial unit.table).later unit 15).Live 7 := by
      subst same
      decide +kernel
    have after := Machine.runFor_later toOuter
    have after' := Machine.runFor_later toInner
    refine ⟨unit, r, stmts, compiled, ⟨_, after, live, ?_⟩, ?_⟩
    · obtain ⟨function, here, owned⟩ := (bound.live_iff after outer).mp live
      rw [atOuter] at here
      obtain rfl := Option.some.inj here
      exact owned
    · obtain ⟨m', stepped⟩ := (bound.faults_iff after').mpr ⟨5, inner, failed⟩
      exact ⟨_, m', after', fun owned => failed ((bound.live_iff after' inner).mpr
        ⟨8, atInner, owned⟩), stepped⟩
  · have builds : Builds "function f(int n) of int \x7b f = n \x7d int r r = f(2)" _ :=
      .of_compile (by decide +kernel) (by decide +kernel) (by decide +kernel)
    obtain ⟨r, stmts, compiled⟩ := exists_compiled builds.success
    have contained : Contained stmts := by
      have computed : (read? "function f(int n) of int \x7b f = n \x7d int r r = f(2)").map
          (fun known => decide (Contained known.1)) = some true := by
        decide +kernel
      rw [compiled.read?_eq] at computed
      exact of_decide_eq_true (Option.some.inj computed)
    exact ⟨_, r, stmts, compiled, contained, (builds.namesBound compiled).contained contained⟩

/-- The name of a function stands outside of it, a variable of a function in another one inside of
it, and text behind a null character is run as code. -/
theorem foreign_names_unbound :
    (∃ unit, compile "function f of int \x7b \x7d f = 1" = .success unit ∧
      (Machine.runFor unit 7 (Machine.initial unit.table)).1 =
        .failed (.unboundDynamicVariable 6)) ∧
    (∃ unit, compile
        "function f of int \x7b int x function g of int \x7b g = x \x7d x = g() \x7d int r r = f()"
          = .success unit ∧
      (Machine.runFor unit 20 (Machine.initial unit.table)).1 =
        .failed (.unboundDynamicVariable 7)) ∧
    ∃ unit, compile "string s s = \"\x00!\x00\x00\x00\x00\"" = .success unit ∧
      (Machine.runFor unit 10 (Machine.initial unit.table)).1 =
        .failed (.unboundDynamicVariable 0) :=
  ⟨⟨_, Compilation.eq_success (by decide +kernel), by decide +kernel⟩,
    ⟨_, Compilation.eq_success (by decide +kernel), by decide +kernel⟩,
    ⟨_, Compilation.eq_success (by decide +kernel), by decide +kernel⟩⟩

end StackScript
