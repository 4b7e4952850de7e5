import Mathlib.Data.List.Perm.Subperm
import StackScript.Proofs.Grammar.Statement
import StackScript.Proofs.Tree.Cells
import StackScript.Proofs.Tree.Flow

namespace StackScript

/-! A program that compiles is typed code throughout. -/

/-- The statements are typed over a registry whose symbols are built in or declared by them. -/
structure TypedProgram (r : Registry) (stmts : List Stmt) : Prop where
  typed : Stmt.TypedAll r .root stmts
  grown : Compilation.initialRegistry.Extends r
  between : Grammar.Between Compilation.initialRegistry r (Stmt.declaresOf stmts)

/-- What a successful compilation read and linked. -/
structure Compiled (source : String) (r : Registry) (stmts : List Stmt) (unit : CodeUnit) :
    Prop where
  read : ∃ state : Grammar.ParseState, state.registry = r ∧
    Grammar.program { cursor := .ofSource source, registry := Compilation.initialRegistry } =
      .ok stmts state
  linked : unit = Compilation.assemble r stmts

/-- The statements that a text is read as, with the symbols that they declare. -/
def read? (source : String) : Option (List Stmt × Registry) :=
  match Grammar.program { cursor := .ofSource source, registry := Compilation.initialRegistry } with
  | .ok stmts state => some (stmts, state.registry)
  | .error _ _ => none

theorem Compiled.read?_eq {source : String} {r : Registry} {stmts : List Stmt} {unit : CodeUnit}
    (compiled : Compiled source r stmts unit) : read? source = some (stmts, r) := by
  obtain ⟨state, rfl, run⟩ := compiled.read
  rw [read?, run]

theorem exists_compiled {source : String} {unit : CodeUnit}
    (success : compile source = .success unit) : ∃ r stmts, Compiled source r stmts unit := by
  simp only [compile] at success
  split at success
  · rename_i stmts state run
    cases success
    exact ⟨state.registry, stmts, ⟨state, rfl, run⟩, rfl⟩
  · cases success

theorem Compiled.typedProgram {source : String} {r : Registry} {stmts : List Stmt}
    {unit : CodeUnit} (compiled : Compiled source r stmts unit) (clean : '\x00' ∉ source.toList) :
    TypedProgram r stmts := by
  obtain ⟨state, rfl, run⟩ := compiled.read
  have done := Grammar.program_declares
    { cursor := .ofSource source, registry := Compilation.initialRegistry } ⟨rfl, clean⟩
  rw [run] at done
  obtain ⟨r', grown, read, reads⟩ := done
  rw [reads.registry_eq]
  exact ⟨read.typed, grown, read.between⟩

namespace Compilation

/-! The listing of a linked program. -/

def prologueListing (globals : List Nat) : Listing :=
  globals.map (fun symbol => .initVar (UInt32.ofNat symbol)) ++
    [.putAddr (UInt32.ofNat trueSymbol), .putBoolean true, .assign .set,
      .putAddr (UInt32.ofNat falseSymbol), .putBoolean false, .assign .set]

def builtinRoutine (function param : Nat) (builtin : Builtin) : Routine where
  symbol := function
  listing :=
    [.allocVar (UInt32.ofNat function), .allocVars (UInt32.ofNat param),
      .putDAddr (UInt32.ofNat function), .syscall (UInt32.ofNat param) builtin.name,
      .assign .set, .ret (UInt32.ofNat function)]

def builtinRoutines : List Routine :=
  builtinFunctions.map fun (function, param, builtin) => builtinRoutine function param builtin

def routines (stmts : List Stmt) : List Routine :=
  builtinRoutines ++ Stmt.routinesOf stmts

def listing (r : Registry) (stmts : List Stmt) : Listing :=
  prologueListing (r.declaredIn .root) ++ (Stmt.listingOf stmts ++ [.stop]) ++
    Routine.code (routines stmts)

def mainListing (r : Registry) (stmts : List Stmt) : Listing :=
  prologueListing (r.declaredIn .root) ++ (Stmt.listingOf stmts ++ [.stop])

theorem prologue_holds (globals : List Nat) :
    (prologue globals).Holds (prologueListing globals) := by
  refine CodeUnit.holds_ofInstructions fun i member => ?_
  rcases List.mem_append.mp member with reset | truth
  · obtain ⟨symbol, -, rfl⟩ := List.mem_map.mp reset
    rfl
  · simp only [List.mem_cons, List.not_mem_nil, or_false] at truth
    rcases truth with rfl | rfl | rfl | rfl | rfl | rfl <;> rfl

theorem builtinUnit_carries (function param : Nat) (builtin : Builtin) :
    (builtinUnit function param builtin).Carries [builtinRoutine function param builtin] := by
  refine CodeUnit.carries_routine (CodeUnit.Holds.addFunction ?_ function 0) rfl
  refine CodeUnit.holds_ofInstructions fun i member => ?_
  simp only [List.mem_cons, List.not_mem_nil, or_false] at member
  rcases member with rfl | rfl | rfl | rfl | rfl | rfl <;> rfl

theorem builtinUnits_carries (functions : List (Nat × Nat × Builtin)) :
    (builtinUnits functions).Carries
      (functions.map fun (function, param, builtin) => builtinRoutine function param builtin) := by
  induction functions with
  | nil => exact CodeUnit.carries_empty
  | cons first rest induction => exact (builtinUnit_carries _ _ _).append induction

theorem link_main_holds (r : Registry) (stmts : List Stmt) :
    (prologue (r.declaredIn .root) ++
      ((Stmt.emissionOf stmts).inline ++ .single .stop)).Holds (mainListing r stmts) :=
  (prologue_holds _).append
    ((Stmt.emissionOf_holds stmts).inline.append (CodeUnit.holds_single .stop))

theorem functions_carry (stmts : List Stmt) :
    (builtinUnits builtinFunctions ++ (Stmt.emissionOf stmts).functions).Carries
      (routines stmts) :=
  (builtinUnits_carries builtinFunctions).append (Stmt.emissionOf_holds stmts).functions

theorem link_holds (r : Registry) (stmts : List Stmt) :
    (link r stmts).Holds (listing r stmts) :=
  (link_main_holds r stmts).append (functions_carry stmts).holds

/-- Functions start behind what runs in line, one after the other. -/
theorem link_functions (r : Registry) (stmts : List Stmt) :
    (link r stmts).functions = Routine.refs (mainListing r stmts).width (routines stmts) := by
  have main : (prologue (r.declaredIn .root) ++
      ((Stmt.emissionOf stmts).inline ++ .single .stop)).functions = [] :=
    CodeUnit.append_noFunctions rfl
      (CodeUnit.append_noFunctions (Stmt.emissionOf_holds stmts).noFunctions rfl)
  rw [link, CodeUnit.append_functions, main, (functions_carry stmts).functions,
    (link_main_holds r stmts).size, List.nil_append, ← Routine.refs_add, Nat.zero_add]

/-! The variable table. -/

theorem resolve_get? {r : Registry} (functions : List FunctionRef) {index : Nat} {s : Symbol}
    (found : r.get? index = some s) :
    ∃ code, (resolve r functions).get? index = some { s with code } ∧
      ((∀ f ∈ functions, f.symbol ≠ index) ∧ code = s.code ∨
        ∃ f ∈ functions, f.symbol = index ∧ code = some (UInt32.ofNat f.offset)) := by
  induction functions generalizing r s with
  | nil => exact ⟨s.code, found, .inl ⟨by simp, rfl⟩⟩
  | cons f functions induction =>
      have step : resolve r (f :: functions) =
          resolve (r.setCode f.symbol (UInt32.ofNat f.offset)) functions := rfl
      rw [step]
      by_cases same : f.symbol = index
      · have moved : (r.setCode f.symbol (UInt32.ofNat f.offset)).get? index =
            some { s with code := some (UInt32.ofNat f.offset) } := by
          rw [Registry.get?] at found
          rw [Registry.get?, Registry.setCode, same, List.getElem?_modify_eq, found]
          rfl
        obtain ⟨code, there, last⟩ := induction moved
        refine ⟨code, there, .inr ?_⟩
        rcases last with ⟨-, rfl⟩ | ⟨g, member, symbol, rfl⟩
        · exact ⟨f, List.mem_cons_self, same, rfl⟩
        · exact ⟨g, List.mem_cons_of_mem f member, symbol, rfl⟩
      · have kept : (r.setCode f.symbol (UInt32.ofNat f.offset)).get? index = some s := by
          rw [Registry.get?] at found
          rw [Registry.get?, Registry.setCode, List.getElem?_modify_ne _ _ same, found]
        obtain ⟨code, there, last⟩ := induction kept
        refine ⟨code, there, ?_⟩
        rcases last with ⟨others, rfl⟩ | ⟨g, member, symbol, rfl⟩
        · exact .inl ⟨List.forall_mem_cons.mpr ⟨same, others⟩, rfl⟩
        · exact .inr ⟨g, List.mem_cons_of_mem f member, symbol, rfl⟩

theorem table_getElem? {r : Registry} (stmts : List Stmt) {index : Nat} {s : Symbol}
    (found : r.get? index = some s) :
    ∃ code, (assemble r stmts).table[index]? = some (entryOf { s with code }) ∧
      ((∀ f ∈ (link r stmts).functions, f.symbol ≠ index) ∧ code = s.code ∨
        ∃ f ∈ (link r stmts).functions, f.symbol = index ∧
          code = some (UInt32.ofNat f.offset)) := by
  obtain ⟨code, there, last⟩ := resolve_get? (link r stmts).functions found
  refine ⟨code, ?_, last⟩
  rw [Registry.get?] at there
  rw [assemble, List.getElem?_map, there]
  rfl

theorem length_table (r : Registry) (stmts : List Stmt) :
    (assemble r stmts).table.length = r.size := by
  have kept : ∀ (functions : List FunctionRef) (r : Registry),
      (resolve r functions).symbols.length = r.symbols.length := by
    intro functions
    induction functions with
    | nil => exact fun _ => rfl
    | cons f functions induction =>
        intro r
        rw [resolve, List.foldl_cons]
        exact (induction _).trans (by simp [Registry.setCode])
  rw [assemble, List.length_map, kept]
  rfl

theorem exists_symbol {r : Registry} {stmts : List Stmt} {index : Nat} {entry : Entry}
    (listed : (assemble r stmts).table[index]? = some entry) :
    ∃ s code, r.get? index = some s ∧ entry = entryOf { s with code } := by
  have inside : index < r.size := by
    rw [← length_table r stmts]
    exact (List.getElem?_eq_some_iff.mp listed).1
  obtain ⟨s, found⟩ : ∃ s, r.get? index = some s := ⟨_, List.getElem?_eq_getElem inside⟩
  obtain ⟨code, there, -⟩ := table_getElem? stmts found
  exact ⟨s, code, found, Option.some.inj (listed.symm.trans there)⟩

end Compilation

namespace TypedProgram

open Compilation

variable {r : Registry} {stmts : List Stmt}

theorem stands (r : Registry) (stmts : List Stmt) :
    Stands (assemble r stmts).code 0 (listing r stmts) :=
  (link_holds r stmts).stands

/-- A function that the unit records is one of the routines, with others before and behind it. -/
theorem exists_split (r : Registry) (stmts : List Stmt) {f : FunctionRef}
    (recorded : f ∈ (assemble r stmts).functions) :
    ∃ front r' back, routines stmts = front ++ r' :: back ∧ f.symbol = r'.symbol ∧
      f.offset = (mainListing r stmts).width + (Routine.code front).width ∧
        Stands (assemble r stmts).code f.offset r'.listing := by
  have functions : (assemble r stmts).functions = _ := link_functions r stmts
  rw [functions] at recorded
  obtain ⟨front, r', back, split, symbol, place⟩ := Routine.exists_split recorded
  have behind := (stands r stmts).append_right
  rw [split, Routine.code_append, Routine.code_cons, Nat.zero_add] at behind
  exact ⟨front, r', back, split, symbol, place, place ▸ behind.append_right.append_left⟩

theorem size_le (program : TypedProgram r stmts) : r.size ≤ (assemble r stmts).code.length := by
  have covered : List.range' 6 (r.size - 6) ⊆
      r.declaredIn .root ++ Stmt.resetsOf stmts ++ Stmt.cellsOf stmts := by
    intro index member
    obtain ⟨old, new⟩ := List.mem_range'_1.mp member
    have declared := program.between.mem_iff.mpr ⟨old, by omega⟩
    simp only [List.mem_append]
    rcases Stmt.mem_declaresOf stmts program.typed index declared with here | line | cell
    · exact .inl (.inl (Grammar.direct_subset program.typed here))
    · exact .inl (.inr line)
    · exact .inr cell
  have distinct : (List.range' 6 (r.size - 6)).Nodup := List.nodup_range'
  have count := (List.subperm_of_subset distinct covered).length_le
  have line := Stmt.resetsOf_width stmts
  have cells := Stmt.cellsOf_width stmts
  have whole : (assemble r stmts).code.length = (listing r stmts).width :=
    (link_holds r stmts).size
  simp only [List.length_range', List.length_append] at count
  simp only [whole, listing, prologueListing, routines, Listing.width_append,
    Stmt.width_map Stmt.width_initVar, Routine.code_append]
  have constant : 6 ≤ Listing.width
      [.putAddr (UInt32.ofNat trueSymbol), .putBoolean true, .assign .set,
        .putAddr (UInt32.ofNat falseSymbol), .putBoolean false, .assign .set] := by
    simp only [Listing.width_cons, Listing.width_nil, Instruction.width_eq]
    omega
  omega

theorem describes (program : TypedProgram r stmts)
    (length : (assemble r stmts).code.length < 2 ^ 32) : (assemble r stmts).Describes r where
  size := Nat.le_trans program.size_le (Nat.le_of_lt length)
  length := length
  entry := by
    intro index s found
    obtain ⟨code, there, -⟩ := table_getElem? stmts found
    refine ⟨_, there, rfl, ?_, ?_, ?_⟩
    · intro isStatic
      cases kind : s.kind <;> simp_all [entryOf, Symbol.Kind.isStatic]
    · intro dynamic
      simp [entryOf, dynamic]
    · intro isFunction
      cases kind : s.kind <;> simp_all [entryOf, Symbol.Kind.isFunction]

/-- The prologue resets the global variables and sets the truth values. -/
theorem prologue_leads {unit : CodeUnit} {goal : Nat → List Shape → Prop}
    (program : TypedProgram r stmts) (describes : unit.Describes r) {ip : Nat}
    (stands : Stands unit.code ip (prologueListing (r.declaredIn .root)))
    (rest : unit.LeadsTo goal (ip + (prologueListing (r.declaredIn .root)).width) []) :
    unit.LeadsTo goal ip [] := by
  have truth : ∀ {ip : Nat} {index : Nat} {s : Symbol} {b : Bool} {others : Listing},
      r.get? index = some s → s.kind = .builtinVar → s.ty = .bool →
      Stands unit.code ip
        (.putAddr (UInt32.ofNat index) :: .putBoolean b :: .assign .set :: others) →
      unit.LeadsTo goal (ip + Listing.width [.putAddr (UInt32.ofNat index), .putBoolean b,
        .assign .set]) [] → unit.LeadsTo goal ip [] := by
    intro ip index s b others found kind ty stands rest
    obtain ⟨entry, listed, same, data, -⟩ := describes.entry index s found
    rw [← describes.toNat found] at listed
    have place : (Shape.place .bool).Covers (.place entry.ty) := by
      rw [same, ty]
      rfl
    have value : (Shape.value .bool).Covers (.value .bool) := Shape.covers_refl _
    refine .stands stands trivial (.putAddr listed (data (by rw [kind]; rfl)) place) ?_
    refine .stands stands.tail trivial (.putBoolean value) ?_
    refine .stands stands.tail.tail trivial (.assign rfl) ?_
    simpa [Nat.add_assoc] using rest
  have resets : ∀ cell ∈ r.declaredIn .root, ∃ s, r.get? cell = some s ∧
      s.kind.isVariable = true := by
    intro cell member
    obtain ⟨s, found, isVariable, -⟩ := Grammar.mem_declaredIn_iff.mp member
    exact ⟨s, found, isVariable⟩
  rw [prologueListing] at stands rest
  refine .cells (Stmt.initVars_effect describes resets []) stands.append_left ?_
  have atTrue := stands.append_right
  refine truth (program.grown.get? rfl) rfl rfl atTrue ?_
  refine truth (program.grown.get? rfl) rfl rfl atTrue.tail.tail.tail ?_
  simpa [Nat.add_assoc] using rest

theorem builtin_leads {unit : CodeUnit} (describes : unit.Describes r) {function param : Nat}
    {builtin : Builtin} {s t : Symbol} {ip : Nat} (found : r.get? function = some s)
    (result : s.ty = .float) (argument : r.get? param = some t) (float : t.ty = .float)
    (stands : Stands unit.code ip (builtinRoutine function param builtin).listing) :
    unit.LeadsTo (unit.Returns (UInt32.ofNat function)) ip (argumentShapes [.float]) := by
  obtain ⟨entry, listed, same, -⟩ := describes.entry function s found
  obtain ⟨entry', listed', same', -⟩ := describes.entry param t argument
  rw [← describes.toNat found] at listed
  rw [← describes.toNat argument] at listed'
  rw [result] at same
  rw [float] at same'
  have known : Builtin.ofName? builtin.name = some builtin := by cases builtin <;> rfl
  have clean : '\x00' ∉ builtin.name.toList := by cases builtin <;> decide
  have place : (Shape.place .float).Covers (.place entry.ty) := same.symm
  have value : (Shape.value .float).Covers (.value .float) := Shape.covers_refl _
  have shapes : argumentShapes [.float] = [.value entry'.ty] := by
    rw [same']
    rfl
  rw [shapes]
  refine .stands stands trivial (.allocVar listed) ?_
  refine .stands stands.tail trivial (.allocVars listed') ?_
  refine .stands stands.tail.tail trivial (.putDAddr listed place) ?_
  refine .stands stands.tail.tail.tail clean (.syscall known listed' same' value) ?_
  refine .stands stands.tail.tail.tail.tail trivial (.assign rfl) ?_
  exact .arrive ⟨rfl, _, stands.tail.tail.tail.tail.tail.decode trivial⟩

theorem exists_routine (program : TypedProgram r stmts) {index : Nat} {s : Symbol}
    (found : r.get? index = some s) (isFunction : s.kind.isFunction = true) :
    ∃ r' ∈ routines stmts, r'.symbol = index := by
  by_cases builtin : index < initialRegistry.size
  · obtain ⟨t, there⟩ : ∃ t, initialRegistry.get? index = some t :=
      ⟨_, List.getElem?_eq_getElem builtin⟩
    have same := program.grown.get? there
    rw [found] at same
    obtain rfl := Option.some.inj same
    have only : index = 2 ∨ index = 4 := by
      have bound : index < 6 := builtin
      rcases (by omega : index = 0 ∨ index = 1 ∨ index = 2 ∨ index = 3 ∨ index = 4 ∨ index = 5)
        with rfl | rfl | rfl | rfl | rfl | rfl
      · cases there
        cases isFunction
      · cases there
        cases isFunction
      · exact .inl rfl
      · cases there
        cases isFunction
      · exact .inr rfl
      · cases there
        cases isFunction
    rcases only with rfl | rfl
    · exact ⟨builtinRoutine 2 3 .sin, by simp [routines, builtinRoutines, builtinFunctions], rfl⟩
    · exact ⟨builtinRoutine 4 5 .cos, by simp [routines, builtinRoutines, builtinFunctions], rfl⟩
  · have inside : index < r.size := (List.getElem?_eq_some_iff.mp found).1
    have declared := program.between.mem_iff.mpr ⟨Nat.le_of_not_lt builtin, inside⟩
    obtain ⟨r', member, same⟩ := Stmt.exists_routineOf found isFunction stmts program.typed declared
    exact ⟨r', List.mem_append_right _ member, same⟩

theorem routine_leads (program : TypedProgram r stmts)
    (length : (assemble r stmts).code.length < 2 ^ 32) {r' : Routine} (member : r' ∈ routines stmts)
    {s : Symbol} (found : r.get? r'.symbol = some s) {ip : Nat}
    (stands : Stands (assemble r stmts).code ip r'.listing) :
    (assemble r stmts).LeadsTo ((assemble r stmts).Returns (UInt32.ofNat r'.symbol)) ip
      (argumentShapes s.params) := by
  have describes := program.describes length
  have known {index : Nat} {t : Symbol} (there : initialRegistry.get? index = some t) :
      r.get? index = some t := program.grown.get? there
  rcases List.mem_append.mp member with builtin | defined
  · simp only [builtinRoutines, builtinFunctions, List.map_cons, List.map_nil, List.mem_cons,
      List.not_mem_nil, or_false] at builtin
    rcases builtin with rfl | rfl
    · have there : r.get? 2 = some _ := known rfl
      have argument : r.get? 3 = some _ := known rfl
      obtain rfl := Option.some.inj (there.symm.trans found)
      exact builtin_leads describes there rfl argument rfl stands
    · have there : r.get? 4 = some _ := known rfl
      have argument : r.get? 5 = some _ := known rfl
      obtain rfl := Option.some.inj (there.symm.trans found)
      exact builtin_leads describes there rfl argument rfl stands
  · obtain ⟨symbol, params, body, t, rfl, typed, -⟩ :=
      Stmt.mem_routinesOf stmts program.typed r' defined
    have same : some s = some t := found.symm.trans typed.found
    obtain rfl := Option.some.inj same
    obtain ⟨scope, all⟩ := typed.body
    exact Stmt.routine_leads describes typed.found typed.params all stands

/-- The code of a function in the variable table starts where the unit says. -/
theorem exists_ref (program : TypedProgram r stmts)
    (length : (assemble r stmts).code.length < 2 ^ 32) {index code : UInt32} {entry : Entry}
    {params : List Ty} (listed : (assemble r stmts).table[index.toNat]? = some entry)
    (storage : entry.storage = .function params code) :
    ∃ f ∈ (assemble r stmts).functions, f.symbol = index.toNat ∧ f.offset = code.toNat ∧
      ∃ s, r.get? index.toNat = some s ∧ s.params = params := by
  obtain ⟨s, -, found, -⟩ := exists_symbol listed
  obtain ⟨start, there, last⟩ := table_getElem? stmts found
  rw [there] at listed
  obtain rfl := Option.some.inj listed
  obtain ⟨isFunction, rfl, rfl⟩ : s.kind.isFunction = true ∧ s.params = params ∧
      start.getD 0 = code := by
    cases kind : s.kind <;> simp_all [entryOf, Symbol.Kind.isFunction]
  rcases last with ⟨none, -⟩ | ⟨f, recorded, symbol, rfl⟩
  · obtain ⟨r', member, same⟩ := program.exists_routine found isFunction
    obtain ⟨f, recorded, equal⟩ := Routine.exists_ref (mainListing r stmts).width member
    rw [← link_functions] at recorded
    exact absurd (equal.trans same) (none f recorded)
  · obtain ⟨_, r', _, -, -, -, placed⟩ := exists_split r stmts recorded
    have offset : (UInt32.ofNat f.offset).toNat = f.offset :=
      UInt32.toNat_ofNat_of_lt'
        (Nat.lt_of_le_of_lt (Nat.le_trans (Nat.le_add_right _ _) placed.le_length) length)
    exact ⟨f, recorded, symbol, offset.symm, s, found, rfl⟩

theorem routine_stands (program : TypedProgram r stmts)
    (length : (assemble r stmts).code.length < 2 ^ 32) {index code : UInt32} {entry : Entry}
    {params : List Ty} (listed : (assemble r stmts).table[index.toNat]? = some entry)
    (storage : entry.storage = .function params code) :
    ∃ r' ∈ routines stmts, ∃ s, r'.symbol = index.toNat ∧ r.get? index.toNat = some s ∧
      s.params = params ∧ Stands (assemble r stmts).code code.toNat r'.listing := by
  obtain ⟨f, recorded, symbol, offset, s, found, rfl⟩ :=
    program.exists_ref length listed storage
  obtain ⟨front, r', back, split, same, -, placed⟩ := exists_split r stmts recorded
  have member : r' ∈ routines stmts := split ▸ List.mem_append_right front List.mem_cons_self
  exact ⟨r', member, s, same.symm.trans symbol, found, rfl, offset ▸ placed⟩

theorem linked (program : TypedProgram r stmts)
    (length : (assemble r stmts).code.length < 2 ^ 32) : (assemble r stmts).Linked := by
  intro index code entry params listed storage
  obtain ⟨r', member, s, name, found, rfl, stands⟩ :=
    program.routine_stands length listed storage
  rw [← name] at found
  have leads := program.routine_leads length member found stands
  rwa [name, UInt32.ofNat_toNat] at leads

/-- Where the statements behind some others start. -/
def boundary (r : Registry) (front : List Stmt) : Nat :=
  (prologueListing (r.declaredIn .root)).width + (Stmt.listingOf front).width

theorem stop_stands (r : Registry) (stmts : List Stmt) :
    Stands (assemble r stmts).code (boundary r stmts) [.stop] := by
  have whole := (stands r stmts).append_left.append_right.append_right
  simpa [boundary] using whole

theorem back_stands (r : Registry) (front back : List Stmt) :
    Stands (assemble r (front ++ back)).code (boundary r front) (Stmt.listingOf back) := by
  have whole := (stands r (front ++ back)).append_left.append_right.append_left
  rw [Stmt.listingOf_append] at whole
  simpa [boundary] using whole.append_right

theorem back_leads {front back : List Stmt} (program : TypedProgram r (front ++ back))
    (length : (assemble r (front ++ back)).code.length < 2 ^ 32) :
    (assemble r (front ++ back)).LeadsTo (assemble r (front ++ back)).Stops (boundary r front)
      [] := by
  have typed := (Stmt.typedAll_append.mp program.typed).2
  refine Stmt.leadsOf (program.describes length) back typed (back_stands r front back) ?_
  have last := stop_stands r (front ++ back)
  rw [boundary, Stmt.listingOf_append, Listing.width_append, ← Nat.add_assoc] at last
  exact .arrive ⟨rfl, _, last.decode trivial⟩

theorem front_leads {front back : List Stmt} (program : TypedProgram r (front ++ back))
    (length : (assemble r (front ++ back)).code.length < 2 ^ 32) :
    (assemble r (front ++ back)).LeadsTo (fun ip shapes => ip = boundary r front ∧ shapes = []) 0
      [] := by
  have describes := program.describes length
  have typed := (Stmt.typedAll_append.mp program.typed).1
  have whole := (stands r (front ++ back)).append_left
  refine program.prologue_leads describes whole.append_left ?_
  have line := whole.append_right.append_left
  rw [Stmt.listingOf_append] at line
  refine Stmt.leadsOf describes front typed line.append_left (.arrive ⟨?_, rfl⟩)
  rw [boundary, Nat.zero_add]

end TypedProgram

end StackScript
