import StackScript.Proofs.Resolution.Program
import StackScript.Proofs.Seating.Scopes
import StackScript.Proofs.SingleVariable
import StackScript.Proofs.StoreTyping
import StackScript.Proofs.WellFormed

namespace StackScript

/-! The variable table of a program: it lists the symbols by their numbers, no two records of it are
written alike, and so the value of a static variable is found by how the variable is written. -/

open Source Compilation

variable {source : String} {unit : CodeUnit} {r : Registry} {stmts : List Stmt}

/-! How declarations are written. -/

theorem Scope.child_inj {scope scope' : Scope} {name name' : String}
    (same : scope.child name = scope'.child name') : scope = scope' ∧ name = name' := by
  obtain ⟨segments, names⟩ := List.append_inj' (congrArg Scope.segments same) rfl
  exact ⟨congrArg Scope.mk segments, List.singleton_inj.mp names⟩

/-- The scope of a function of this name, which is written like the declaration. -/
def Declaration.path (d : Declaration) : Scope :=
  d.1.child d.2

namespace Source

theorem Naming.undotted {words : List String} {before word after : List Char}
    (naming : Naming words before word after) : '.' ∉ (String.ofList word).toList :=
  (Grammar.isSegment_of_isName naming.shape).undotted

theorem Parameters.undotted {before after : List Char} {params : List String}
    (parameters : Parameters before params after) : ∀ param ∈ params, '.' ∉ param.toList := by
  induction parameters with
  | done _ => exact List.forall_mem_nil _
  | parameter naming _ induction => exact List.forall_mem_cons.mpr ⟨naming.undotted, induction⟩

/-- In a scope that is written without further dots, so are all declarations. -/
theorem Passage.undotted {scope : Scope} {opened : Nat} {declared added : List Declaration}
    {text after : List Char} {inline functions : List Occurrence}
    (passage : Passage scope opened declared text added inline functions after)
    (undotted : scope.Undotted) : ∀ d ∈ added, d.path.Undotted := by
  induction passage with
  | done _ => exact List.forall_mem_nil _
  | assignment _ _ _ _ induction => exact induction undotted
  | declaration naming _ induction =>
      exact List.forall_mem_cons.mpr ⟨undotted.child naming.undotted, induction undotted⟩
  | block _ _ _ inside rest =>
      exact List.forall_mem_append.mpr
        ⟨inside (undotted.child (undotted_toString _)), rest undotted⟩
  | function naming parameters _ _ _ inside rest =>
      have within := undotted.child naming.undotted
      refine List.forall_mem_append.mpr ⟨List.forall_mem_append.mpr ⟨?_, ?_⟩, rest undotted⟩
      · exact List.forall_mem_map.mpr fun param member =>
          within.child (parameters.undotted param member)
      · exact List.forall_mem_cons.mpr ⟨within, inside within⟩

end Source

namespace Compilation

theorem initial_undotted : ∀ d ∈ initialRegistry.declarations, d.path.Undotted := by
  have segments : ∀ d ∈ initialRegistry.declarations, ∀ segment ∈ d.path.segments,
      '.' ∉ segment.toList := by
    decide +kernel
  exact segments

theorem qualifiedNames_eq (r : Registry) (stmts : List Stmt) :
    (assemble r stmts).table.map Entry.qualifiedName =
      r.declarations.map fun d => d.path.render := by
  have declares := congrArg (List.map fun pair : String × String => pair.1 ++ "." ++ pair.2)
    (table_declares r stmts)
  rw [List.map_map, List.map_map] at declares
  refine declares.trans (List.map_congr_left fun d _ => ?_)
  exact (Scope.render_child d.1 d.2).symm

theorem nodup_qualifiedNames (distinct : r.declarations.Nodup)
    (undotted : ∀ d ∈ r.declarations, d.path.Undotted) (stmts : List Stmt) :
    ((assemble r stmts).table.map Entry.qualifiedName).Nodup := by
  rw [qualifiedNames_eq]
  refine distinct.map_on fun d member d' member' same => ?_
  obtain ⟨scopes, names⟩ :=
    Scope.child_inj (Scope.render_injective (undotted d member) (undotted d' member') same)
  exact Prod.ext scopes names

end Compilation

/-! Values by name. -/

/-- If all records are written differently, the value under the name of a static one is what its
cell holds when the run is over. -/
theorem Execution.value?_of_nodup (distinct : (unit.table.map Entry.qualifiedName).Nodup)
    (limit : Nat) {index : Nat} {entry : Entry} (listed : unit.table[index]? = some entry)
    (data : entry.isData = true) :
    ∃ value, ((Machine.initial unit.table).later unit limit).statics[index]? = some value ∧
      (Execution.within limit unit).value? entry.qualifiedName = some value := by
  have inside := (List.getElem?_eq_some_iff.mp listed).1
  have sound := Machine.later_sound unit limit
  rw [← sound.typed.statics_length] at inside
  obtain ⟨value, held⟩ :
      ∃ value, ((Machine.initial unit.table).later unit limit).statics[index]? = some value :=
    ⟨_, List.getElem?_eq_getElem inside⟩
  refine ⟨value, held, Machine.value?_finish listed rfl data ?_ held⟩
  intro j before other listed' same
  have names : (unit.table.map Entry.qualifiedName)[j]? =
      (unit.table.map Entry.qualifiedName)[index]? := by
    rw [List.getElem?_map, List.getElem?_map, listed', listed, Option.map_some, Option.map_some,
      same]
  have bound : j < (unit.table.map Entry.qualifiedName).length := by
    rw [List.length_map]
    exact (List.getElem?_eq_some_iff.mp listed').1
  exact absurd ((List.getElem?_inj bound distinct).mp names) (Nat.ne_of_lt before)

/-- A program with a table in which each symbol is found by its number and each static variable by
its qualified name. `r` are the symbols that its statements declare. -/
structure Tabulates (source : String) (r : Registry) (stmts : List Stmt) (unit : CodeUnit) :
    Prop where
  distinct : (unit.table.map Entry.qualifiedName).Nodup
  length : unit.table.length = r.size
  /-- The record of a symbol has the number that the registry has given to the symbol. -/
  indexed : ∀ (index : Nat) (s : Symbol), r.get? index = some s →
    ∃ code, unit.table[index]? = some (entryOf { s with code })
  /-- The names in the text denote these numbers, and the code holds them. -/
  named : ∃ added inline functions, NamesResolved source unit (listing r stmts) added inline
    functions (Stmt.symbolsOf stmts) (Stmt.innerOf stmts)
  /-- Whatever else the code names is a number of a symbol, too. -/
  operands : ∀ i ∈ listing r stmts, i.Suits r
  /-- What a block or a function declares is in its scope. -/
  seated : Stmt.SeatedAll r .static .root stmts
  /-- Neither two blocks or functions nor one of them and the program are written alike. -/
  scopes : ((Scope.root :: Stmt.scopesOf stmts).map Scope.render).Nodup
  values : ∀ (limit index : Nat) (entry : Entry), unit.table[index]? = some entry →
    entry.isData = true →
      ∃ value, ((Machine.initial unit.table).later unit limit).statics[index]? = some value ∧
        (Execution.within limit unit).value? entry.qualifiedName = some value

theorem Compiled.opens (compiled : Compiled source r stmts unit) :
    ∃ last, Opens initialRegistry .root 0 (Stmt.scopesOf stmts) last r := by
  obtain ⟨state, rfl, run⟩ := compiled.read
  have done := Grammar.program_opens
    { cursor := .ofSource source, registry := initialRegistry } rfl
  rw [run] at done
  exact done

theorem Compiled.scopes_distinct (compiled : Compiled source r stmts unit) :
    ((Scope.root :: Stmt.scopesOf stmts).map Scope.render).Nodup := by
  obtain ⟨last, opens⟩ := compiled.opens
  have undotted : ∀ scope ∈ Scope.root :: Stmt.scopesOf stmts, scope.Undotted :=
    List.forall_mem_cons.mpr ⟨Scope.undotted_root,
      Stmt.SeatedAll.undotted_scopes stmts compiled.seated Scope.undotted_root⟩
  refine List.Nodup.map_on ?_ (List.nodup_cons.mpr ⟨opens.notMem, opens.distinct⟩)
  exact fun scope member scope' member' same =>
    Scope.render_injective (undotted scope member) (undotted scope' member') same

theorem Compiled.tabulates (compiled : Compiled source r stmts unit) :
    Tabulates source r stmts unit := by
  have scopes := compiled.scopes_distinct
  have seated := compiled.seated
  have named := compiled.namesResolved
  obtain ⟨added, inline, functions, read⟩ := compiled.reads
  have distinct := read.grows.distinct initial_distinct
  have undotted : ∀ d ∈ r.declarations, d.path.Undotted := by
    rw [read.grows.declarations_eq]
    exact List.forall_mem_append.mpr
      ⟨initial_undotted, read.passage.undotted Scope.undotted_root⟩
  obtain rfl := compiled.linked
  have names := nodup_qualifiedNames distinct undotted stmts
  exact {
    distinct := names
    length := length_table r stmts
    indexed := fun index s found =>
      let ⟨code, listed, _⟩ := table_getElem? stmts found
      ⟨code, listed⟩
    named
    operands := listing_suits read.grows.extend seated
    seated
    scopes
    values := fun limit index entry listed data =>
      Execution.value?_of_nodup names limit listed data }

theorem tabulates_of_compile (success : compile source = .success unit) :
    ∃ r stmts, Compiled source r stmts unit ∧ Tabulates source r stmts unit := by
  obtain ⟨r, stmts, compiled⟩ := exists_compiled success
  exact ⟨r, stmts, compiled, compiled.tabulates⟩

/-- Four variables `x`: in the program, in a function, and in a block of each. -/
theorem same_names_tabulated :
    compile "int x function f(int x) of int \x7b \x7b int x \x7d f = x \x7d \x7b int x \x7d x = f(2)" =
        .success
          (compile "int x function f(int x) of int \x7b \x7b int x \x7d f = x \x7d \x7b int x \x7d x = f(2)").unit ∧
      ∃ r stmts,
        Compiled "int x function f(int x) of int \x7b \x7b int x \x7d f = x \x7d \x7b int x \x7d x = f(2)" r stmts
          (compile "int x function f(int x) of int \x7b \x7b int x \x7d f = x \x7d \x7b int x \x7d x = f(2)").unit ∧
        Tabulates "int x function f(int x) of int \x7b \x7b int x \x7d f = x \x7d \x7b int x \x7d x = f(2)" r stmts
          (compile "int x function f(int x) of int \x7b \x7b int x \x7d f = x \x7d \x7b int x \x7d x = f(2)").unit := by
  have success :
      compile "int x function f(int x) of int \x7b \x7b int x \x7d f = x \x7d \x7b int x \x7d x = f(2)" =
        .success
          (compile "int x function f(int x) of int \x7b \x7b int x \x7d f = x \x7d \x7b int x \x7d x = f(2)").unit :=
    Compilation.eq_success (by decide +kernel)
  exact ⟨success, tabulates_of_compile success⟩

end StackScript
