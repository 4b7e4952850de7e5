import StackScript.Proofs.Openings
import StackScript.Proofs.Resolution.Program
import StackScript.Proofs.Tree.Definitions
import StackScript.Proofs.WellFormed

namespace StackScript

/-! Linking: functions start where the variable table says, and the code of each allocates its own
cells. All cells of a program are allocated in one place of its code. -/

open Compilation

variable {source : String} {unit : CodeUnit} {r : Registry} {stmts : List Stmt}

/-- The records that the instructions at some places allocate cells for. -/
def allocations (places : List (Nat × Instruction)) : List UInt32 :=
  places.filterMap fun place => place.2.allocates?

/-- The records of the variables of frames that are declared in a scope, in their order. -/
def CodeUnit.variablesIn (unit : CodeUnit) (scope : String) : List Nat :=
  (List.range unit.table.length).filter fun index =>
    unit.table[index]?.any fun entry => entry.storage = .ddata && entry.scope = scope

/-- The code at an offset is that of a function of the variable table: it allocates the cell of the
function, those of its parameters from the last to the first, and those of its other variables. -/
structure CodeUnit.LaysOut (unit : CodeUnit) (function : Nat) (entry : Entry) (tys : List Ty)
    (code : UInt32) (params locals : List Nat) : Prop where
  /-- Nothing else is allocated there. -/
  opening : unit.Opening code.toNat
    (.allocVar (UInt32.ofNat function) ::
      (params.reverse.map (fun param => .allocVars (UInt32.ofNat param)) ++
        locals.map fun cell => .allocVar (UInt32.ofNat cell)))
  /-- The parameters have the types of the arguments, and stand in the scope of the function. -/
  parameters : List.Forall₂ (fun param ty => ∃ e, unit.table[param]? = some e ∧ e.storage = .ddata ∧
    e.ty = ty ∧ e.scope = entry.qualifiedName) params tys
  /-- The parameters are in the order in which they are declared. -/
  ordered : params.Pairwise (· < ·)
  /-- No variable of the function is declared in front of its parameters. -/
  first : params = (unit.variablesIn entry.qualifiedName).take tys.length
  distinct : locals.Nodup
  /-- The other variables are those in the scope of the function and in blocks there. -/
  others : ∀ cell, cell ∈ locals ↔ cell ∉ params ∧ ∃ (e : Entry) (blocks : List Nat),
    unit.table[cell]? = some e ∧ e.storage = .ddata ∧
      e.scope = ".".intercalate (entry.qualifiedName :: blocks.map toString)

/-- A unit whose instructions stand at these places. -/
structure CodeUnit.FunctionsLinked (unit : CodeUnit) (places : List (Nat × Instruction)) :
    Prop where
  linear : unit.instructions? = some places
  /-- Words tell the records of the variable table apart. -/
  size : unit.table.length < 2 ^ 32
  functions : ∀ {function : Nat} {entry : Entry} {tys : List Ty} {code : UInt32},
    unit.table[function]? = some entry → entry.storage = .function tys code →
      (code.toNat, .allocVar (UInt32.ofNat function)) ∈ places ∧
        ∃ params locals, unit.LaysOut function entry tys code params locals
  /-- Whatever is not static is allocated by one instruction. -/
  once : ∀ {index : Nat} {entry : Entry}, unit.table[index]? = some entry →
    entry.storage ≠ .data → (allocations places).count (UInt32.ofNat index) = 1

namespace CodeUnit

theorem mem_variablesIn_iff {unit : CodeUnit} {scope : String} {index : Nat} :
    index ∈ unit.variablesIn scope ↔
      ∃ e, unit.table[index]? = some e ∧ e.storage = .ddata ∧ e.scope = scope := by
  simp only [variablesIn, List.mem_filter, List.mem_range]
  cases listed : unit.table[index]? with
  | none => simp
  | some e => simp [(List.getElem?_eq_some_iff.mp listed).1]

theorem sorted_variablesIn (unit : CodeUnit) (scope : String) :
    (unit.variablesIn scope).Pairwise (· < ·) :=
  List.pairwise_lt_range.filter _

end CodeUnit

/-- Some members of an ordered list that precede all others of its members are its front. -/
theorem eq_take_of_first {l front : List Nat} (sorted : l.Pairwise (· < ·))
    (ordered : front.Pairwise (· < ·)) (inside : front ⊆ l)
    (first : ∀ x ∈ front, ∀ y ∈ l, y ∉ front → x < y) : front = l.take front.length := by
  have both : (front ++ l.filter (· ∉ front)).Pairwise (· < ·) := by
    refine List.pairwise_append.mpr ⟨ordered, sorted.filter _, fun x here y there => ?_⟩
    obtain ⟨member, other⟩ := List.mem_filter.mp there
    exact first x here y member (of_decide_eq_true other)
  have members : ∀ x, x ∈ front ++ l.filter (· ∉ front) ↔ x ∈ l := by
    intro x
    by_cases here : x ∈ front
    · simp [here, inside here]
    · simp [here]
  have perm := (List.perm_ext_iff_of_nodup (both.imp Nat.ne_of_lt)
    (sorted.imp Nat.ne_of_lt)).mpr members
  have whole := perm.eq_of_pairwise (fun x y _ _ lt gt => absurd gt (Nat.lt_asymm lt)) both sorted
  rw [← whole, List.take_left]

/-! What allocates. -/

namespace Listing

theorem allocations_places (offset : Nat) (listing : Listing) :
    allocations (listing.places offset) = listing.cells := by
  induction listing generalizing offset with
  | nil => rfl
  | cons i rest induction =>
      have same : (i.shift offset).allocates? = i.allocates? := by cases i <;> rfl
      rw [places, allocations, List.filterMap_cons, same, cells, List.filterMap_cons]
      cases i.allocates? with
      | none => exact induction (offset + i.width)
      | some index => exact congrArg (index :: ·) (induction (offset + i.width))

theorem cells_eq_nil {listing : Listing} (none : ∀ i ∈ listing, i.allocates? = none) :
    listing.cells = [] :=
  List.filterMap_eq_nil_iff.mpr none

end Listing

theorem Stmt.Definition.cells_routine {scope : Scope} (d : Definition)
    (all : TypedAll r scope d.body) :
    d.routine.listing.cells = d.outline.map UInt32.ofNat := by
  have split : d.routine.listing =
      opening d.symbol d.params d.body ++ (listingOf d.body ++ [.ret (UInt32.ofNat d.symbol)]) := by
    simp only [routine, Stmt.routine, opening, List.append_assoc]
  have body : Listing.cells (listingOf d.body ++ [.ret (UInt32.ofNat d.symbol)]) = [] :=
    Listing.cells_eq_nil
      (forall_mem_concat (fun i member => (emitsOf d.body all i member).allocates?_eq) rfl)
  rw [split, Listing.cells_append, opening_cells, body, List.append_nil]
  rfl

namespace TypedProgram

variable (program : TypedProgram r stmts)

include program

theorem cells_main : (mainListing r stmts).cells = [] := by
  refine Listing.cells_eq_nil (List.forall_mem_append.mpr ⟨fun i member => ?_, ?_⟩)
  · simp only [prologueListing, List.mem_append, List.mem_map, List.mem_cons, List.not_mem_nil,
      or_false] at member
    rcases member with ⟨cell, -, rfl⟩ | rfl | rfl | rfl | rfl | rfl | rfl <;> rfl
  · exact forall_mem_concat
      (fun i member => (Stmt.emitsOf stmts program.typed i member).allocates?_eq) rfl

theorem cells_defined {defined : List Stmt.Definition}
    (known : defined ⊆ Stmt.definitionsOf stmts) :
    (Routine.code (defined.map Stmt.Definition.routine)).cells =
      (defined.map Stmt.Definition.outline).flatten.map UInt32.ofNat := by
  induction defined with
  | nil => rfl
  | cons d defined induction =>
      obtain ⟨first, others⟩ := List.cons_subset.mp known
      obtain ⟨s, typed⟩ := Stmt.typedRoutine_of_memOf stmts program.typed d first
      obtain ⟨scope, all⟩ := typed.body
      rw [List.map_cons, Routine.code_cons, Listing.cells_append, d.cells_routine all,
        induction others, List.map_cons, List.flatten_cons, List.map_append]

/-- All that the code of a program allocates is cells of its functions. -/
theorem cells_listing :
    (listing r stmts).cells = (outlines stmts).flatten.map UInt32.ofNat := by
  have whole : listing r stmts =
      mainListing r stmts ++ (Routine.code builtinRoutines ++
        Routine.code (Stmt.routinesOf stmts)) := by
    rw [← Routine.code_append]
    rfl
  have builtin : (Routine.code builtinRoutines).cells =
      ([2, 3, 4, 5] : List Nat).map UInt32.ofNat := rfl
  rw [whole, Listing.cells_append, Listing.cells_append, program.cells_main, builtin,
    Stmt.routinesOf_eq, program.cells_defined (List.Subset.refl _), ← Stmt.outlinesOf_eq,
    outlines_flatten, List.map_append]
  rfl

/-- Whatever is not static is a cell of a function. -/
theorem mem_outlines_of_storage (seated : Stmt.SeatedAll r .static .root stmts) {index : Nat}
    {s : Symbol} (found : r.get? index = some s) (stored : s.kind.storage ≠ .data) :
    index ∈ (outlines stmts).flatten := by
  rw [outlines_flatten, List.mem_append]
  by_cases builtin : index < 6
  · rcases (by omega : index = 0 ∨ index = 1 ∨ index = 2 ∨ index = 3 ∨ index = 4 ∨ index = 5)
      with rfl | rfl | others
    · exact absurd (Option.some.inj ((program.builtin_known rfl).symm.trans found) ▸ rfl) stored
    · exact absurd (Option.some.inj ((program.builtin_known rfl).symm.trans found) ▸ rfl) stored
    · refine .inl ?_
      simp only [List.mem_cons, List.not_mem_nil, or_false]
      exact others
  · refine .inr ?_
    have inside : index < r.size := (List.getElem?_eq_some_iff.mp found).1
    have declared := program.between.mem_iff.mpr ⟨Nat.le_of_not_lt builtin, inside⟩
    rcases List.mem_append.mp ((Stmt.outlinesOf_perm stmts).mem_iff.mpr declared) with line | cell
    · obtain ⟨t, found', static, -⟩ := Stmt.SeatedAll.locals stmts seated index line
      obtain rfl := Option.some.inj (found.symm.trans found')
      rw [static] at stored
      exact absurd rfl stored
    · exact cell

theorem builtin_lies {function param : Nat} {s t : Symbol}
    (known : initialRegistry.get? function = some s) (isFunction : s.kind.isFunction = true)
    (named : Grammar.isName s.name.toList = true) (here : s.scope = .root)
    (typed : s.params = [t.ty])
    (known' : initialRegistry.get? param = some t) (dynamic : t.kind = .dynamicVar)
    (inside : t.scope = s.scope.child s.name) :
    Stmt.Definition.Lies r ⟨function, [param], []⟩ s where
  found := program.builtin_known known
  isFunction := isFunction
  named := by
    rw [← String.ofList_toList (s := s.name)]
    exact Grammar.isSegment_of_isName named
  undotted := here ▸ Scope.undotted_root
  typed := by
    rw [typed]
    exact .cons ⟨t, program.builtin_known known', dynamic, rfl⟩ .nil
  params := {
    declared := List.forall_mem_singleton.mpr ⟨t, program.builtin_known known', dynamic, inside⟩
    ordered := List.pairwise_singleton _ _
    first := fun _ _ => List.forall_mem_nil _ }
  locals := List.forall_mem_nil _

theorem definition_lies (seated : Stmt.SeatedAll r .static .root stmts) :
    ∀ d ∈ definitions stmts, ∃ s, d.Lies r s := by
  intro d defined
  rcases List.mem_append.mp defined with given | own
  · simp only [builtinFunctions, List.map_cons, List.map_nil, List.mem_cons, List.not_mem_nil,
      or_false] at given
    rcases given with rfl | rfl
    · exact ⟨_, program.builtin_lies rfl rfl (by decide +kernel) rfl rfl rfl rfl rfl⟩
    · exact ⟨_, program.builtin_lies rfl rfl (by decide +kernel) rfl rfl rfl rfl rfl⟩
  · obtain ⟨_, _, _, _, stands⟩ :=
      Stmt.definitionsOf_stand stmts program.typed seated Scope.undotted_root d own
    exact stands.exists_lies

end TypedProgram

/-! The variable table. -/

namespace Compilation

theorem storage_entryOf {s : Symbol} {code : Option UInt32} :
    (entryOf { s with code }).storage = .ddata ↔ s.kind = .dynamicVar := by
  cases s.kind <;> simp [entryOf]

theorem qualifiedName_entryOf (s : Symbol) :
    (entryOf s).qualifiedName = (s.scope.child s.name).render := by
  rw [Scope.render_child]
  rfl

end Compilation

namespace TypedProgram

variable (program : TypedProgram r stmts)

include program

omit program in
theorem exists_variable {cell : Nat} {t : Symbol} (found : r.get? cell = some t)
    (dynamic : t.kind = .dynamicVar) :
    ∃ e, (assemble r stmts).table[cell]? = some e ∧ e.storage = .ddata ∧ e.ty = t.ty ∧
      e.scope = t.scope.render := by
  obtain ⟨code, listed, -⟩ := table_getElem? stmts found
  exact ⟨_, listed, storage_entryOf.mpr dynamic, rfl, rfl⟩

/-- A dynamic variable whose scope reads like that of a block of a function is a cell of the
function. -/
theorem mem_outline_of_render (seated : Stmt.SeatedAll r .static .root stmts)
    (distinct : r.declarations.Nodup) {d : Stmt.Definition} {s t : Symbol} {cell : Nat}
    {blocks : List Nat} (defined : d ∈ definitions stmts) (lies : d.Lies r s)
    (found : r.get? cell = some t) (dynamic : t.kind = .dynamicVar)
    (same : t.scope.render = ((s.scope.child s.name).below blocks).render) :
    cell ∈ d.outline := by
  have stored : t.kind.storage ≠ .data := by
    rw [dynamic]
    decide
  obtain ⟨outline, listed, member⟩ :=
    List.mem_flatten.mp (program.mem_outlines_of_storage seated found stored)
  rw [outlines_eq] at listed
  obtain ⟨d', defined', rfl⟩ := List.mem_map.mp listed
  obtain ⟨s', lies'⟩ := program.definition_lies seated d' defined'
  rcases lies'.cell_cases member with rfl | ⟨t', found', -, blocks', here⟩
  · obtain rfl := Option.some.inj (lies'.found.symm.trans found)
    have isFunction := lies'.isFunction
    rw [dynamic] at isFunction
    cases isFunction
  · obtain rfl := Option.some.inj (found.symm.trans found')
    rw [here] at same
    have scopes := Scope.render_injective
      ((lies'.undotted.child lies'.named.undotted).below blocks')
      ((lies.undotted.child lies.named.undotted).below blocks) same
    have functions := lies'.same_function lies distinct scopes
    have outlined {d : Stmt.Definition} (defined : d ∈ definitions stmts) :
        d.outline ∈ outlines stmts := by
      rw [outlines_eq]
      exact List.mem_map_of_mem defined
    have first : d.symbol ∈ d'.outline := functions ▸ List.mem_cons_self
    rwa [program.eq_of_mem_outlines (outlined defined') (outlined defined) first
      List.mem_cons_self] at member

theorem laysOut (length : (assemble r stmts).code.length < 2 ^ 32)
    (seated : Stmt.SeatedAll r .static .root stmts) (distinct : r.declarations.Nodup)
    {function code : UInt32} {entry : Entry} {tys : List Ty}
    (listed : (assemble r stmts).table[function.toNat]? = some entry)
    (storage : entry.storage = .function tys code) :
    ∃ params locals, (assemble r stmts).LaysOut function.toNat entry tys code params locals := by
  obtain ⟨d, defined, name, -, opens⟩ := program.exists_definition length listed storage
  obtain ⟨s, lies⟩ := program.definition_lies seated d defined
  obtain ⟨s', start, found, rfl⟩ := exists_symbol listed
  rw [← name] at found
  obtain rfl := Option.some.inj (lies.found.symm.trans found)
  have types : s.params = tys := by
    cases kind : s.kind <;> simp_all [entryOf]
  have outlined : d.outline ∈ outlines stmts := by
    rw [outlines_eq]
    exact List.mem_map_of_mem defined
  have nodup : d.outline.Nodup := (List.nodup_flatten.mp program.outlines_nodup).1 _ outlined
  obtain ⟨-, own, apart⟩ := List.nodup_append.mp (List.nodup_cons.mp nodup).2
  have parameters : List.Forall₂ (fun param ty => ∃ e, (assemble r stmts).table[param]? = some e ∧
      e.storage = .ddata ∧ e.ty = ty ∧ e.scope = (s.scope.child s.name).render) d.params tys := by
    have both := (List.forall₂_and_left _ _).mpr ⟨lies.params.declared, lies.typed⟩
    rw [types] at both
    refine both.imp fun param ty typed => ?_
    obtain ⟨⟨t, found, dynamic, here⟩, t', found', -, same⟩ := typed
    obtain rfl := Option.some.inj (found.symm.trans found')
    obtain ⟨e, there, stored, ty', scope⟩ := exists_variable found dynamic
    exact ⟨e, there, stored, ty'.trans same, scope.trans (congrArg _ here)⟩
  have others : ∀ cell, cell ∈ Stmt.localsOf d.body ↔ cell ∉ d.params ∧
      ∃ (e : Entry) (blocks : List Nat), (assemble r stmts).table[cell]? = some e ∧
        e.storage = .ddata ∧ e.scope = ((s.scope.child s.name).below blocks).render := by
    intro cell
    constructor
    · intro member
      obtain ⟨t, found, dynamic, blocks, here⟩ := lies.locals cell member
      obtain ⟨e, there, stored, -, scope⟩ := exists_variable found dynamic
      exact ⟨fun param => apart cell (List.mem_reverse.mpr param) cell member rfl, e, blocks,
        there, stored, scope.trans (congrArg _ here)⟩
    · rintro ⟨other, e, blocks, there, stored, scope⟩
      obtain ⟨t, code, found, rfl⟩ := exists_symbol there
      have dynamic := storage_entryOf.mp stored
      have member := program.mem_outline_of_render seated distinct defined lies found dynamic scope
      rcases List.mem_cons.mp member with rfl | inside
      · obtain rfl := Option.some.inj (lies.found.symm.trans found)
        have isFunction := lies.isFunction
        rw [dynamic] at isFunction
        cases isFunction
      · rcases List.mem_append.mp inside with param | line
        · exact absurd (List.mem_reverse.mp param) other
        · exact line
  have first : d.params =
      ((assemble r stmts).variablesIn (s.scope.child s.name).render).take tys.length := by
    rw [← parameters.length_eq]
    refine eq_take_of_first (CodeUnit.sorted_variablesIn _ _) lies.params.ordered ?_ ?_
    · intro param member
      obtain ⟨t, found, dynamic, here⟩ := lies.params.declared param member
      obtain ⟨e, there, stored, -, scope⟩ := exists_variable found dynamic
      exact CodeUnit.mem_variablesIn_iff.mpr ⟨e, there, stored, scope.trans (congrArg _ here)⟩
    · intro param member cell inside other
      obtain ⟨e, there, stored, scope⟩ := CodeUnit.mem_variablesIn_iff.mp inside
      have line := (others cell).mpr ⟨other, e, [], there, stored, by rw [Scope.below_nil, scope]⟩
      exact lies.params.first param member cell line
  simp only [Scope.render_below, ← qualifiedName_entryOf] at parameters others first
  exact ⟨d.params, Stmt.localsOf d.body,
    ⟨name ▸ opens.opening, parameters, lies.params.ordered, first, own, others⟩⟩

/-- The code of a function starts at an instruction. -/
theorem start_mem (length : (assemble r stmts).code.length < 2 ^ 32) {function code : UInt32}
    {entry : Entry} {tys : List Ty}
    (listed : (assemble r stmts).table[function.toNat]? = some entry)
    (storage : entry.storage = .function tys code) :
    (code.toNat, .allocVar function) ∈ (listing r stmts).places 0 := by
  obtain ⟨f, recorded, symbol, offset, -⟩ := program.exists_ref length listed storage
  obtain ⟨front, r', back, split, name, place, -⟩ := exists_split r stmts recorded
  have known : r' ∈ routines stmts := split ▸ List.mem_append_right front List.mem_cons_self
  obtain ⟨rest, head⟩ : ∃ rest, r'.listing = .allocVar (UInt32.ofNat r'.symbol) :: rest := by
    rcases List.mem_append.mp known with given | defined
    · obtain ⟨⟨function, param, builtin⟩, -, rfl⟩ := List.mem_map.mp given
      exact ⟨_, rfl⟩
    · rw [Stmt.routinesOf_eq] at defined
      obtain ⟨d, -, rfl⟩ := List.mem_map.mp defined
      exact ⟨_, rfl⟩
  have whole : listing r stmts =
      mainListing r stmts ++ (Routine.code front ++ (r'.listing ++ Routine.code back)) := by
    rw [← Routine.code_cons, ← Routine.code_append, ← split]
    rfl
  rw [whole, Listing.places_append, Listing.places_append, Listing.places_append, head,
    ← offset, place, Nat.zero_add, ← name, symbol, UInt32.ofNat_toNat]
  exact List.mem_append_right _
    (List.mem_append_right _ (List.mem_append_left _ List.mem_cons_self))

theorem functions_linked (length : (assemble r stmts).code.length < 2 ^ 32)
    (seated : Stmt.SeatedAll r .static .root stmts) (distinct : r.declarations.Nodup) :
    (assemble r stmts).FunctionsLinked ((listing r stmts).places 0) := by
  have size : r.size < 2 ^ 32 := Nat.lt_of_le_of_lt program.size_le length
  refine ⟨(program.wellFormed seated).linear, length_table r stmts ▸ size, ?_, ?_⟩
  · intro function entry tys code listed storage
    have inside : function < 2 ^ 32 := by
      have bound := (List.getElem?_eq_some_iff.mp listed).1
      rw [length_table] at bound
      exact Nat.lt_trans bound size
    have same : (UInt32.ofNat function).toNat = function := UInt32.toNat_ofNat_of_lt' inside
    have listed' : (assemble r stmts).table[(UInt32.ofNat function).toNat]? = some entry :=
      same.symm ▸ listed
    refine ⟨program.start_mem length listed' storage, ?_⟩
    have laid := program.laysOut length seated distinct listed' storage
    rwa [same] at laid
  · intro index entry listed stored
    obtain ⟨s, code, found, rfl⟩ := exists_symbol listed
    have kind : s.kind.storage ≠ .data := by
      cases kind : s.kind <;> simp_all [entryOf, Symbol.Kind.storage]
    have member := program.mem_outlines_of_storage seated found kind
    have nodup : ((outlines stmts).flatten.map UInt32.ofNat).Nodup := by
      refine program.outlines_nodup.map_on fun cell here cell' there same => ?_
      have words := congrArg UInt32.toNat same
      rwa [UInt32.toNat_ofNat_of_lt' (Nat.lt_trans (program.outlines_lt here) size),
        UInt32.toNat_ofNat_of_lt' (Nat.lt_trans (program.outlines_lt there) size)] at words
    rw [Listing.allocations_places, program.cells_listing]
    exact List.count_eq_one_of_mem nodup (List.mem_map_of_mem member)

end TypedProgram

theorem Builds.functionsLinked (builds : Builds source unit) :
    ∃ places, unit.FunctionsLinked places := by
  obtain ⟨r, stmts, compiled⟩ := exists_compiled builds.success
  have program := compiled.typedProgram builds.clean
  have seated := compiled.seated
  obtain ⟨added, inline, functions, read⟩ := compiled.reads
  have distinct := read.grows.distinct initial_distinct
  obtain rfl := compiled.linked
  exact ⟨_, program.functions_linked builds.addressable seated distinct⟩

/-- A function with a variable in a block, and with a function in it. -/
theorem nested_function_linked :
    ∃ unit places,
      Builds "function f(int a, int b) of int \x7b \x7b int c \x7d function g of int \x7b \x7d \x7d"
          unit ∧ allocations places = [2, 3, 4, 5, 8, 7, 6, 9, 10] ∧
          unit.FunctionsLinked places := by
  have builds :
      Builds "function f(int a, int b) of int \x7b \x7b int c \x7d function g of int \x7b \x7d \x7d"
        _ :=
    .of_compile (by decide +kernel) (by decide +kernel) (by decide +kernel)
  obtain ⟨places, linked⟩ := builds.functionsLinked
  have scanned :
      (compile "function f(int a, int b) of int \x7b \x7b int c \x7d function g of int \x7b \x7d \x7d"
        ).unit.instructions?.map allocations = some [2, 3, 4, 5, 8, 7, 6, 9, 10] := by
    decide +kernel
  rw [linked.linear] at scanned
  exact ⟨_, places, builds, Option.some.inj scanned, linked⟩

end StackScript
