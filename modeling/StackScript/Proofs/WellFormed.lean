import StackScript.Proofs.Residence
import StackScript.Proofs.Seating.Statement
import StackScript.Proofs.Soundness
import StackScript.Proofs.Tree.Definitions
import StackScript.Proofs.Tree.Places

namespace StackScript

/-! What compilation emits is well-formed: it decodes from one end to the other, its jumps are
listed and stay in their function, and what it names is stored as it has to be. -/

open Compilation

variable {source : String} {unit : CodeUnit} {r : Registry} {stmts : List Stmt}

/-- A unit whose instructions stand at these places. Jumps and operands are words, so they lead
where they should in a unit whose code and table are in reach of words. -/
structure CodeUnit.WellFormed (unit : CodeUnit) (places : List (Nat × Instruction)) : Prop where
  /-- A scan from the start comes to the end without an undecodable byte. -/
  linear : unit.instructions? = some places
  /-- The operands of the jumps are listed, and nothing else. -/
  jumps : unit.jumps = operandOffsets places
  once : unit.jumps.Nodup
  /-- A jump goes on, to an instruction of its own function. -/
  targets : unit.code.length < 2 ^ 32 →
    ∀ {place : Nat} {i : Instruction} {target : UInt32}, (place, i) ∈ places →
      i.target? = some target →
        place < target.toNat ∧ target.toNat ∈ places.map Prod.fst ∧
          unit.functionAt? target.toNat = unit.functionAt? place
  /-- What an instruction names is a record of the variable table of the right sort. -/
  operands : unit.table.length < 2 ^ 32 →
    ∀ {place : Nat} {i : Instruction} {index : UInt32} {storages : List Opcode},
      (place, i) ∈ places → i.operand? = some (index, storages) →
        ∃ entry, unit.table[index.toNat]? = some entry ∧ entry.storage.opcode ∈ storages

/-- What a successful compilation declares is seated below the root. -/
theorem Compiled.seated (compiled : Compiled source r stmts unit) :
    Stmt.SeatedAll r .static .root stmts := by
  obtain ⟨state, rfl, run⟩ := compiled.read
  have done := Grammar.program_seats
    { cursor := .ofSource source, registry := initialRegistry } rfl
  rw [run] at done
  exact done.seated

theorem Instruction.operand?_shift (base : Nat) (i : Instruction) :
    (i.shift base).operand? = i.operand? := by
  cases i <;> rfl

namespace Compilation

/-! What the code of a program names. -/

section Suits

variable (grown : initialRegistry.Extends r)

include grown

theorem main_suits (seated : Stmt.SeatedAll r .static .root stmts) :
    ∀ i ∈ mainListing r stmts, i.Suits r := by
  refine List.forall_mem_append.mpr ⟨List.forall_mem_append.mpr ⟨?_, ?_⟩,
    forall_mem_concat (Stmt.suitsOf stmts seated) (.plain rfl)⟩
  · intro i member
    obtain ⟨cell, global, rfl⟩ := List.mem_map.mp member
    obtain ⟨s, found, isVariable, -⟩ := Grammar.mem_declaredIn_iff.mp global
    exact .names rfl found (Symbol.Kind.isVariable_storage isVariable)
  · have truth {index : Nat} {s : Symbol} (known : initialRegistry.get? index = some s)
        (kind : s.kind = .builtinVar) :
        Instruction.Suits r (.putAddr (UInt32.ofNat index)) := by
      refine .names rfl (grown.get? known) ?_
      rw [kind]
      exact List.mem_cons_self
    simp only [List.forall_mem_cons]
    exact ⟨truth rfl rfl, .plain rfl, .plain rfl, truth rfl rfl, .plain rfl, .plain rfl,
      List.forall_mem_nil _⟩

theorem builtin_suits {function param : Nat} {builtin : Builtin} {s t : Symbol}
    (known : initialRegistry.get? function = some s) (kind : s.kind = .builtinFn)
    (known' : initialRegistry.get? param = some t) (kind' : t.kind = .dynamicVar) :
    ∀ i ∈ (builtinRoutine function param builtin).listing, i.Suits r := by
  have names {i : Instruction} {storages : List Opcode}
      (named : i.operand? = some (UInt32.ofNat function, storages))
      (stored : Opcode.function ∈ storages) : i.Suits r :=
    .names named (grown.get? known) (by rwa [kind])
  have names' {i : Instruction} {storages : List Opcode}
      (named : i.operand? = some (UInt32.ofNat param, storages))
      (stored : Opcode.ddata ∈ storages) : i.Suits r :=
    .names named (grown.get? known') (by rwa [kind'])
  simp only [builtinRoutine, List.forall_mem_cons]
  exact ⟨names rfl (by decide), names' rfl (by decide), names rfl (by decide),
    names' rfl (by decide), .plain rfl, names rfl (by decide), List.forall_mem_nil _⟩

theorem listing_suits (seated : Stmt.SeatedAll r .static .root stmts) :
    ∀ i ∈ listing r stmts, i.Suits r := by
  refine List.forall_mem_append.mpr ⟨main_suits grown seated, fun i member => ?_⟩
  obtain ⟨r', inside, line⟩ := List.mem_flatMap.mp member
  rcases List.mem_append.mp inside with given | defined
  · simp only [builtinRoutines, builtinFunctions, List.map_cons, List.map_nil, List.mem_cons,
      List.not_mem_nil, or_false] at given
    rcases given with rfl | rfl
    · exact builtin_suits grown rfl rfl rfl rfl i line
    · exact builtin_suits grown rfl rfl rfl rfl i line
  · exact Stmt.SeatedAll.routines_suit stmts seated r' defined i line

end Suits

end Compilation

namespace TypedProgram

variable (program : TypedProgram r stmts)

include program

theorem builtin_known {index : Nat} {s : Symbol} (known : initialRegistry.get? index = some s) :
    r.get? index = some s :=
  program.grown.get? known

theorem nulFree : ∀ i ∈ listing r stmts, i.NulFree := by
  refine List.forall_mem_append.mpr ⟨List.forall_mem_append.mpr ⟨?_, ?_⟩, fun i member => ?_⟩
  · refine List.forall_mem_append.mpr ⟨fun i member => ?_, ?_⟩
    · obtain ⟨cell, -, rfl⟩ := List.mem_map.mp member
      trivial
    · simp only [List.forall_mem_cons]
      exact ⟨trivial, trivial, trivial, trivial, trivial, trivial, List.forall_mem_nil _⟩
  · exact forall_mem_concat (Stmt.nulFreeOf stmts program.typed) trivial
  · obtain ⟨r', inside, line⟩ := List.mem_flatMap.mp member
    rcases List.mem_append.mp inside with given | defined
    · obtain ⟨⟨function, param, builtin⟩, -, rfl⟩ := List.mem_map.mp given
      have named : '\x00' ∉ builtin.name.toList := by cases builtin <;> decide
      simp only [builtinRoutine, List.mem_cons, List.not_mem_nil, or_false] at line
      rcases line with rfl | rfl | rfl | rfl | rfl | rfl
      · trivial
      · trivial
      · trivial
      · exact named
      · trivial
      · trivial
    · obtain ⟨symbol, params, body, s, rfl, typed, -⟩ :=
        Stmt.mem_routinesOf stmts program.typed r' defined
      obtain ⟨scope, all⟩ := typed.body
      exact Stmt.routine_nulFree symbol params all i line

omit program in
theorem main_closed (fits : (mainListing r stmts).width < 2 ^ 32) :
    (mainListing r stmts).Closed 0 := by
  have split : mainListing r stmts =
      (prologueListing (r.declaredIn .root) ++ Stmt.listingOf stmts) ++ [.stop] :=
    (List.append_assoc _ _ _).symm
  rw [split] at fits ⊢
  simp only [Listing.width_append] at fits
  refine Listing.Inward.closed (.append (.plain fun i member => ?_) ?_) rfl
  · simp only [prologueListing, List.mem_append, List.mem_map, List.mem_cons, List.not_mem_nil,
      or_false] at member
    rcases member with ⟨cell, -, rfl⟩ | rfl | rfl | rfl | rfl | rfl | rfl <;> rfl
  · exact Stmt.inwardOf stmts _ (by omega)

theorem routine_closed {r' : Routine} (member : r' ∈ routines stmts) {offset : Nat}
    (fits : offset + r'.listing.width < 2 ^ 32) : r'.listing.Closed offset := by
  rcases List.mem_append.mp member with given | defined
  · obtain ⟨⟨function, param, builtin⟩, -, rfl⟩ := List.mem_map.mp given
    refine .plain fun i line => ?_
    simp only [builtinRoutine, List.mem_cons, List.not_mem_nil, or_false] at line
    rcases line with rfl | rfl | rfl | rfl | rfl | rfl <;> rfl
  · obtain ⟨symbol, params, body, s, rfl, -⟩ :=
      Stmt.mem_routinesOf stmts program.typed r' defined
    exact Stmt.routine_closed symbol params body fits

/-- A jump stays in the function whose code it stands in, or outside of functions. -/
theorem targets (length : (listing r stmts).width < 2 ^ 32) {place : Nat} {i : Instruction}
    {target : UInt32} (member : (place, i) ∈ (listing r stmts).places 0)
    (jumps : i.target? = some target) :
    place < target.toNat ∧ target.toNat ∈ ((listing r stmts).places 0).map Prod.fst ∧
      (assemble r stmts).functionAt? target.toNat = (assemble r stmts).functionAt? place := by
  have whole : listing r stmts = mainListing r stmts ++ Routine.code (routines stmts) := rfl
  rw [whole, Listing.width_append] at length
  rw [whole, Listing.places_append, List.mem_append] at member
  rw [whole, Listing.places_append, List.map_append, List.mem_append]
  rcases member with main | function
  · obtain ⟨later, inside⟩ := main_closed (by omega) place i target main jumps
    obtain ⟨⟨place', j⟩, there, rfl⟩ := List.mem_map.mp inside
    obtain ⟨-, -, -, -, here⟩ := Listing.exists_of_mem_places main
    obtain ⟨-, -, -, -, before⟩ := Listing.exists_of_mem_places there
    rw [Nat.zero_add] at here before
    refine ⟨later, .inl inside, ?_⟩
    rw [functionAt?_eq_none here, functionAt?_eq_none before]
  · obtain ⟨front, r', back, split, here⟩ := Routine.exists_of_mem_places function
    rw [Nat.zero_add] at here
    have code : Routine.code (routines stmts) =
        Routine.code front ++ (r'.listing ++ Routine.code back) := by
      rw [split, Routine.code_append, Routine.code_cons]
    rw [code, Listing.width_append, Listing.width_append] at length
    have known : r' ∈ routines stmts := split ▸ List.mem_append_right front List.mem_cons_self
    obtain ⟨later, inside⟩ := program.routine_closed known (by omega) place i target here jumps
    obtain ⟨⟨place', j⟩, there, same⟩ := List.mem_map.mp inside
    obtain ⟨-, -, -, from', to'⟩ := Listing.exists_of_mem_places here
    obtain ⟨-, -, -, from'', to''⟩ := Listing.exists_of_mem_places there
    change place' = target.toNat at same
    rw [same] at from'' to''
    refine ⟨later, .inr ?_, ?_⟩
    · rw [code, Nat.zero_add, Listing.places_append, Listing.places_append, List.map_append,
        List.map_append, List.mem_append, List.mem_append]
      exact .inr (.inl inside)
    · rw [functionAt?_eq split rfl from'' to'', functionAt?_eq split rfl from' to']

theorem wellFormed (seated : Stmt.SeatedAll r .static .root stmts) :
    (assemble r stmts).WellFormed ((listing r stmts).places 0) := by
  have holds : (assemble r stmts).Holds (listing r stmts) := by
    obtain ⟨code, jumps⟩ := link_holds r stmts
    exact ⟨code, jumps⟩
  have jumps : (assemble r stmts).jumps = operandOffsets ((listing r stmts).places 0) :=
    holds.jumps.trans (Listing.operandOffsets_places 0 _).symm
  refine ⟨Listing.instructions?_eq holds program.nulFree, jumps, ?_, fun length => ?_, ?_⟩
  · rw [jumps]
    exact Listing.nodup_operandOffsets 0 _
  · apply program.targets
    rw [← holds.size]
    exact length
  · intro size place i index storages member named
    obtain ⟨j, line, rfl, -⟩ := Listing.exists_of_mem_places member
    rw [Instruction.operand?_shift] at named
    obtain ⟨symbol, s, rfl, found, stored⟩ := listing_suits program.grown seated j line index storages named
    obtain ⟨code, listed, -⟩ := table_getElem? stmts found
    have inside : symbol < 2 ^ 32 :=
      Nat.lt_trans (List.getElem?_eq_some_iff.mp listed).1 size
    rw [UInt32.toNat_ofNat_of_lt' inside]
    refine ⟨_, listed, ?_⟩
    cases kind : s.kind <;> simpa [entryOf, kind, Entry.Storage.opcode, Symbol.Kind.storage]
      using stored

end TypedProgram

/-- Whatever compiles from a text without null characters is well-formed. -/
theorem wellFormed_of_compile (clean : '\x00' ∉ source.toList)
    (success : compile source = .success unit) : ∃ places, unit.WellFormed places := by
  obtain ⟨r, stmts, compiled⟩ := exists_compiled success
  have program := compiled.typedProgram clean
  have seated := compiled.seated
  obtain rfl := compiled.linked
  exact ⟨_, program.wellFormed seated⟩

/-- A program with a choice in a function. -/
theorem chosen_call_wellFormed :
    ∃ unit, '\x00' ∉ "function f(int n) of int \x7b f = n < 1 ? 0 : 7 \x7d int r r = f(1)".toList ∧
      compile "function f(int n) of int \x7b f = n < 1 ? 0 : 7 \x7d int r r = f(1)" =
        .success unit ∧
      unit.code.length < 2 ^ 32 ∧ unit.table.length < 2 ^ 32 ∧ unit.jumps = [133, 147] ∧
        ∃ places, unit.WellFormed places := by
  have clean :
      '\x00' ∉ "function f(int n) of int \x7b f = n < 1 ? 0 : 7 \x7d int r r = f(1)".toList := by
    decide +kernel
  have success :
      compile "function f(int n) of int \x7b f = n < 1 ? 0 : 7 \x7d int r r = f(1)" =
        .success _ :=
    Compilation.eq_success (by decide +kernel)
  exact ⟨_, clean, success, by decide +kernel, by decide +kernel, by decide +kernel,
    wellFormed_of_compile clean success⟩

end StackScript
