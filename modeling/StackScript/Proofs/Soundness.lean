import StackScript.Proofs.Machine.Run
import StackScript.Proofs.Program

namespace StackScript

/-! Type soundness: a compiled program only has faults that depend on the values it computes or on
the room it needs. -/

/-- A text without null characters compiles to a program whose code can be addressed: jumps and the
records of functions hold code addresses as words of 32 bits, and joining units adds to these
words, so that longer code would be entered at wrong places. -/
structure Builds (source : String) (unit : CodeUnit) : Prop where
  clean : '\x00' ∉ source.toList
  success : compile source = .success unit
  addressable : unit.code.length < 2 ^ 32

theorem Compilation.eq_success {compilation : Compilation} (nonempty : compilation.unit.code ≠ []) :
    compilation = .success compilation.unit := by
  cases compilation with
  | success unit => rfl
  | failure d => exact absurd rfl nonempty

theorem Builds.of_compile {source : String} (clean : '\x00' ∉ source.toList)
    (nonempty : (compile source).unit.code ≠ [])
    (addressable : (compile source).unit.code.length < 2 ^ 32) :
    Builds source (compile source).unit where
  clean := clean
  success := Compilation.eq_success nonempty
  addressable := addressable

open Compilation

namespace TypedProgram

variable {r : Registry} {stmts : List Stmt}

theorem main_leads (program : TypedProgram r stmts)
    (length : (assemble r stmts).code.length < 2 ^ 32) :
    (assemble r stmts).LeadsTo (assemble r stmts).Stops 0 [] := by
  have back : TypedProgram r ([] ++ stmts) := program
  have stands := (stands r stmts).append_left.append_left
  refine program.prologue_leads (program.describes length) stands ?_
  have rest := back.back_leads length
  rw [boundary, Stmt.listingOf, Listing.width_nil, Nat.add_zero] at rest
  rwa [Nat.zero_add]

end TypedProgram

namespace Builds

variable {source : String} {unit : CodeUnit}

theorem linked (builds : Builds source unit) : unit.Linked := by
  obtain ⟨r, stmts, compiled⟩ := exists_compiled builds.success
  have program := compiled.typedProgram builds.clean
  obtain rfl := compiled.linked
  exact program.linked builds.addressable

theorem configured (builds : Builds source unit) :
    Configured unit unit.Stops .start (Machine.initial unit.table) := by
  obtain ⟨r, stmts, compiled⟩ := exists_compiled builds.success
  have program := compiled.typedProgram builds.clean
  obtain rfl := compiled.linked
  exact configured_start (program.main_leads builds.addressable)

/-- However long a program runs, the types leave few faults possible, unless it has a variable with
index lists so long that their count does not fit an instruction. A run ends with its first fault
or stop, so this is about the only fault of a run. -/
theorem fault_isResidual (builds : Builds source unit) (narrow : ∀ entry ∈ unit.table, entry.Narrow)
    {steps : Nat} {fault : Fault}
    (failed : (Machine.runFor unit steps (Machine.initial unit.table)).1 = .failed fault) :
    fault.isResidual = true := by
  rcases builds.configured.run_fault builds.linked (Machine.runFor_later failed) with residual | wide
  · exact residual
  · exact absurd narrow wide

theorem subtracted_arrays_fault :
    (Machine.runFor (compile "array [int] of int x x -= x").unit 12
        (Machine.initial (compile "array [int] of int x x -= x").unit.table)).1 =
        .failed (.notSupported .moveSubtr .array) ∧
      (Fault.notSupported .moveSubtr .array).isResidual = true := by
  have failed : (Machine.runFor (compile "array [int] of int x x -= x").unit 12
      (Machine.initial (compile "array [int] of int x x -= x").unit.table)).1 =
      .failed (.notSupported .moveSubtr .array) := by decide +kernel
  have builds : Builds "array [int] of int x x -= x"
      (compile "array [int] of int x x -= x").unit :=
    .of_compile (by decide +kernel) (by decide +kernel) (by decide +kernel)
  exact ⟨failed, builds.fault_isResidual (by decide +kernel) failed⟩

end Builds

end StackScript
