import StackScript.Proofs.Arrangement

namespace StackScript

/-! A run stays in the code of its functions: what holds of all instructions that their bodies can
come by holds of those that the run executes. -/

variable {unit : CodeUnit} {fine : Option UInt32 → Nat → Instruction → Prop}
variable {a b : Activity} {m m' : Machine} {i : Instruction} {ip width : Nat}
variable {waiting : List Pending}

namespace CodeUnit

/-- The code of each function, and the code outside of functions, comes by fine instructions
only. -/
structure Houses (unit : CodeUnit) (fine : Option UInt32 → Nat → Instruction → Prop) : Prop where
  main : unit.Confined (fine none) 0
  function : ∀ {index code : UInt32} {entry : Entry} {params : List Ty},
    unit.table[index.toNat]? = some entry → entry.storage = .function params code →
      unit.Confined (fine (some index)) code.toNat

/-- The active body and those that wait for it are in code that is fine for their functions. -/
def Resides (unit : CodeUnit) (fine : Option UInt32 → Nat → Instruction → Prop) :
    Nat → List Pending → Prop
  | ip, [] => unit.Confined (fine none) ip
  | ip, caller :: waiting =>
      unit.Confined (fine (some caller.callee)) ip ∧ Resides unit fine caller.resume waiting

namespace Resides

theorem confined (resides : unit.Resides fine ip waiting) :
    unit.Confined (fine (waiting.head?.map Pending.callee)) ip := by
  cases waiting with
  | nil => exact resides
  | cons caller waiting => exact resides.1

theorem fine_at (resides : unit.Resides fine ip waiting)
    (decoded : unit.instructionAt? ip = some (i, width)) :
    fine (waiting.head?.map Pending.callee) ip i := by
  obtain ⟨decoded', here, -⟩ := resides.confined
  rw [decoded] at decoded'
  cases decoded'
  exact here

theorem goes_on (resides : unit.Resides fine ip waiting)
    (decoded : unit.instructionAt? ip = some (i, width)) {next : Nat}
    (on : next ∈ i.nexts ip width) : unit.Resides fine next waiting := by
  have ahead {fine : Nat → Instruction → Prop} (confined : unit.Confined fine ip) :
      unit.Confined fine next := by
    obtain ⟨decoded', -, ahead⟩ := confined
    rw [decoded] at decoded'
    cases decoded'
    exact ahead next on
  cases waiting with
  | nil => exact ahead resides
  | cons caller waiting => exact ⟨ahead resides.1, resides.2⟩

theorem next (resides : unit.Resides fine a.ip a.waiting) (houses : unit.Houses fine)
    (configured : Configured unit unit.Stops a m) (configured' : Configured unit unit.Stops b m')
    (sound : m.Sound unit.table) (stepped : Machine.step unit m = .ok .running m')
    (moves : a.Moves unit b) : unit.Resides fine b.ip b.waiting := by
  rcases (Machine.step_does sound stepped).2 with ⟨-, stopped⟩ | ⟨i, width, decoded, does⟩
  · cases stopped
  have goes := Configured.running_ne_stop stepped decoded
  rw [configured.ip_eq] at decoded does
  cases moves with
  | forward decoded' stays later =>
      rw [decoded] at decoded'
      cases decoded'
      have next := does.ip_mem_nexts stays goes
      rw [configured'.ip_eq] at next
      exact resides.goes_on decoded next
  | enter decoded' found storage room split all =>
      exact ⟨houses.function found storage,
        resides.goes_on decoded' (List.mem_singleton_self _)⟩
  | leave decoded' active found typed empty called =>
      rw [called] at resides
      exact resides.2

end Resides

end CodeUnit

namespace Builds

variable {source : String} {steps : Nat}

/-- Whatever a machine of a compiled program comes by, it is fine for the function whose invocation
is active. -/
theorem resides (builds : Builds source unit) (houses : unit.Houses fine)
    (after : Machine.After unit steps m) :
    ∃ a, Configured unit unit.Stops a m ∧ Orderly unit a m ∧ unit.Resides fine a.ip a.waiting := by
  have next {a : Activity} {m m' : Machine} (configured : Configured unit unit.Stops a m)
      (kept : Orderly unit a m ∧ unit.Resides fine a.ip a.waiting)
      (stepped : Machine.step unit m = .ok .running m') :
      ∃ b, Configured unit unit.Stops b m' ∧ a.Moves unit b ∧
        (Orderly unit b m' ∧ unit.Resides fine b.ip b.waiting) := by
    obtain ⟨orderly, resides⟩ := kept
    obtain ⟨b, configured', moves, orderly'⟩ :=
      orderly.next builds.linked builds.planned configured stepped
    exact ⟨b, configured', moves, orderly',
      resides.next houses configured configured' orderly.sound stepped moves⟩
  obtain ⟨a, configured, ⟨orderly, resides⟩, -⟩ :=
    builds.configured.run_suffix ⟨orderly_start unit, houses.main⟩ next List.nil_suffix after
      (fun _ _ => Nat.zero_le _)
  exact ⟨a, configured, orderly, resides⟩

end Builds

/-! The code of the functions of a program. -/

/-- The function whose code has a place: the last one that starts no later. -/
def CodeUnit.functionAt? (unit : CodeUnit) (place : Nat) : Option Nat :=
  (unit.functions.reverse.find? fun f => f.offset ≤ place).map FunctionRef.symbol

open Compilation

variable {r : Registry} {stmts : List Stmt}

/-- What a function comes by, or the code outside of functions: its own instructions, and jumps. -/
def Compilation.CodeOf (r : Registry) (stmts : List Stmt) :
    Option UInt32 → Nat → Instruction → Prop
  | none, place, i =>
      (assemble r stmts).functionAt? place = none ∧
        (i ∈ mainListing r stmts ∨ i.target?.isSome = true)
  | some function, place, i =>
      (assemble r stmts).functionAt? place = some function.toNat ∧
        ∃ r' ∈ routines stmts, r'.symbol = function.toNat ∧
          (i ∈ r'.listing ∨ i.target?.isSome = true)

namespace TypedProgram

theorem functionAt?_eq_none {place : Nat} (before : place < (mainListing r stmts).width) :
    (assemble r stmts).functionAt? place = none := by
  rw [CodeUnit.functionAt?, Option.map_eq_none_iff, List.find?_eq_none]
  intro f member
  have functions : (assemble r stmts).functions = _ := link_functions r stmts
  rw [functions] at member
  have after := Routine.le_of_mem_refs (List.mem_reverse.mp member)
  simp only [decide_eq_true_eq]
  omega

theorem functionAt?_eq {front back : List Routine} {r' : Routine} {offset place : Nat}
    (split : routines stmts = front ++ r' :: back)
    (starts : offset = (mainListing r stmts).width + (Routine.code front).width)
    (later : offset ≤ place) (earlier : place < offset + r'.listing.width) :
    (assemble r stmts).functionAt? place = some r'.symbol := by
  have functions : (assemble r stmts).functions = _ := link_functions r stmts
  subst starts
  rw [CodeUnit.functionAt?, functions, split, Routine.find?_refs later earlier]
  rfl

theorem main_confined (program : TypedProgram r stmts)
    (length : (assemble r stmts).code.length < 2 ^ 32) :
    (assemble r stmts).Confined (CodeOf r stmts none) 0 := by
  have prologue : (assemble r stmts).Confines (prologueListing (r.declaredIn .root)) := by
    refine .plain fun i member => ?_
    simp only [prologueListing, List.mem_append, List.mem_map, List.mem_cons, List.not_mem_nil,
      or_false] at member
    rcases member with ⟨cell, -, rfl⟩ | rfl | rfl | rfl | rfl | rfl | rfl <;> exact ⟨trivial, rfl⟩
  have body := Stmt.confinesOf length stmts program.typed
  have stands := (stands r stmts).append_left
  rw [← List.append_assoc] at stands
  have clean : Instruction.stop.NulFree := trivial
  apply (prologue.append body).confined clean rfl (fun _ _ => rfl) stands
  intro place i _ earlier known
  rw [Nat.zero_add, List.append_assoc] at earlier
  rw [List.append_assoc] at known
  exact ⟨functionAt?_eq_none earlier, known⟩

theorem builtin_confined {unit : CodeUnit} {fine : Nat → Instruction → Prop}
    {function param : Nat} {builtin : Builtin} {ip : Nat}
    (stands : Stands unit.code ip (builtinRoutine function param builtin).listing)
    (fits : CodeUnit.Fits fine ip (builtinRoutine function param builtin).listing) :
    unit.Confined fine ip := by
  have named : '\x00' ∉ builtin.name.toList := by cases builtin <;> decide
  have front : unit.Confines
      [.allocVar (UInt32.ofNat function), .allocVars (UInt32.ofNat param),
        .putDAddr (UInt32.ofNat function), .syscall (UInt32.ofNat param) builtin.name,
        .assign .set] := by
    refine .plain fun i member => ?_
    simp only [List.mem_cons, List.not_mem_nil, or_false] at member
    rcases member with rfl | rfl | rfl | rfl | rfl
    · exact ⟨trivial, rfl⟩
    · exact ⟨trivial, rfl⟩
    · exact ⟨trivial, rfl⟩
    · exact ⟨named, rfl⟩
    · exact ⟨trivial, rfl⟩
  have clean : (Instruction.ret (UInt32.ofNat function)).NulFree := trivial
  exact front.confined clean rfl (fun _ _ => rfl) stands fits

theorem routine_confined (program : TypedProgram r stmts)
    (length : (assemble r stmts).code.length < 2 ^ 32) {fine : Nat → Instruction → Prop}
    {r' : Routine} {ip : Nat} (member : r' ∈ routines stmts)
    (stands : Stands (assemble r stmts).code ip r'.listing)
    (fits : CodeUnit.Fits fine ip r'.listing) : (assemble r stmts).Confined fine ip := by
  rcases List.mem_append.mp member with builtin | defined
  · obtain ⟨⟨function, param, builtin⟩, -, rfl⟩ := List.mem_map.mp builtin
    exact builtin_confined stands fits
  · obtain ⟨symbol, params, body, s, rfl, typed, -⟩ :=
      Stmt.mem_routinesOf stmts program.typed r' defined
    obtain ⟨scope, all⟩ := typed.body
    exact Stmt.routine_confined length all stands fits

theorem houses (program : TypedProgram r stmts)
    (length : (assemble r stmts).code.length < 2 ^ 32) :
    (assemble r stmts).Houses (CodeOf r stmts) where
  main := program.main_confined length
  function := by
    intro index code entry params listed storage
    obtain ⟨f, recorded, symbol, offset, -⟩ := program.exists_ref length listed storage
    obtain ⟨front, r', back, split, same, starts, stands⟩ := exists_split r stmts recorded
    have member : r' ∈ routines stmts := split ▸ List.mem_append_right front List.mem_cons_self
    have named : r'.symbol = index.toNat := same.symm.trans symbol
    rw [← offset]
    apply program.routine_confined length member stands
    intro place i later earlier known
    exact ⟨named ▸ functionAt?_eq split starts later earlier, r', member, named, known⟩

end TypedProgram

end StackScript
