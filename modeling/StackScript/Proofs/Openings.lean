import Mathlib.Algebra.GroupWithZero.Nat
import Mathlib.Data.List.Nodup
import Mathlib.Data.List.Pairwise
import StackScript.Proofs.Machine.Changes
import StackScript.Proofs.Tree.Confinement

namespace StackScript

/-! How functions start: the code of each allocates its cells one after the other, and what comes
behind allocates nothing. -/

namespace Listing

/-- The records that instructions allocate cells for. -/
def cells (listing : Listing) : List UInt32 :=
  listing.filterMap Instruction.allocates?

/-- How many operands instructions take. -/
def takes (listing : Listing) : Nat :=
  (listing.map Instruction.pops).sum

@[simp] theorem cells_append (front back : Listing) :
    cells (front ++ back) = front.cells ++ back.cells := by
  simp [cells]

@[simp] theorem takes_append (front back : Listing) :
    takes (front ++ back) = front.takes + back.takes := by
  simp [takes]

theorem cells_allocVars (symbols : List Nat) :
    cells (symbols.map fun symbol => .allocVars (UInt32.ofNat symbol)) =
      symbols.map UInt32.ofNat := by
  induction symbols with
  | nil => rfl
  | cons symbol symbols induction => exact congrArg (UInt32.ofNat symbol :: ·) induction

theorem cells_allocVar (symbols : List Nat) :
    cells (symbols.map fun symbol => .allocVar (UInt32.ofNat symbol)) =
      symbols.map UInt32.ofNat := by
  induction symbols with
  | nil => rfl
  | cons symbol symbols induction => exact congrArg (UInt32.ofNat symbol :: ·) induction

theorem takes_allocVars (symbols : List Nat) :
    takes (symbols.map fun symbol => .allocVars (UInt32.ofNat symbol)) = symbols.length := by
  induction symbols with
  | nil => rfl
  | cons symbol symbols induction =>
      rw [List.length_cons, ← induction, Nat.add_comm]
      rfl

theorem takes_allocVar (symbols : List Nat) :
    takes (symbols.map fun symbol => .allocVar (UInt32.ofNat symbol)) = 0 := by
  induction symbols with
  | nil => rfl
  | cons symbol symbols induction =>
      rw [← induction, ← Nat.zero_add (takes (symbols.map _))]
      rfl

end Listing

namespace CodeUnit

variable {unit : CodeUnit} {ip : Nat}

/-- The instructions from a place on that allocate cells, up to the first one that does not. -/
inductive Opening (unit : CodeUnit) : Nat → Listing → Prop
  | ends {ip width : Nat} {i : Instruction} (decoded : unit.instructionAt? ip = some (i, width))
      (other : i.allocates? = none) : Opening unit ip []
  | allocates {ip width : Nat} {i : Instruction} {index : UInt32} {rest : Listing}
      (decoded : unit.instructionAt? ip = some (i, width)) (named : i.allocates? = some index)
      (more : Opening unit (ip + width) rest) : Opening unit ip (i :: rest)

theorem Opening.unique {opening opening' : Listing} (opens : unit.Opening ip opening)
    (opens' : unit.Opening ip opening') : opening = opening' := by
  induction opens generalizing opening' with
  | ends decoded other =>
      cases opens' with
      | ends _ _ => rfl
      | allocates decoded' named _ =>
          rw [decoded] at decoded'
          cases decoded'
          rw [other] at named
          cases named
  | allocates decoded named more induction =>
      cases opens' with
      | ends decoded' other =>
          rw [decoded] at decoded'
          cases decoded'
          rw [named] at other
          cases other
      | allocates decoded' named' more' =>
          rw [decoded] at decoded'
          cases decoded'
          rw [induction more']

/-- From here on a body allocates nothing. -/
inductive Settled (unit : CodeUnit) : Nat → Prop
  | goes {ip width : Nat} {i : Instruction} (decoded : unit.instructionAt? ip = some (i, width))
      (other : i.allocates? = none) (on : ∀ next ∈ i.nexts ip width, Settled unit next) :
      Settled unit ip

/-- The instructions of an opening, and settled code behind them. -/
inductive Opens (unit : CodeUnit) : Nat → Listing → Prop
  | settled {ip : Nat} (settled : unit.Settled ip) : Opens unit ip []
  | allocates {ip width : Nat} {i : Instruction} {index : UInt32} {rest : Listing}
      (decoded : unit.instructionAt? ip = some (i, width)) (named : i.allocates? = some index)
      (more : Opens unit (ip + width) rest) : Opens unit ip (i :: rest)

theorem Opens.opening {opening : Listing} (opens : unit.Opens ip opening) :
    unit.Opening ip opening := by
  induction opens with
  | settled settled =>
      obtain ⟨decoded, other, -⟩ := settled
      exact .ends decoded other
  | allocates decoded named more induction => exact .allocates decoded named induction

/-- What a function allocates: the opening of its code. -/
def Prologue (unit : CodeUnit) (function : UInt32) (opening : Listing) : Prop :=
  ∃ (entry : Entry) (params : List Ty) (code : UInt32),
    unit.table[function.toNat]? = some entry ∧ entry.storage = .function params code ∧
      unit.Opening code.toNat opening

theorem Prologue.unique {function : UInt32} {opening opening' : Listing}
    (prologue : unit.Prologue function opening) (prologue' : unit.Prologue function opening') :
    opening = opening' := by
  obtain ⟨entry, params, code, listed, storage, opens⟩ := prologue
  obtain ⟨entry', params', code', listed', storage', opens'⟩ := prologue'
  obtain rfl := Option.some.inj (listed.symm.trans listed')
  rw [storage] at storage'
  cases storage'
  exact opens.unique opens'

/-- The allocation of cells in a whole program: a function starts with its own cell, takes all its
arguments, and no record has two slots. -/
structure Planned (unit : CodeUnit) : Prop where
  opens : ∀ {function code : UInt32} {entry : Entry} {params : List Ty},
    unit.table[function.toNat]? = some entry → entry.storage = .function params code →
      ∃ opening : Listing, unit.Opens code.toNat opening ∧ opening.cells.head? = some function ∧
        opening.takes = params.length
  slot_eq : ∀ {f g index : UInt32} {opening opening' : Listing} {slot slot' : Nat},
    unit.Prologue f opening → unit.Prologue g opening' → opening.cells[slot]? = some index →
      opening'.cells[slot']? = some index → slot = slot'

/-! Code that allocates nothing. -/

theorem Confined.settled {fine : Nat → Instruction → Prop} (confined : unit.Confined fine ip)
    (other : ∀ place i, fine place i → i.allocates? = none) : unit.Settled ip := by
  induction confined with
  | goes decoded here on induction => exact .goes decoded (other _ _ here) induction

theorem Settled.stands {i : Instruction} {rest : Listing} (stands : Stands unit.code ip (i :: rest))
    (clean : i.NulFree) (plain : i.target? = none) (other : i.allocates? = none)
    (more : unit.Settled (ip + i.width)) : unit.Settled ip := by
  have decoded := stands.decode clean
  rw [Instruction.shift_eq_self plain] at decoded
  apply Settled.goes decoded other
  intro next member
  rw [Instruction.mem_nexts plain member]
  exact more

theorem opens_of_stands {opening rest : Listing}
    (each : ∀ i ∈ opening, i.NulFree ∧ i.target? = none ∧ ∃ index, i.allocates? = some index)
    (stands : Stands unit.code ip (opening ++ rest))
    (settled : unit.Settled (ip + opening.width)) : unit.Opens ip opening := by
  induction opening generalizing ip with
  | nil => exact .settled settled
  | cons i opening induction =>
      obtain ⟨clean, plain, index, named⟩ := each i List.mem_cons_self
      rw [Listing.width_cons, ← Nat.add_assoc] at settled
      have decoded := Stands.decode stands clean
      rw [Instruction.shift_eq_self plain] at decoded
      have behind : Stands unit.code (ip + i.width) (opening ++ rest) := stands.tail
      exact .allocates decoded named
        (induction (fun j member => each j (List.mem_cons_of_mem i member)) behind settled)

end CodeUnit

variable {unit : CodeUnit} {r : Registry}

namespace Stmt

theorem Emits.allocates?_eq {resets : List Nat} {i : Instruction} (emits : Emits r resets i) :
    i.allocates? = none := by
  rcases emits with (operation | _ | _) | ⟨cell, -, rfl⟩
  · cases i <;> first | rfl | cases operation
  · rfl
  · rfl
  · rfl

/-- What a function starts with. -/
def opening (symbol : Nat) (params : List Nat) (body : List Stmt) : Listing :=
  [.allocVar (UInt32.ofNat symbol)] ++
    params.reverse.map (fun param => .allocVars (UInt32.ofNat param)) ++
    (localsOf body).map fun cell => .allocVar (UInt32.ofNat cell)

theorem opening_cells (symbol : Nat) (params : List Nat) (body : List Stmt) :
    (opening symbol params body).cells = (outline symbol params body).map UInt32.ofNat := by
  rw [opening, Listing.cells_append, Listing.cells_append, Listing.cells_allocVars,
    Listing.cells_allocVar, List.append_assoc, ← List.map_append]
  rfl

theorem opening_takes (symbol : Nat) (params : List Nat) (body : List Stmt) :
    (opening symbol params body).takes = params.length := by
  rw [opening, Listing.takes_append, Listing.takes_append, Listing.takes_allocVars,
    Listing.takes_allocVar, List.length_reverse]
  exact Nat.zero_add params.length

theorem opening_opens (length : unit.code.length < 2 ^ 32) {scope : Scope} {symbol : Nat}
    {params : List Nat} {body : List Stmt} {ip : Nat} (all : TypedAll r scope body)
    (stands : Stands unit.code ip (routine symbol params body).listing) :
    unit.Opens ip (opening symbol params body) := by
  have split : (routine symbol params body).listing =
      opening symbol params body ++ (listingOf body ++ [.ret (UInt32.ofNat symbol)]) := by
    simp only [routine, opening, List.append_assoc]
  rw [split] at stands
  refine CodeUnit.opens_of_stands ?_ stands ?_
  · intro i member
    simp only [opening, List.mem_append, List.mem_singleton, List.mem_map] at member
    rcases member with (rfl | ⟨param, -, rfl⟩) | ⟨cell, -, rfl⟩ <;> exact ⟨trivial, rfl, _, rfl⟩
  · have behind := stands.append_right
    have confined : unit.Confined (fun _ i => i.allocates? = none)
        (ip + (opening symbol params body).width) := by
      apply confinesOf length body all _ _ behind.append_left
      · rintro place i - - (member | jumps)
        · exact (emitsOf body all i member).allocates?_eq
        · exact Instruction.allocates?_of_jump jumps
      · exact .goes (behind.append_right.decode trivial) rfl
          fun _ member => absurd member List.not_mem_nil
    exact confined.settled fun _ _ other => other

end Stmt

open Compilation

namespace TypedProgram

variable {stmts : List Stmt}

/-- The cells of all functions of a program. -/
def outlines (stmts : List Stmt) : List (List Nat) :=
  builtinFunctions.map (fun (function, param, _) => [function, param]) ++ Stmt.outlinesOf stmts

theorem outlines_flatten (stmts : List Stmt) :
    (outlines stmts).flatten = [2, 3, 4, 5] ++ (Stmt.outlinesOf stmts).flatten := rfl

theorem mem_outlines (program : TypedProgram r stmts) {symbol : Nat}
    (member : symbol ∈ (Stmt.outlinesOf stmts).flatten) : 6 ≤ symbol ∧ symbol < r.size :=
  program.between.mem_iff.mp
    ((Stmt.outlinesOf_perm stmts).mem_iff.mp (List.mem_append_right _ member))

/-- No two functions share a cell, and none has a cell twice. -/
theorem outlines_nodup (program : TypedProgram r stmts) : (outlines stmts).flatten.Nodup := by
  rw [outlines_flatten, List.nodup_append]
  refine ⟨by decide, ?_, ?_⟩
  · have declared := program.between.perm.nodup_iff.mpr List.nodup_range'
    exact (List.nodup_append.mp ((Stmt.outlinesOf_perm stmts).nodup_iff.mpr declared)).2.1
  · rintro builtin old symbol new rfl
    have bound := (program.mem_outlines new).1
    simp only [List.mem_cons, List.not_mem_nil, or_false] at old
    omega

theorem eq_of_mem_outlines (program : TypedProgram r stmts) {outline outline' : List Nat}
    {cell : Nat} (first : outline ∈ outlines stmts) (second : outline' ∈ outlines stmts)
    (here : cell ∈ outline) (there : cell ∈ outline') : outline = outline' := by
  by_contra other
  have symmetric : Std.Symm (@List.Disjoint Nat) :=
    ⟨fun _ _ disjoint _ here there => disjoint there here⟩
  have disjoint := (List.nodup_flatten.mp program.outlines_nodup).2
  exact disjoint.forall first second other here there

theorem outlines_lt (program : TypedProgram r stmts) {symbol : Nat}
    (member : symbol ∈ (outlines stmts).flatten) : symbol < r.size := by
  rw [outlines_flatten, List.mem_append] at member
  rcases member with old | new
  · have grown : 6 ≤ r.size := program.grown.size_le
    simp only [List.mem_cons, List.not_mem_nil, or_false] at old
    omega
  · exact (program.mem_outlines new).2

theorem builtin_opens {function param : Nat} {builtin : Builtin} {ip : Nat}
    (stands : Stands unit.code ip (builtinRoutine function param builtin).listing) :
    unit.Opens ip (Stmt.opening function [param] []) := by
  have clean : '\x00' ∉ builtin.name.toList := by cases builtin <;> decide
  refine CodeUnit.opens_of_stands ?_ stands ?_
  · intro i member
    simp only [Stmt.opening, List.mem_append, List.mem_singleton, List.mem_map] at member
    rcases member with (rfl | ⟨param, -, rfl⟩) | ⟨cell, -, rfl⟩ <;> exact ⟨trivial, rfl, _, rfl⟩
  · have parts : Stands unit.code ip (Stmt.opening function [param] [] ++ _) := stands
    have behind := parts.append_right
    refine .stands behind trivial rfl rfl ?_
    refine .stands behind.tail clean rfl rfl ?_
    refine .stands behind.tail.tail trivial rfl rfl ?_
    exact .goes (behind.tail.tail.tail.decode trivial) rfl
      fun _ member => absurd member List.not_mem_nil

/-- The functions of a program, the builtin ones before those that it defines. -/
def definitions (stmts : List Stmt) : List Stmt.Definition :=
  builtinFunctions.map (fun (function, param, _) => ⟨function, [param], []⟩) ++
    Stmt.definitionsOf stmts

theorem outlines_eq (stmts : List Stmt) :
    outlines stmts = (definitions stmts).map Stmt.Definition.outline := by
  rw [outlines, definitions, List.map_append, Stmt.outlinesOf_eq]
  rfl

/-- The code of a function in the variable table starts as it is defined. -/
theorem exists_definition (program : TypedProgram r stmts)
    (length : (assemble r stmts).code.length < 2 ^ 32) {function code : UInt32} {entry : Entry}
    {params : List Ty} (listed : (assemble r stmts).table[function.toNat]? = some entry)
    (storage : entry.storage = .function params code) :
    ∃ d ∈ definitions stmts, d.symbol = function.toNat ∧ d.params.length = params.length ∧
      (assemble r stmts).Opens code.toNat (Stmt.opening d.symbol d.params d.body) := by
  obtain ⟨r', member, s, name, found, rfl, stands⟩ := program.routine_stands length listed storage
  have known {index : Nat} {t : Symbol} (there : initialRegistry.get? index = some t) :
      r.get? index = some t := program.grown.get? there
  rcases List.mem_append.mp member with builtin | defined
  · obtain ⟨⟨f, param, builtin⟩, there, rfl⟩ := List.mem_map.mp builtin
    refine ⟨⟨f, [param], []⟩, List.mem_append_left _ (List.mem_map_of_mem there), name, ?_,
      builtin_opens stands⟩
    rw [← name] at found
    simp only [builtinFunctions, List.mem_cons, List.not_mem_nil, or_false] at there
    rcases there with same | same
    · cases same
      exact Option.some.inj ((known rfl).symm.trans found) ▸ rfl
    · cases same
      exact Option.some.inj ((known rfl).symm.trans found) ▸ rfl
  · rw [Stmt.routinesOf_eq] at defined
    obtain ⟨d, inside, rfl⟩ := List.mem_map.mp defined
    obtain ⟨t, typed⟩ := Stmt.typedRoutine_of_memOf stmts program.typed d inside
    obtain ⟨scope, all⟩ := typed.body
    change d.symbol = function.toNat at name
    rw [← name] at found
    obtain rfl := Option.some.inj (typed.found.symm.trans found)
    exact ⟨d, List.mem_append_right _ inside, name, typed.params.length_eq,
      Stmt.opening_opens length all stands⟩

/-- A function in the variable table allocates the cells of one of the outlines. -/
theorem opens (program : TypedProgram r stmts) (length : (assemble r stmts).code.length < 2 ^ 32)
    {function code : UInt32} {entry : Entry} {params : List Ty}
    (listed : (assemble r stmts).table[function.toNat]? = some entry)
    (storage : entry.storage = .function params code) :
    ∃ opening : Listing, ∃ outline ∈ outlines stmts, (assemble r stmts).Opens code.toNat opening ∧
      opening.cells = outline.map UInt32.ofNat ∧ outline.head? = some function.toNat ∧
        opening.takes = params.length := by
  obtain ⟨d, defined, name, arguments, opens⟩ := program.exists_definition length listed storage
  refine ⟨Stmt.opening d.symbol d.params d.body, d.outline, ?_, opens,
    Stmt.opening_cells d.symbol d.params d.body, congrArg some name, ?_⟩
  · rw [outlines_eq]
    exact List.mem_map_of_mem defined
  · rw [Stmt.opening_takes, arguments]

theorem planned (program : TypedProgram r stmts)
    (length : (assemble r stmts).code.length < 2 ^ 32) : (assemble r stmts).Planned where
  opens := by
    intro function code entry params listed storage
    obtain ⟨opening, outline, -, opens, cells, head, takes⟩ :=
      program.opens length listed storage
    refine ⟨opening, opens, ?_, takes⟩
    rw [cells, List.head?_map, head, Option.map_some, UInt32.ofNat_toNat]
  slot_eq := by
    intro f g index opening opening' slot slot' prologue prologue' here there
    have place {h : UInt32} {opening : Listing} {slot : Nat}
        (prologue : (assemble r stmts).Prologue h opening)
        (here : opening.cells[slot]? = some index) :
        ∃ outline ∈ outlines stmts, outline[slot]? = some index.toNat := by
      obtain ⟨entry, params, code, listed, storage, opens⟩ := prologue
      obtain ⟨_, outline, member, opens', cells, -⟩ := program.opens length listed storage
      rw [opens.unique opens'.opening, cells, List.getElem?_map, Option.map_eq_some_iff] at here
      obtain ⟨symbol, found, rfl⟩ := here
      refine ⟨outline, member, found.trans (congrArg some ?_)⟩
      have inside := program.outlines_lt
        (List.mem_flatten.mpr ⟨outline, member, List.mem_of_getElem? found⟩)
      exact (UInt32.toNat_ofNat_of_lt'
        (Nat.lt_of_lt_of_le inside (program.describes length).size)).symm
    obtain ⟨outline, member, found⟩ := place prologue here
    obtain ⟨outline', member', found'⟩ := place prologue' there
    obtain rfl := program.eq_of_mem_outlines member member' (List.mem_of_getElem? found)
      (List.mem_of_getElem? found')
    have distinct := (List.nodup_flatten.mp program.outlines_nodup).1 outline member
    have inside := (List.getElem?_eq_some_iff.mp found).1
    exact (List.getElem?_inj inside distinct).mp (found.trans found'.symm)

end TypedProgram

theorem Builds.planned {source : String} (builds : Builds source unit) : unit.Planned := by
  obtain ⟨r, stmts, compiled⟩ := exists_compiled builds.success
  have program := compiled.typedProgram builds.clean
  obtain rfl := compiled.linked
  exact program.planned builds.addressable

end StackScript
