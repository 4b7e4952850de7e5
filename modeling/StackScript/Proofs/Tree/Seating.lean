import StackScript.Proofs.Symbol.Scope
import StackScript.Proofs.Tree.Listing
import StackScript.Proofs.Tree.Typing

namespace StackScript

/-! Where the symbols of a program are declared, and how the symbols are stored that its code
names. -/

/-- The record of the variable table that an instruction names, and how it may be stored. -/
def Instruction.operand? : Instruction → Option (UInt32 × List Opcode)
  | .putAddr index => some (index, [.data])
  | .putDAddr index | .allocVar index => some (index, [.ddata, .function])
  | .allocVars index | .syscall index _ => some (index, [.ddata])
  | .call index | .ret index => some (index, [.function])
  | .initVar index => some (index, [.data, .ddata])
  | _ => none

/-- How symbols of a kind are stored. -/
def Symbol.Kind.storage : Symbol.Kind → Opcode
  | .builtinVar | .var => .data
  | .dynamicVar => .ddata
  | .builtinFn | .fn => .function

/-- What variables are declared as. -/
def Lifetime.kind : Lifetime → Symbol.Kind
  | .static => .var
  | .dynamic => .dynamicVar

theorem Symbol.Kind.isVariable_storage {kind : Symbol.Kind} (isVariable : kind.isVariable = true) :
    kind.storage ∈ [Opcode.data, .ddata] := by
  cases kind with
  | var => exact List.mem_cons_self
  | dynamicVar => exact List.mem_cons_of_mem _ List.mem_cons_self
  | _ => cases isVariable

/-- What the instruction names is a symbol that is stored as it has to be. -/
def Instruction.Suits (r : Registry) (i : Instruction) : Prop :=
  ∀ index storages, i.operand? = some (index, storages) →
    ∃ symbol s, index = UInt32.ofNat symbol ∧ r.get? symbol = some s ∧ s.kind.storage ∈ storages

namespace Instruction.Suits

variable {r r' : Registry} {i : Instruction}

theorem plain (none : i.operand? = none) : i.Suits r := by
  intro index storages named
  rw [none] at named
  cases named

theorem names {symbol : Nat} {s : Symbol} {storages : List Opcode}
    (named : i.operand? = some (UInt32.ofNat symbol, storages)) (found : r.get? symbol = some s)
    (stored : s.kind.storage ∈ storages) : i.Suits r := by
  intro index storages' named'
  rw [named] at named'
  cases named'
  exact ⟨symbol, s, rfl, found, stored⟩

theorem extend (suits : i.Suits r) (grown : r.Extends r') : i.Suits r' := by
  intro index storages named
  obtain ⟨symbol, s, same, found, stored⟩ := suits index storages named
  exact ⟨symbol, s, same, grown.get? found, stored⟩

end Instruction.Suits

/-- All that the code of an expression names is stored as it has to be. -/
def Expr.Suits (r : Registry) (e : Expr) : Prop :=
  ∀ i ∈ e.listing, i.Suits r

theorem Expr.Suits.extend {r r' : Registry} {e : Expr} (suits : e.Suits r)
    (grown : r.Extends r') : e.Suits r' :=
  fun i member => (suits i member).extend grown

/-- The parameters of a function are its variables in the order in which they are declared, in
front of its other variables. -/
structure Registry.Parameters (r : Registry) (inside : Scope) (params locals : List Nat) :
    Prop where
  declared : ∀ param ∈ params,
    ∃ s, r.get? param = some s ∧ s.kind = .dynamicVar ∧ s.scope = inside
  ordered : params.Pairwise (· < ·)
  first : ∀ param ∈ params, ∀ cell ∈ locals, param < cell

theorem Registry.Parameters.extend {r r' : Registry} {inside : Scope} {params locals : List Nat}
    (parameters : r.Parameters inside params locals) (grown : r.Extends r') :
    r'.Parameters inside params locals where
  declared := by
    intro param member
    obtain ⟨s, found, rest⟩ := parameters.declared param member
    exact ⟨s, grown.get? found, rest⟩
  ordered := parameters.ordered
  first := parameters.first

namespace Stmt

mutual

/-- What a statement in a scope declares has that scope: its variables are all of one lifetime, a
block has a number below the scope, and a function its name. -/
def Seated (r : Registry) (lifetime : Lifetime) (scope : Scope) : Stmt → Prop
  | .assign target _ value => target.Suits r ∧ value.Suits r
  | .declare symbol => ∃ s, r.get? symbol = some s ∧ s.kind = lifetime.kind ∧ s.scope = scope
  | .block inside declared body =>
      (∃ n : Nat, inside = scope.child (toString n)) ∧
        (∀ cell ∈ declared, ∃ s, r.get? cell = some s ∧ s.kind.isVariable = true) ∧
          SeatedAll r lifetime inside body
  | .function inside symbol params body =>
      ∃ s, r.get? symbol = some s ∧ s.kind = .fn ∧ s.scope = scope ∧ IsSegment s.name ∧
        inside = scope.child s.name ∧ r.Parameters inside params (localsOf body) ∧
          SeatedAll r .dynamic inside body

def SeatedAll (r : Registry) (lifetime : Lifetime) (scope : Scope) : List Stmt → Prop
  | [] => True
  | stmt :: rest => stmt.Seated r lifetime scope ∧ SeatedAll r lifetime scope rest

end

variable {r r' : Registry} {lifetime : Lifetime} {scope : Scope}

mutual

theorem Seated.extend (grown : r.Extends r') {lifetime : Lifetime} {scope : Scope} :
    (stmt : Stmt) → stmt.Seated r lifetime scope → stmt.Seated r' lifetime scope
  | .assign _ _ _, ⟨target, value⟩ => ⟨target.extend grown, value.extend grown⟩
  | .declare _, ⟨s, found, rest⟩ => ⟨s, grown.get? found, rest⟩
  | .block _ _ body, ⟨number, cells, all⟩ =>
      ⟨number,
        fun cell member =>
          let ⟨s, found, isVariable⟩ := cells cell member
          ⟨s, grown.get? found, isVariable⟩,
        SeatedAll.extend grown body all⟩
  | .function _ _ _ body, ⟨s, found, kind, here, name, inside, parameters, all⟩ =>
      ⟨s, grown.get? found, kind, here, name, inside, parameters.extend grown,
        SeatedAll.extend grown body all⟩

theorem SeatedAll.extend (grown : r.Extends r') {lifetime : Lifetime} {scope : Scope} :
    (stmts : List Stmt) → SeatedAll r lifetime scope stmts → SeatedAll r' lifetime scope stmts
  | [], _ => trivial
  | stmt :: rest, ⟨first, others⟩ =>
      ⟨Seated.extend grown stmt first, SeatedAll.extend grown rest others⟩

end

mutual

/-- What the code of a statement names in line is stored as it has to be. -/
theorem suits {lifetime : Lifetime} {scope : Scope} :
    (stmt : Stmt) → stmt.Seated r lifetime scope → ∀ i ∈ stmt.listing, i.Suits r
  | .assign _ _ _, ⟨target, value⟩ =>
      forall_mem_concat (List.forall_mem_append.mpr ⟨target, value⟩) (.plain rfl)
  | .declare _, _ => List.forall_mem_nil _
  | .block _ _ body, ⟨_, cells, all⟩ => by
      refine List.forall_mem_append.mpr ⟨fun i member => ?_, suitsOf body all⟩
      obtain ⟨cell, inside, rfl⟩ := List.mem_map.mp member
      obtain ⟨s, found, isVariable⟩ := cells cell inside
      exact .names rfl found (Symbol.Kind.isVariable_storage isVariable)
  | .function _ _ _ _, _ => List.forall_mem_nil _

theorem suitsOf {lifetime : Lifetime} {scope : Scope} :
    (stmts : List Stmt) → SeatedAll r lifetime scope stmts → ∀ i ∈ listingOf stmts, i.Suits r
  | [], _ => List.forall_mem_nil _
  | stmt :: rest, ⟨first, others⟩ =>
      List.forall_mem_append.mpr ⟨suits stmt first, suitsOf rest others⟩

end

mutual

/-- The variables of a statement are below its scope in blocks only. -/
theorem Seated.locals {lifetime : Lifetime} {scope : Scope} :
    (stmt : Stmt) → stmt.Seated r lifetime scope → ∀ cell ∈ stmt.locals,
      ∃ s, r.get? cell = some s ∧ s.kind = lifetime.kind ∧ ∃ blocks, s.scope = scope.below blocks
  | .assign _ _ _, _, _, member => absurd member List.not_mem_nil
  | .declare _, ⟨s, found, kind, here⟩, cell, member => by
      obtain rfl := List.mem_singleton.mp member
      exact ⟨s, found, kind, [], by rw [here, Scope.below_nil]⟩
  | .block inside _ body, ⟨⟨n, number⟩, _, all⟩, cell, member => by
      obtain ⟨s, found, kind, blocks, here⟩ := SeatedAll.locals body all cell member
      exact ⟨s, found, kind, n :: blocks, by rw [here, number, Scope.child_below]⟩
  | .function _ _ _ _, _, _, member => absurd member List.not_mem_nil

theorem SeatedAll.locals {lifetime : Lifetime} {scope : Scope} :
    (stmts : List Stmt) → SeatedAll r lifetime scope stmts → ∀ cell ∈ localsOf stmts,
      ∃ s, r.get? cell = some s ∧ s.kind = lifetime.kind ∧ ∃ blocks, s.scope = scope.below blocks
  | [], _, _, member => absurd member List.not_mem_nil
  | stmt :: rest, ⟨first, others⟩, cell, member =>
      (List.mem_append.mp member).elim (Seated.locals stmt first cell)
        (SeatedAll.locals rest others cell)

end

theorem Seated.routine_suits {lifetime : Lifetime} {scope inside : Scope} {symbol : Nat}
    {params : List Nat} {body : List Stmt}
    (seated : Seated r lifetime scope (.function inside symbol params body)) :
    ∀ i ∈ (routine symbol params body).listing, i.Suits r := by
  obtain ⟨s, found, kind, -, -, -, parameters, all⟩ := seated
  intro i member
  simp only [routine, List.mem_append, List.mem_singleton, List.mem_map] at member
  rcases member with (((rfl | ⟨param, own, rfl⟩) | ⟨cell, own, rfl⟩) | line) | rfl
  · refine .names rfl found ?_
    rw [kind]
    exact List.mem_cons_of_mem _ List.mem_cons_self
  · obtain ⟨t, there, dynamic, -⟩ := parameters.declared param (List.mem_reverse.mp own)
    refine .names rfl there ?_
    rw [dynamic]
    exact List.mem_cons_self
  · obtain ⟨t, there, dynamic, -⟩ := SeatedAll.locals body all cell own
    refine .names rfl there ?_
    rw [dynamic]
    exact List.mem_cons_self
  · exact suitsOf body all i line
  · refine .names rfl found ?_
    rw [kind]
    exact List.mem_cons_self

mutual

theorem Seated.routines_suit {lifetime : Lifetime} {scope : Scope} :
    (stmt : Stmt) → stmt.Seated r lifetime scope →
      ∀ routine ∈ stmt.routines, ∀ i ∈ routine.listing, i.Suits r
  | .assign _ _ _, _ => List.forall_mem_nil _
  | .declare _, _ => List.forall_mem_nil _
  | .block _ _ body, ⟨_, _, all⟩ => SeatedAll.routines_suit body all
  | .function _ _ _ body, seated =>
      List.forall_mem_cons.mpr
        ⟨seated.routine_suits,
          let ⟨_, _, _, _, _, _, _, all⟩ := seated
          SeatedAll.routines_suit body all⟩

theorem SeatedAll.routines_suit {lifetime : Lifetime} {scope : Scope} :
    (stmts : List Stmt) → SeatedAll r lifetime scope stmts →
      ∀ routine ∈ routinesOf stmts, ∀ i ∈ routine.listing, i.Suits r
  | [], _ => List.forall_mem_nil _
  | stmt :: rest, ⟨first, others⟩ =>
      List.forall_mem_append.mpr
        ⟨Seated.routines_suit stmt first, SeatedAll.routines_suit rest others⟩

end

end Stmt

end StackScript
