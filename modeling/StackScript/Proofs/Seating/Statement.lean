import StackScript.Proofs.Seating.Expression

namespace StackScript

/-! Statements from any state: what they declare is seated in their scope and has types with
indexes, and a rule that leaves room for others has declared nothing. -/

variable {r r' r'' : Registry} {lifetime : Lifetime} {scope : Scope}

namespace Grammar

theorem Adds.extends {index : Nat} {s : Symbol} (adds : Adds r r' index s) : r.Extends r' :=
  ⟨[s], adds.symbols_eq.symm⟩

theorem Adds.size {index : Nat} {s : Symbol} (adds : Adds r r' index s) :
    r'.size = r.size + 1 := by
  rw [Registry.size, adds.symbols_eq, List.length_append, List.length_singleton, Registry.size]

end Grammar

/-- Whether the types of a symbol have indexes. -/
def Symbol.isIndexed (s : Symbol) : Bool :=
  (s.ty :: s.params).all Ty.isIndexed

def Registry.Indexed (r : Registry) : Prop :=
  ∀ s ∈ r.symbols, s.isIndexed = true

/-- Symbols may have been added, whose types have indexes. -/
structure Registry.Gains (r r' : Registry) : Prop where
  known : r.Extends r'
  indexed : r.Indexed → r'.Indexed

theorem Registry.Gains.refl (r : Registry) : r.Gains r :=
  ⟨.refl r, id⟩

theorem Registry.Gains.trans (first : r.Gains r') (second : r'.Gains r'') : r.Gains r'' :=
  ⟨first.known.trans second.known, fun indexed => second.indexed (first.indexed indexed)⟩

namespace Grammar

theorem Adds.gains {index : Nat} {s : Symbol} (adds : Adds r r' index s)
    (indexed : s.isIndexed = true) : r.Gains r' := by
  refine ⟨adds.extends, fun others => ?_⟩
  rw [Registry.Indexed, adds.symbols_eq]
  exact List.forall_mem_append.mpr ⟨others, List.forall_mem_singleton.mpr indexed⟩

/-- A statement in a scope that may have added symbols, its variables among them. -/
structure Seats (r : Registry) (lifetime : Lifetime) (scope : Scope) (stmt : Stmt)
    (r' : Registry) : Prop where
  grown : r.Gains r'
  new : ∀ cell ∈ stmt.locals, r.size ≤ cell
  seated : stmt.Seated r' lifetime scope

structure SeatsAll (r : Registry) (lifetime : Lifetime) (scope : Scope) (stmts : List Stmt)
    (r' : Registry) : Prop where
  grown : r.Gains r'
  new : ∀ cell ∈ Stmt.localsOf stmts, r.size ≤ cell
  seated : Stmt.SeatedAll r' lifetime scope stmts

/-- A rule for a statement: where it leaves room for others it declares nothing. -/
abbrev Seating (r : Registry) (lifetime : Lifetime) (scope : Scope) (rule : Rule Stmt) : Prop :=
  Leaves r rule (Seats r lifetime scope) (Rejection.Keeps r)

section Levels

variable {nested : Nested} (deeper : nested.Suitable r)

include deeper in
theorem assignment_seats : Seating r lifetime scope (assignment nested scope) := by
  refine .close (.keep (.orPass (target_suitable deeper scope)) fun place left => ?_)
  refine .keep (.acceptOne _) fun found _ => ?_
  cases found with
  | none => exact .keep .cursor fun _ _ => .fail
  | some update =>
      refine .keep (.orFail (deeper.conditional scope)) fun value right => ?_
      exact .ite (fun _ => .pure ⟨.refl r, List.forall_mem_nil _, left, right⟩) fun _ => .fail

end Levels

/-- A variable that is declared. -/
def SeatsVariable (r : Registry) (lifetime : Lifetime) (scope : Scope) (declared : Nat × Ty)
    (r' : Registry) : Prop :=
  ∃ s, Adds r r' declared.1 s ∧ s.kind = lifetime.kind ∧ s.scope = scope ∧
    s.isIndexed = true ∧ declared.2.isIndexed = true

theorem variableDeclaration_seats (lifetime : Lifetime) (scope : Scope) :
    Leaves r (variableDeclaration lifetime scope) (SeatsVariable r lifetime scope)
      (Rejection.Keeps r) := by
  refine .close (.keep .cursor fun start _ => .keep (.orPass typeName_keeps) fun ty indexed => ?_)
  refine .keep (.orFail (identifier_keeps scope .exact)) fun name _ => ?_
  refine .bind (.declare? _) fun found r' added => ?_
  cases found with
  | none => exact .fail
  | some index =>
      have own : [ty].all Ty.isIndexed = true := by
        rw [List.all_cons, indexed]
        rfl
      exact .pure ⟨_, (added index rfl).1, by cases lifetime <;> rfl, rfl, own, indexed⟩

theorem declaration_seats :
    Seating r lifetime scope
      ((fun declared => .declare declared.1) <$> variableDeclaration lifetime scope) := by
  refine .map (variableDeclaration_seats lifetime scope) fun declared r' seats => ?_
  obtain ⟨s, adds, kind, here, indexed, -⟩ := seats
  exact ⟨adds.gains indexed, List.forall_mem_singleton.mpr (Nat.le_of_eq adds.index_eq.symm), s,
    adds.get?, kind, here⟩

/-- Parameters that are declared, one behind the other and between the two registries. -/
structure SeatsParameters (r : Registry) (inside : Scope) (params : List (Nat × Ty))
    (r' : Registry) : Prop where
  grown : r.Gains r'
  parameters : r'.Parameters inside (params.map Prod.fst) []
  new : ∀ param ∈ params.map Prod.fst, r.size ≤ param
  old : ∀ param ∈ params.map Prod.fst, param < r'.size
  indexed : (params.map Prod.snd).all Ty.isIndexed = true

namespace SeatsParameters

theorem none (r : Registry) (inside : Scope) : SeatsParameters r inside [] r where
  grown := .refl r
  parameters := ⟨List.forall_mem_nil _, .nil, List.forall_mem_nil _⟩
  new := List.forall_mem_nil _
  old := List.forall_mem_nil _
  indexed := rfl

theorem cons {inside : Scope} {param : Nat × Ty} {params : List (Nat × Ty)}
    (first : SeatsVariable r .dynamic inside param r')
    (others : SeatsParameters r' inside params r'') :
    SeatsParameters r inside (param :: params) r'' := by
  obtain ⟨s, adds, kind, here, indexed, own⟩ := first
  have same : param.1 = r.size := adds.index_eq
  have behind : ∀ other ∈ params.map Prod.fst, r.size + 1 ≤ other := adds.size ▸ others.new
  have inFront : param.1 < r''.size :=
    Nat.lt_of_lt_of_le (same ▸ adds.size ▸ Nat.lt_succ_self r.size) others.grown.known.size_le
  refine ⟨(adds.gains indexed).trans others.grown, ⟨?_, ?_, ?_⟩, ?_, ?_, ?_⟩
  · exact List.forall_mem_cons.mpr
      ⟨⟨s, others.grown.known.get? adds.get?, kind, here⟩, others.parameters.declared⟩
  · exact List.pairwise_cons.mpr
      ⟨fun other member => same ▸ behind other member, others.parameters.ordered⟩
  · exact fun _ _ => List.forall_mem_nil _
  · exact List.forall_mem_cons.mpr
      ⟨Nat.le_of_eq same.symm, fun other member => Nat.le_of_succ_le (behind other member)⟩
  · exact List.forall_mem_cons.mpr ⟨inFront, others.old⟩
  · rw [List.map_cons, List.all_cons, own, others.indexed]
    rfl

end SeatsParameters

theorem parametersLoop_seats {base : Registry} (fuel : Nat) :
    Leaves r (parametersLoop scope fuel) (SeatsParameters r scope) (Failure.Keeps base) := by
  induction fuel generalizing r with
  | zero => exact .fail
  | succ fuel induction =>
      refine .bind (.orFail (variableDeclaration_seats .dynamic scope)) fun first r' seats => ?_
      refine .keep (.acceptSymbol ',') fun _ _ => .ite (fun _ => ?_) fun _ => ?_
      · exact .bind induction fun params r'' others => .pure (.cons seats others)
      · exact .pure (.cons seats (.none r' scope))

theorem parameters_seat :
    Leaves r (parameters scope) (SeatsParameters r scope) (Rejection.Keeps r) :=
  .close (.keep .remaining fun _ _ => parametersLoop_seats _)

theorem parameterList_seats {base : Registry} :
    Leaves r (parameterList scope) (SeatsParameters r scope) (Failure.Keeps base) := by
  refine .keep (.acceptSymbol '(') fun _ _ => .ite (fun _ => ?_) fun _ => .pure (.none r scope)
  refine .keep (.acceptSymbol ')') fun _ _ => .ite (fun _ => .pure (.none r scope)) fun _ => ?_
  refine .bind (.orFail parameters_seat) fun params r' seats => ?_
  exact .keep (.acceptSymbol ')') fun _ _ => .ite (fun _ => .pure seats) fun _ => .fail

/-- The rule for the statements of a block, one level deeper. -/
def BlockBody.Seats (body : BlockBody) : Prop :=
  ∀ r lifetime scope, Leaves r (body lifetime scope) (SeatsAll r lifetime scope) fun _ _ => True

section Body

variable {body : BlockBody} (inner : body.Seats)

include inner

theorem block_seats :
    Leaves r (block body lifetime scope) (SeatsAll r lifetime scope) (Rejection.Keeps r) := by
  refine .close (.keep (.acceptSymbol _) fun _ _ => .ite (fun _ => ?_) fun _ => .pass)
  refine .bind (.orFail (inner r lifetime scope)) fun stmts r' seats => ?_
  exact .keep (.acceptSymbol _) fun _ _ => .ite (fun _ => .pure seats) fun _ => .fail

theorem blockStatement_seats (opened : Nat) :
    Seating r lifetime scope (blockStatement body lifetime (scope.child (toString opened))) := by
  refine .bind (block_seats inner) fun stmts r' seats => .keep .registry fun registry same => ?_
  subst same
  refine .pure ⟨seats.grown, seats.new, ⟨opened, rfl⟩, fun cell member => ?_, seats.seated⟩
  obtain ⟨s, found, isVariable, -⟩ := mem_declaredIn_iff.mp member
  exact ⟨s, found, isVariable⟩

theorem functionDefinition_seats : Seating r lifetime scope (functionDefinition body scope) := by
  refine .close (.keep .cursor fun start _ => .keep (.acceptKeyword _) fun _ _ => ?_)
  refine .ite (fun _ => ?_) fun _ => .pass
  refine .keep (.orFail (identifier_keeps scope .exact)) fun name segment => ?_
  refine .ite (fun _ => .fail) fun _ => .bind parameterList_seats fun params r₁ arguments => ?_
  refine .keep (.acceptKeyword _) fun _ _ => .ite (fun _ => ?_) fun _ => .fail
  refine .keep (.orFail typeName_keeps) fun ty indexed => ?_
  refine .bind (.declare? _) fun found r₂ added => ?_
  cases found with
  | none => exact .fail
  | some index =>
      have adds := (added index rfl).1
      have types : (ty :: params.map Prod.snd).all Ty.isIndexed = true := by
        rw [List.all_cons, indexed, arguments.indexed]
        rfl
      refine .bind (.orFail (block_seats inner)) fun stmts r₃ seats => .pure ?_
      have later := (adds.gains types).trans seats.grown
      have first : ∀ param ∈ params.map Prod.fst, ∀ cell ∈ Stmt.localsOf stmts, param < cell :=
        fun param declared cell inside =>
          Nat.lt_of_lt_of_le (arguments.old param declared)
            (Nat.le_trans adds.extends.size_le (seats.new cell inside))
      exact ⟨arguments.grown.trans later, List.forall_mem_nil _, _,
        seats.grown.known.get? adds.get?, rfl, rfl, segment, rfl,
        { arguments.parameters.extend later.known with first }, seats.seated⟩

theorem statement_seats {nested : Nested} (deeper : nested.Suitable r) (opened : Nat) :
    Seating r lifetime scope (statement nested body lifetime scope opened) :=
  .or (assignment_seats deeper) <|
    .or (declaration_seats) <|
    .or (blockStatement_seats inner opened) (functionDefinition_seats inner)

end Body

theorem statementsLoop_seats {next : Nat → Rule Stmt}
    (seats : ∀ r opened, Seating r lifetime scope (next opened)) (inBlock : Bool)
    (fuel opened : Nat) :
    Leaves r (statementsLoop next inBlock fuel opened) (SeatsAll r lifetime scope)
      fun _ _ => True := by
  have empty : ∀ r, Leaves r (pure [] : Rule (List Stmt)) (SeatsAll r lifetime scope)
      fun _ _ => True :=
    fun r => .pure ⟨.refl r, List.forall_mem_nil _, trivial⟩
  induction fuel generalizing r opened with
  | zero => exact empty r
  | succ fuel induction =>
      refine .keep .skipSpace fun _ _ => .keep .cursor fun start _ => ?_
      split
      · exact Meets.throw fun _ _ => trivial
      · exact empty r
      · exact empty r
      · refine .attempt (seats r opened) (fun stmt r' first => ?_) (fun _ _ _ => trivial)
          fun _ _ _ => trivial
        refine .bind (induction _) fun rest r'' others => .pure ?_
        have behind := first.grown.known.size_le
        exact ⟨first.grown.trans others.grown,
          List.forall_mem_append.mpr
            ⟨first.new, fun cell member => Nat.le_trans behind (others.new cell member)⟩,
          first.seated.extend others.grown.known, others.seated⟩

theorem statements_seats {nested : Nested} {body : BlockBody}
    (deeper : ∀ r, nested.Suitable r) (inner : body.Seats) :
    Leaves r (statements nested body lifetime scope) (SeatsAll r lifetime scope)
      fun _ _ => True :=
  .keep .remaining fun _ _ =>
    statementsLoop_seats (fun r opened => statement_seats inner (deeper r) opened) _ _ _

theorem bodyWithin_seats (levels : Nat) : (bodyWithin levels).Seats := by
  induction levels with
  | zero => exact fun _ _ _ _ _ => trivial
  | succ levels induction =>
      exact fun _ _ _ => statements_seats (fun _ => nestedWithin_suitable levels) induction

theorem program_seats :
    Leaves r program (SeatsAll r .static .root) fun _ _ => True :=
  statements_seats (fun _ => nestedWithin_suitable maxNesting) (bodyWithin_seats maxNesting)

end Grammar

end StackScript
