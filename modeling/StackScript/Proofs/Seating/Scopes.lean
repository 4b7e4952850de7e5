import StackScript.Proofs.Seating.Statement
import StackScript.Proofs.Tree.Scopes

namespace StackScript.Grammar

/-! Statements from any state: each of the blocks and functions in them has a scope of its own. -/

variable {r : Registry} {lifetime : Lifetime} {scope : Scope} {opened : Nat}

/-- A rule for a statement behind so many blocks and functions. -/
abbrev Opening (r : Registry) (scope : Scope) (opened : Nat) (rule : Rule Stmt) : Prop :=
  Leaves r rule (fun stmt r' =>
    Opens r scope opened stmt.scopes (if stmt.opensScope then opened + 1 else opened) r')
    (Rejection.Keeps r)

/-- What statements in a row open, in a new scope. -/
def OpensAll (r : Registry) (scope : Scope) (stmts : List Stmt) (r' : Registry) : Prop :=
  ∃ last, Opens r scope 0 (Stmt.scopesOf stmts) last r'

/-- The rule for the statements of a block, one level deeper. -/
def BlockBody.Opens (body : BlockBody) : Prop :=
  ∀ r lifetime scope, Leaves r (body lifetime scope) (OpensAll r scope) fun _ _ => True

theorem assignment_opens {nested : Nested} (deeper : nested.Suitable r) :
    Opening r scope opened (assignment nested scope) := by
  refine .close (.keep (.orPass (target_suitable deeper scope)) fun place _ => ?_)
  refine .keep (.acceptOne _) fun found _ => ?_
  cases found with
  | none => exact .keep .cursor fun _ _ => .fail
  | some update =>
      refine .keep (.orFail (deeper.conditional scope)) fun value _ => ?_
      exact .ite (fun _ => .pure (.none (.refl r) scope opened)) fun _ => .fail

theorem declaration_opens (lifetime : Lifetime) :
    Opening r scope opened
      ((fun declared => .declare declared.1) <$> variableDeclaration lifetime scope) := by
  refine .map (variableDeclaration_seats lifetime scope) fun declared r' seats => ?_
  obtain ⟨s, adds, -⟩ := seats
  exact .none adds.extends scope opened

section Body

variable {body : BlockBody} (inner : body.Opens)

include inner

theorem block_opens :
    Leaves r (block body lifetime scope) (OpensAll r scope) (Rejection.Keeps r) := by
  refine .close (.keep (.acceptSymbol _) fun _ _ => .ite (fun _ => ?_) fun _ => .pass)
  refine .bind (.orFail (inner r lifetime scope)) fun stmts r' opens => ?_
  exact .keep (.acceptSymbol _) fun _ _ => .ite (fun _ => .pure opens) fun _ => .fail

theorem blockStatement_opens (lifetime : Lifetime) :
    Opening r scope opened (blockStatement body lifetime (scope.child (toString opened))) := by
  refine .bind (block_opens inner) fun stmts r' opens => .keep .registry fun registry _ => .pure ?_
  obtain ⟨last, opens⟩ := opens
  have given : Segment r r' scope opened (opened + 1) (toString opened) :=
    .block (Nat.le_refl opened) (Nat.lt_succ_self opened)
  exact .enter given (Nat.le_succ opened) opens.grown opens

theorem functionDefinition_opens : Opening r scope opened (functionDefinition body scope) := by
  refine .close (.keep .cursor fun start _ => .keep (.acceptKeyword _) fun _ _ => ?_)
  refine .ite (fun _ => ?_) fun _ => .pass
  refine .keep (.orFail (identifier_keeps scope .exact)) fun name segment => ?_
  refine .ite (fun _ => .fail) fun _ => .bind parameterList_seats fun params r₁ arguments => ?_
  refine .keep (.acceptKeyword _) fun _ _ => .ite (fun _ => ?_) fun _ => .fail
  refine .keep (.orFail typeName_keeps) fun ty _ => .bind (.declare? _) fun found r₂ added => ?_
  cases found with
  | none => exact .fail
  | some index =>
      obtain ⟨adds, new⟩ := added index rfl
      refine .bind (.orFail (block_opens inner)) fun stmts r₃ opens => .pure ?_
      obtain ⟨last, opens⟩ := opens
      have before : r.Extends r₁ := arguments.grown.known
      have declared : (scope, name.1) ∈ r₃.declarations := by
        refine opens.grown.declarations ?_
        rw [Registry.declarations_append adds.symbols_eq]
        exact List.mem_append_right _ List.mem_cons_self
      have given : Segment r r₃ scope opened (opened + 1) name.1 :=
        .function segment (fun old => new (before.declarations old)) declared
      exact .enter given (Nat.le_succ opened) ((before.trans adds.extends).trans opens.grown) opens

theorem statement_opens {nested : Nested} (deeper : nested.Suitable r) (lifetime : Lifetime) :
    Opening r scope opened (statement nested body lifetime scope opened) :=
  .or (assignment_opens deeper) <|
    .or (declaration_opens lifetime) <|
    .or (blockStatement_opens inner lifetime) (functionDefinition_opens inner)

end Body

theorem statementsLoop_opens {next : Nat → Rule Stmt}
    (opens : ∀ r opened, Opening r scope opened (next opened)) (inBlock : Bool)
    (fuel opened : Nat) :
    Leaves r (statementsLoop next inBlock fuel opened)
      (fun stmts r' => ∃ last, Opens r scope opened (Stmt.scopesOf stmts) last r')
      fun _ _ => True := by
  have empty (r : Registry) (opened : Nat) : Leaves r (pure [] : Rule (List Stmt))
      (fun stmts r' => ∃ last, Opens r scope opened (Stmt.scopesOf stmts) last r')
      fun _ _ => True :=
    .pure ⟨opened, .none (.refl r) scope opened⟩
  induction fuel generalizing r opened with
  | zero => exact empty r opened
  | succ fuel induction =>
      refine .keep .skipSpace fun _ _ => .keep .cursor fun start _ => ?_
      split
      · exact Meets.throw fun _ _ => trivial
      · exact empty r opened
      · exact empty r opened
      · refine .attempt (opens r opened) (fun stmt r' first => ?_) (fun _ _ _ => trivial)
          fun _ _ _ => trivial
        refine .bind (induction _) fun rest r'' others => .pure ?_
        obtain ⟨last, others⟩ := others
        exact ⟨last, first.append others⟩

theorem statements_opens {nested : Nested} {body : BlockBody}
    (deeper : ∀ r, nested.Suitable r) (inner : body.Opens) (lifetime : Lifetime) :
    Leaves r (statements nested body lifetime scope) (OpensAll r scope) fun _ _ => True :=
  .keep .remaining fun _ _ =>
    statementsLoop_opens (fun r _ => statement_opens inner (deeper r) lifetime) _ _ _

theorem bodyWithin_opens (levels : Nat) : (bodyWithin levels).Opens := by
  induction levels with
  | zero => exact fun _ _ _ _ _ => trivial
  | succ levels induction =>
      exact fun _ lifetime _ =>
        statements_opens (fun _ => nestedWithin_suitable levels) induction lifetime

theorem program_opens : Leaves r program (OpensAll r .root) fun _ _ => True :=
  statements_opens (fun _ => nestedWithin_suitable maxNesting) (bodyWithin_opens maxNesting) .static

end StackScript.Grammar
