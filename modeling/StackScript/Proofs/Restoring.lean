import StackScript.Proofs.Seating.Statement

namespace StackScript.Grammar

/-! No rule leaves a trace where it fails: it is back where it started, and if another alternative
may still match then that one finds the state as the rule found it. -/

variable {α β : Type}

/-- The rules below that for a whole unit, at every level of nesting. -/
inductive Production : Type → Type
  | identifier (scope : Scope) (lookup : Lookup) : Production (String × Option Nat)
  | stringLiteral : Production String
  | floatLiteral : Production UInt64
  | integerLiteral : Production Int64
  | booleanLiteral : Production Bool
  | literal : Production Literal
  | indexTypes : Production (List Scalar)
  | typeWithin (depth : Nat) : Production Ty
  | typeName : Production Ty
  | arguments (levels : Nat) (scope : Scope) : Production (List Typed)
  | primary (levels : Nat) (side : Side) (scope : Scope) : Production Typed
  | target (levels : Nat) (scope : Scope) : Production Typed
  | operand (levels : Nat) (scope : Scope) : Production Typed
  | unary (levels : Nat) (scope : Scope) : Production Typed
  | multiplicative (levels : Nat) (scope : Scope) : Production Typed
  | additive (levels : Nat) (scope : Scope) : Production Typed
  | relational (levels : Nat) (scope : Scope) : Production Typed
  | logicalAnd (levels : Nat) (scope : Scope) : Production Typed
  | logicalOr (levels : Nat) (scope : Scope) : Production Typed
  | conditionalExpression (levels : Nat) (scope : Scope) : Production Typed
  | nestedConditional (levels : Nat) (scope : Scope) : Production Typed
  | nestedUnary (levels : Nat) (scope : Scope) : Production Typed
  | variableDeclaration (lifetime : Lifetime) (scope : Scope) : Production (Nat × Ty)
  | parameters (scope : Scope) : Production (List (Nat × Ty))
  | assignment (levels : Nat) (scope : Scope) : Production Stmt
  | declaration (lifetime : Lifetime) (scope : Scope) : Production Stmt
  | block (levels : Nat) (lifetime : Lifetime) (scope : Scope) : Production (List Stmt)
  | blockStatement (levels : Nat) (lifetime : Lifetime) (scope : Scope) (opened : Nat) :
      Production Stmt
  | functionDefinition (levels : Nat) (scope : Scope) : Production Stmt
  | statement (levels : Nat) (lifetime : Lifetime) (scope : Scope) (opened : Nat) :
      Production Stmt

/-- The rule, with so many levels left for what is nested in it. -/
def Production.rule : Production α → Rule α
  | .identifier scope lookup => Grammar.identifier scope lookup
  | .stringLiteral => Grammar.stringLiteral
  | .floatLiteral => Grammar.floatLiteral
  | .integerLiteral => Grammar.integerLiteral
  | .booleanLiteral => Grammar.booleanLiteral
  | .literal => Grammar.literal
  | .indexTypes => Grammar.indexTypes
  | .typeWithin depth => Grammar.typeWithin depth
  | .typeName => Grammar.typeName
  | .arguments levels scope => Grammar.arguments ((nestedWithin levels).conditional scope)
  | .primary levels side scope =>
      Grammar.primary ((nestedWithin levels).conditional scope) side scope
  | .target levels scope => Grammar.target (nestedWithin levels) scope
  | .operand levels scope => Grammar.operand (nestedWithin levels) scope
  | .unary levels scope => Grammar.unary (nestedWithin levels) scope
  | .multiplicative levels scope => Grammar.multiplicative (nestedWithin levels) scope
  | .additive levels scope => Grammar.additive (nestedWithin levels) scope
  | .relational levels scope => Grammar.relational (nestedWithin levels) scope
  | .logicalAnd levels scope => Grammar.logicalAnd (nestedWithin levels) scope
  | .logicalOr levels scope => Grammar.logicalOr (nestedWithin levels) scope
  | .conditionalExpression levels scope => Grammar.conditionalExpression (nestedWithin levels) scope
  | .nestedConditional levels scope => (nestedWithin levels).conditional scope
  | .nestedUnary levels scope => (nestedWithin levels).unary scope
  | .variableDeclaration lifetime scope => Grammar.variableDeclaration lifetime scope
  | .parameters scope => Grammar.parameters scope
  | .assignment levels scope => Grammar.assignment (nestedWithin levels) scope
  | .declaration lifetime scope =>
      (fun declared => .declare declared.1) <$> Grammar.variableDeclaration lifetime scope
  | .block levels lifetime scope => Grammar.block (bodyWithin levels) lifetime scope
  | .blockStatement levels lifetime scope opened =>
      Grammar.blockStatement (bodyWithin levels) lifetime (scope.child (toString opened))
  | .functionDefinition levels scope => Grammar.functionDefinition (bodyWithin levels) scope
  | .statement levels lifetime scope opened =>
      Grammar.statement (nestedWithin levels) (bodyWithin levels) lifetime scope opened

/-- A failure of the rule is back where it started; one that leaves room for others has changed
nothing at all. -/
structure Restores (rule : Rule α) : Prop where
  cursor : ∀ {s s' : ParseState} {rejection : Rejection}, rule s = .error rejection s' →
    s'.cursor = s.cursor
  state : ∀ {s s' : ParseState} {rejection : Rejection}, rule s = .error rejection s' →
    rejection.signal = .unmatched → s' = s

theorem Restores.of_leaves {rule : Rule α} {post : Registry → α → Registry → Prop}
    (returns : Returns rule) (leaves : ∀ r, Leaves r rule (post r) (Rejection.Keeps r)) :
    Restores rule where
  cursor := returns _ _ _
  state := by
    intro s s' rejection failed unmatched
    have kept := (leaves s.registry).error rfl failed unmatched
    have back := returns s rejection s' failed
    cases s
    cases s'
    cases kept
    cases back
    rfl

theorem nestedWithin_returns (levels : Nat) (scope : Scope) :
    Returns ((nestedWithin levels).conditional scope) ∧
      Returns ((nestedWithin levels).unary scope) := by
  cases levels with
  | zero => exact ⟨.tooDeep, .tooDeep⟩
  | succ levels => exact ⟨.close _, .close _⟩

theorem blockStatement_returns (body : BlockBody) (lifetime : Lifetime) (scope : Scope) :
    Returns (blockStatement body lifetime scope) := by
  refine .before (.close _) fun stmts s rejection s' failed => ?_
  cases failed

theorem statement_returns (nested : Nested) (body : BlockBody) (lifetime : Lifetime)
    (scope : Scope) (opened : Nat) : Returns (statement nested body lifetime scope opened) :=
  .or (.close _) (.or (.map (.close _) _) (.or (blockStatement_returns body _ _) (.close _)))

theorem Production.restores (production : Production α) : Restores production.rule := by
  have nested (levels : Nat) (r : Registry) : (nestedWithin levels).Suitable r :=
    nestedWithin_suitable levels
  have bodies (levels : Nat) : (bodyWithin levels).Seats := bodyWithin_seats levels
  cases production with
  | identifier scope lookup => exact .of_leaves (.close _) fun _ => identifier_keeps scope lookup
  | stringLiteral => exact .of_leaves (.close _) fun _ => stringLiteral_keeps
  | floatLiteral => exact .of_leaves (.close _) fun _ => floatLiteral_keeps
  | integerLiteral => exact .of_leaves (.close _) fun _ => integerLiteral_keeps
  | booleanLiteral => exact .of_leaves booleanLiteral_returns fun _ => booleanLiteral_keeps
  | literal => exact .of_leaves (.close _) fun _ => literal_keeps
  | indexTypes => exact .of_leaves (.close _) fun _ => indexTypes_keeps
  | typeWithin depth => exact .of_leaves (typeWithin_returns depth) fun _ => typeWithin_keeps depth
  | typeName => exact .of_leaves typeName_returns fun _ => typeName_keeps
  | arguments levels scope =>
      exact .of_leaves (.close _) fun r => arguments_suitable ((nested levels r).conditional scope)
  | primary levels side scope =>
      exact .of_leaves (.close _) fun r =>
        primary_suitable ((nested levels r).conditional scope) side scope
  | target levels scope =>
      exact .of_leaves (.close _) fun r => target_suitable (nested levels r) scope
  | operand levels scope =>
      exact .of_leaves (.close _) fun r => operand_suitable (nested levels r) scope
  | unary levels scope =>
      exact .of_leaves (.close _) fun r => unary_suitable (nested levels r) scope
  | multiplicative levels scope =>
      exact .of_leaves (.close _) fun r => multiplicative_suitable (nested levels r) scope
  | additive levels scope =>
      exact .of_leaves (.close _) fun r => additive_suitable (nested levels r) scope
  | relational levels scope =>
      exact .of_leaves (.close _) fun r => relational_suitable (nested levels r) scope
  | logicalAnd levels scope =>
      exact .of_leaves (.close _) fun r => logicalAnd_suitable (nested levels r) scope
  | logicalOr levels scope =>
      exact .of_leaves (.close _) fun r => logicalOr_suitable (nested levels r) scope
  | conditionalExpression levels scope =>
      exact .of_leaves (.close _) fun r => conditionalExpression_suitable (nested levels r) scope
  | nestedConditional levels scope =>
      exact .of_leaves (nestedWithin_returns levels scope).1 fun r =>
        (nested levels r).conditional scope
  | nestedUnary levels scope =>
      exact .of_leaves (nestedWithin_returns levels scope).2 fun r =>
        (nested levels r).unary scope
  | variableDeclaration lifetime scope =>
      exact .of_leaves (.close _) fun _ => variableDeclaration_seats lifetime scope
  | parameters scope => exact .of_leaves (.close _) fun _ => parameters_seat
  | assignment levels scope =>
      have seats (r : Registry) : Seating r .static scope _ := assignment_seats (nested levels r)
      exact .of_leaves (.close _) seats
  | declaration lifetime scope => exact .of_leaves (.map (.close _) _) fun _ => declaration_seats
  | block levels lifetime scope => exact .of_leaves (.close _) fun _ => block_seats (bodies levels)
  | blockStatement levels lifetime scope opened =>
      exact .of_leaves (blockStatement_returns _ _ _) fun _ =>
        blockStatement_seats (bodies levels) opened
  | functionDefinition levels scope =>
      have seats (r : Registry) : Seating r .static scope _ :=
        functionDefinition_seats (bodies levels)
      exact .of_leaves (.close _) seats
  | statement levels lifetime scope opened =>
      exact .of_leaves (statement_returns _ _ _ _ _) fun r =>
        statement_seats (bodies levels) (nested levels r) opened

end StackScript.Grammar
