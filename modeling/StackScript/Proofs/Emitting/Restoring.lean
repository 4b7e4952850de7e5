import StackScript.Proofs.Emitting.Statement
import StackScript.Proofs.Restoring

namespace StackScript.Emitting

/-! No rule leaves a trace where it fails: it is back where it started, at the depth from before,
and if another alternative may still match then that one finds the registry and all buffers as the
rule found them. Nothing is ever taken back, so it has to be that a rule declares and writes nothing
before it is certain that no other alternative will be tried. -/

open Grammar (Rejection maxNesting)

variable {α β : Type}

/-- The rules below that for a whole unit, at every level of nesting. -/
inductive Production : Type → Type
  | identifier (scope : Scope) (lookup : Lookup) : Production (String × Option Nat)
  | stringLiteral : Production String
  | floatLiteral : Production UInt64
  | integerLiteral : Production Int64
  | booleanLiteral : Production Bool
  | literal : Production Ty
  | indexTypes : Production (List Scalar)
  | typeWithin (depth : Nat) : Production Ty
  | typeName : Production Ty
  | arguments (bound : Nat) (scope : Scope) : Production (List Ty)
  | primary (bound : Nat) (side : Grammar.Side) (scope : Scope) : Production Ty
  | target (bound : Nat) (scope : Scope) : Production Ty
  | operand (bound : Nat) (scope : Scope) : Production Ty
  | unary (bound : Nat) (scope : Scope) : Production Ty
  | multiplicative (bound : Nat) (scope : Scope) : Production Ty
  | additive (bound : Nat) (scope : Scope) : Production Ty
  | relational (bound : Nat) (scope : Scope) : Production Ty
  | logicalAnd (bound : Nat) (scope : Scope) : Production Ty
  | logicalOr (bound : Nat) (scope : Scope) : Production Ty
  | conditionalExpression (bound : Nat) (scope : Scope) : Production Ty
  | nestedConditional (bound : Nat) (scope : Scope) : Production Ty
  | nestedUnary (bound : Nat) (scope : Scope) : Production Ty
  | variableDeclaration (lifetime : Lifetime) (scope : Scope) : Production (Nat × Ty)
  | parameters (scope : Scope) : Production (List (Nat × Ty))
  | assignment (bound : Nat) (scope : Scope) : Production Unit
  | block (bound : Nat) (lifetime : Lifetime) (scope : Scope) : Production Unit
  | functionDefinition (bound : Nat) (scope : Scope) : Production CodeUnit
  | assignmentStatement (bound : Nat) (scope : Scope) : Production Unit
  | declarationStatement (lifetime : Lifetime) (scope : Scope) : Production Unit
  | blockStatement (bound : Nat) (lifetime : Lifetime) (scope : Scope) : Production Unit
  | functionStatement (bound : Nat) (scope : Scope) : Production Unit
  | statement (bound : Nat) (lifetime : Lifetime) (scope : Scope) : Production Unit

/-- The rule, where what is nested in it has a bound. -/
def Production.rule : Production α → Rule α
  | .identifier scope lookup => scan (Grammar.identifier scope lookup)
  | .stringLiteral => scan Grammar.stringLiteral
  | .floatLiteral => scan Grammar.floatLiteral
  | .integerLiteral => scan Grammar.integerLiteral
  | .booleanLiteral => scan Grammar.booleanLiteral
  | .literal => Emitting.literal
  | .indexTypes => scan Grammar.indexTypes
  | .typeWithin depth => scan (Grammar.typeWithin depth)
  | .typeName => scan Grammar.typeName
  | .arguments bound scope => Emitting.arguments ((nestedWithin bound).conditional scope)
  | .primary bound side scope =>
      Emitting.primary ((nestedWithin bound).conditional scope) side scope
  | .target bound scope => Emitting.target (nestedWithin bound) scope
  | .operand bound scope => Emitting.operand (nestedWithin bound) scope
  | .unary bound scope => Emitting.unary (nestedWithin bound) scope
  | .multiplicative bound scope => Emitting.multiplicative (nestedWithin bound) scope
  | .additive bound scope => Emitting.additive (nestedWithin bound) scope
  | .relational bound scope => Emitting.relational (nestedWithin bound) scope
  | .logicalAnd bound scope => Emitting.logicalAnd (nestedWithin bound) scope
  | .logicalOr bound scope => Emitting.logicalOr (nestedWithin bound) scope
  | .conditionalExpression bound scope => Emitting.conditionalExpression (nestedWithin bound) scope
  | .nestedConditional bound scope => (nestedWithin bound).conditional scope
  | .nestedUnary bound scope => (nestedWithin bound).unary scope
  | .variableDeclaration lifetime scope => Emitting.variableDeclaration lifetime scope
  | .parameters scope => Emitting.parameters scope
  | .assignment bound scope => Emitting.assignment (nestedWithin bound) scope
  | .block bound lifetime scope => Emitting.block (bodyWithin bound) lifetime scope
  | .functionDefinition bound scope => Emitting.functionDefinition (bodyWithin bound) scope
  | .assignmentStatement bound scope => Emitting.assignmentStatement (nestedWithin bound) scope
  | .declarationStatement lifetime scope => Emitting.declarationStatement lifetime scope
  | .blockStatement bound lifetime scope =>
      Emitting.blockStatement (bodyWithin bound) lifetime scope
  | .functionStatement bound scope => Emitting.functionStatement (bodyWithin bound) scope
  | .statement bound lifetime scope =>
      Emitting.statement (nestedWithin bound) (bodyWithin bound) lifetime scope

/-- A failure of the rule is back where it started, at the depth from before; one that leaves room
for others has changed nothing at all: no symbol, no code, no local and no count of scopes. -/
structure Restores (rule : Rule α) : Prop where
  cursor : ∀ {s s' : State} {rejection : Rejection}, rule s = .error rejection s' →
    s'.cursor = s.cursor
  depth : ∀ {s s' : State} {rejection : Rejection}, rule s = .error rejection s' →
    s'.depth = s.depth
  state : ∀ {s s' : State} {rejection : Rejection}, rule s = .error rejection s' →
    rejection.signal = .unmatched → s' = s

/-- A rule that reads what a rule for trees reads goes back with it. -/
theorem Restores.of_emits {tree : Workspace → Grammar.Rule α} {rule : Rule β} {image : α → β}
    {left : Workspace → α → Workspace} (emits : ∀ w, Emits w (tree w) rule image (left w))
    (restores : ∀ w, Grammar.Restores (tree w)) : Restores rule := by
  have failure {s s' : State} {rejection : Rejection} (failed : rule s = .error rejection s') :
      tree s.toWorkspace s.toParseState = .error rejection s'.toParseState ∧
        Undone s.toWorkspace rejection.signal s'.toWorkspace := by
    obtain ⟨p, w⟩ := s
    cases run : tree w p with
    | ok a p' =>
        have matched := (emits w).ok run
        rw [matched] at failed
        cases failed
    | error r p' =>
        obtain ⟨w', rejected, undone⟩ := (emits w).error run
        rw [rejected] at failed
        cases failed
        exact ⟨rfl, undone⟩
  constructor
  · intro s s' rejection failed
    exact (restores _).cursor (failure failed).1
  · intro s s' rejection failed
    exact (failure failed).2.depth
  · intro s s' rejection failed unmatched
    obtain ⟨run, undone⟩ := failure failed
    have read := (restores _).state run unmatched
    have written := undone.same unmatched
    cases s
    cases s'
    cases read
    cases written
    rfl

/-- How many more levels a tree may have. -/
def levelsLeft (bound : Nat) (w : Workspace) : Nat :=
  min bound (maxNesting - w.depth)

theorem Production.restores (production : Production α) : Restores production.rule := by
  have nested (bound : Nat) (w : Workspace) :
      (nestedWithin bound).Writes w.depth (Grammar.nestedWithin (levelsLeft bound w)) :=
    nestedWithin_writes bound w.depth
  have bodies (bound : Nat) (w : Workspace) :
      BlockBody.Writes w.depth (Grammar.bodyWithin (levelsLeft bound w)) (bodyWithin bound) :=
    bodyWithin_writes bound w.depth
  cases production with
  | identifier scope lookup =>
      exact .of_emits (fun _ => .scan _) fun _ =>
        (Grammar.Production.identifier scope lookup).restores
  | stringLiteral =>
      exact .of_emits (fun _ => .scan _) fun _ => Grammar.Production.stringLiteral.restores
  | floatLiteral =>
      exact .of_emits (fun _ => .scan _) fun _ => Grammar.Production.floatLiteral.restores
  | integerLiteral =>
      exact .of_emits (fun _ => .scan _) fun _ => Grammar.Production.integerLiteral.restores
  | booleanLiteral =>
      exact .of_emits (fun _ => .scan _) fun _ => Grammar.Production.booleanLiteral.restores
  | literal => exact .of_emits (fun _ => literal_emits) fun _ => Grammar.Production.literal.restores
  | indexTypes => exact .of_emits (fun _ => .scan _) fun _ => Grammar.Production.indexTypes.restores
  | typeWithin depth =>
      exact .of_emits (fun _ => .scan _) fun _ => (Grammar.Production.typeWithin depth).restores
  | typeName => exact .of_emits (fun _ => .scan _) fun _ => Grammar.Production.typeName.restores
  | arguments bound scope =>
      exact .of_emits (fun w => arguments_emit ((nested bound w).conditional scope) rfl) fun w =>
        (Grammar.Production.arguments (levelsLeft bound w) scope).restores
  | primary bound side scope =>
      exact .of_emits
        (fun w => primary_writes ((nested bound w).conditional scope) side scope w rfl) fun w =>
        (Grammar.Production.primary (levelsLeft bound w) side scope).restores
  | target bound scope =>
      exact .of_emits (fun w => target_writes (nested bound w) scope w rfl) fun w =>
        (Grammar.Production.target (levelsLeft bound w) scope).restores
  | operand bound scope =>
      exact .of_emits (fun w => operand_writes (nested bound w) scope w rfl) fun w =>
        (Grammar.Production.operand (levelsLeft bound w) scope).restores
  | unary bound scope =>
      exact .of_emits (fun w => unary_writes (nested bound w) scope w rfl) fun w =>
        (Grammar.Production.unary (levelsLeft bound w) scope).restores
  | multiplicative bound scope =>
      exact .of_emits (fun w => multiplicative_writes (nested bound w) scope w rfl) fun w =>
        (Grammar.Production.multiplicative (levelsLeft bound w) scope).restores
  | additive bound scope =>
      exact .of_emits (fun w => additive_writes (nested bound w) scope w rfl) fun w =>
        (Grammar.Production.additive (levelsLeft bound w) scope).restores
  | relational bound scope =>
      exact .of_emits (fun w => relational_writes (nested bound w) scope w rfl) fun w =>
        (Grammar.Production.relational (levelsLeft bound w) scope).restores
  | logicalAnd bound scope =>
      exact .of_emits (fun w => logicalAnd_writes (nested bound w) scope w rfl) fun w =>
        (Grammar.Production.logicalAnd (levelsLeft bound w) scope).restores
  | logicalOr bound scope =>
      exact .of_emits (fun w => logicalOr_writes (nested bound w) scope w rfl) fun w =>
        (Grammar.Production.logicalOr (levelsLeft bound w) scope).restores
  | conditionalExpression bound scope =>
      exact .of_emits (fun w => conditionalExpression_writes (nested bound w) scope w rfl) fun w =>
        (Grammar.Production.conditionalExpression (levelsLeft bound w) scope).restores
  | nestedConditional bound scope =>
      exact .of_emits (fun w => (nested bound w).conditional scope w rfl) fun w =>
        (Grammar.Production.nestedConditional (levelsLeft bound w) scope).restores
  | nestedUnary bound scope =>
      exact .of_emits (fun w => (nested bound w).unary scope w rfl) fun w =>
        (Grammar.Production.nestedUnary (levelsLeft bound w) scope).restores
  | variableDeclaration lifetime scope =>
      exact .of_emits (fun w => variableDeclaration_emits w lifetime scope) fun _ =>
        (Grammar.Production.variableDeclaration lifetime scope).restores
  | parameters scope =>
      exact .of_emits (fun w => parameters_emit w scope) fun _ =>
        (Grammar.Production.parameters scope).restores
  | assignment bound scope =>
      exact .of_emits (fun w => assignment_emits (nested bound w) scope .static rfl) fun w =>
        (Grammar.Production.assignment (levelsLeft bound w) scope).restores
  | block bound lifetime scope =>
      exact .of_emits (fun w => block_emits (bodies bound w) lifetime scope rfl) fun w =>
        (Grammar.Production.block (levelsLeft bound w) lifetime scope).restores
  | functionDefinition bound scope =>
      exact .of_emits (fun w => functionDefinition_emits (bodies bound w) scope rfl) fun w =>
        (Grammar.Production.functionDefinition (levelsLeft bound w) scope).restores
  | assignmentStatement bound scope =>
      exact .of_emits (fun w => assignmentStatement_emits (nested bound w) scope .static rfl)
        fun w => (Grammar.Production.assignment (levelsLeft bound w) scope).restores
  | declarationStatement lifetime scope =>
      exact .of_emits (fun w => declarationStatement_emits w lifetime scope) fun _ =>
        (Grammar.Production.declaration lifetime scope).restores
  | blockStatement bound lifetime scope =>
      exact .of_emits (fun w => blockStatement_emits (bodies bound w) lifetime scope rfl) fun w =>
        (Grammar.Production.blockStatement (levelsLeft bound w) lifetime scope w.opened).restores
  | functionStatement bound scope =>
      exact .of_emits (fun w => functionStatement_emits (bodies bound w) scope .static rfl)
        fun w => (Grammar.Production.functionDefinition (levelsLeft bound w) scope).restores
  | statement bound lifetime scope =>
      exact .of_emits
        (fun w => statement_emits (nested bound w) (bodies bound w) lifetime scope rfl) fun w =>
        (Grammar.Production.statement (levelsLeft bound w) lifetime scope w.opened).restores

/-- What alternatives give that are all tried from one state: the first one that matches or is
broken decides, and the nodes of those before stay in front. -/
def firstOf (s : State) : List (Rule α) → Rule α → EStateM.Result Rejection State α
  | [], last => last s
  | rule :: rules, last =>
      match rule s with
      | .ok a s' => .ok a s'
      | .error { signal := .broken, nodes } s' => .error { signal := .broken, nodes } s'
      | .error { signal := .unmatched, nodes } _ =>
          match firstOf s rules last with
          | .ok a s' => .ok a s'
          | .error r s' => .error { signal := r.signal, nodes := nodes ++ r.nodes } s'

theorem Restores.or_eq {first second last : Rule α} {rules : List (Rule α)} {s : State}
    (restores : Restores first) (others : second s = firstOf s rules last) :
    (first.or second) s = firstOf s (first :: rules) last := by
  simp only [Rule.or, firstOf]
  cases run : first s with
  | ok a s' => rfl
  | error rejection s' =>
      obtain ⟨signal, nodes⟩ := rejection
      cases signal with
      | broken => rfl
      | unmatched =>
          obtain rfl := restores.state run rfl
          cases rest : firstOf s' rules last with
          | ok a s'' => simp only [others, rest]
          | error rejection s'' => simp only [others, rest]

/-- Whatever fails is back where it started, at the depth from before, and, if another alternative
may match, has declared and written nothing. So each alternative of a statement is tried from the
state that the statement started in: what it declares and writes does not depend on those that were
abandoned before. -/
theorem rules_restore :
    (∀ {α : Type} (production : Production α), Restores production.rule) ∧
    ∀ (bound : Nat) (lifetime : Lifetime) (scope : Scope) (s : State),
      (Production.statement bound lifetime scope).rule s =
        firstOf s
          [(Production.assignmentStatement bound scope).rule,
            (Production.declarationStatement lifetime scope).rule,
            (Production.blockStatement bound lifetime scope).rule]
          (Production.functionStatement bound scope).rule := by
  refine ⟨fun production => production.restores, fun bound lifetime scope s => ?_⟩
  apply (Production.assignmentStatement bound scope).restores.or_eq
  apply (Production.declarationStatement lifetime scope).restores.or_eq
  apply (Production.blockStatement bound lifetime scope).restores.or_eq
  rfl

end StackScript.Emitting
