import StackScript.Proofs.Progress.Statement

namespace StackScript.Grammar

/-! Every rule that matches has moved, so reading ends: loops take no more rounds than there are
characters, and what is nested in a rule is behind its start. -/

variable {α : Type} {c : Cursor} {moved : Bool} {nested : Nested} {body : BlockBody}

/-- How many levels are left for what is nested in the rule. -/
def Production.levels : Production α → Nat
  | .arguments levels _ | .primary levels _ _ | .target levels _ | .operand levels _
  | .unary levels _ | .multiplicative levels _ | .additive levels _ | .relational levels _
  | .logicalAnd levels _ | .logicalOr levels _ | .conditionalExpression levels _
  | .nestedConditional levels _ | .nestedUnary levels _ | .assignment levels _
  | .block levels _ _ | .blockStatement levels _ _ _ | .functionDefinition levels _
  | .statement levels _ _ _ => levels
  | .identifier .. | .stringLiteral | .floatLiteral | .integerLiteral | .booleanLiteral | .literal
  | .indexTypes | .typeWithin _ | .typeName | .variableDeclaration .. | .parameters _
  | .declaration .. => 0

/-- The rule, with any other rules for what is nested in it. -/
def Production.opened (nested : Nested) (body : BlockBody) : Production α → Rule α
  | .identifier scope lookup => Grammar.identifier scope lookup
  | .stringLiteral => Grammar.stringLiteral
  | .floatLiteral => Grammar.floatLiteral
  | .integerLiteral => Grammar.integerLiteral
  | .booleanLiteral => Grammar.booleanLiteral
  | .literal => Grammar.literal
  | .indexTypes => Grammar.indexTypes
  | .typeWithin depth => Grammar.typeWithin depth
  | .typeName => Grammar.typeName
  | .arguments _ scope => Grammar.arguments (nested.conditional scope)
  | .primary _ side scope => Grammar.primary (nested.conditional scope) side scope
  | .target _ scope => Grammar.target nested scope
  | .operand _ scope => Grammar.operand nested scope
  | .unary _ scope => Grammar.unary nested scope
  | .multiplicative _ scope => Grammar.multiplicative nested scope
  | .additive _ scope => Grammar.additive nested scope
  | .relational _ scope => Grammar.relational nested scope
  | .logicalAnd _ scope => Grammar.logicalAnd nested scope
  | .logicalOr _ scope => Grammar.logicalOr nested scope
  | .conditionalExpression _ scope => Grammar.conditionalExpression nested scope
  | .nestedConditional _ scope => nested.conditional scope
  | .nestedUnary _ scope => nested.unary scope
  | .variableDeclaration lifetime scope => Grammar.variableDeclaration lifetime scope
  | .parameters scope => Grammar.parameters scope
  | .assignment _ scope => Grammar.assignment nested scope
  | .declaration lifetime scope =>
      (fun declared => .declare declared.1) <$> Grammar.variableDeclaration lifetime scope
  | .block _ lifetime scope => Grammar.block body lifetime scope
  | .blockStatement _ lifetime scope opened =>
      Grammar.blockStatement body lifetime (scope.child (toString opened))
  | .functionDefinition _ scope => Grammar.functionDefinition body scope
  | .statement _ lifetime scope opened => Grammar.statement nested body lifetime scope opened

/-- The rule begins with a nested one, at its own start. -/
def Production.beginsNested : Production α → Bool
  | .arguments .. | .nestedConditional .. | .nestedUnary .. => true
  | _ => false

/-- From where a cursor reaches, these nested rules do what those for so many levels do. -/
structure Replaces (c : Cursor) (moved : Bool) (levels : Nat) (nested : Nested)
    (body : BlockBody) : Prop where
  conditional : ∀ scope s, c.Reaches moved s.cursor →
    (nestedWithin levels).conditional scope s = nested.conditional scope s
  unary : ∀ scope s, c.Reaches moved s.cursor →
    (nestedWithin levels).unary scope s = nested.unary scope s
  body : ∀ lifetime scope s, c.Reaches moved s.cursor →
    bodyWithin levels lifetime scope s = body lifetime scope s

namespace Replaces

variable {levels : Nat} (replaces : Replaces c true levels nested body)

include replaces

theorem nested_advances : (nestedWithin levels).Advances c nested where
  conditional scope :=
    ((nestedWithin_advances levels c).conditional scope).replaced (replaces.conditional scope)
  unary scope := ((nestedWithin_advances levels c).unary scope).replaced (replaces.unary scope)

theorem body_advances : (bodyWithin levels).Advances c body := by
  intro c' lifetime scope behind s start
  have further := behind.onward start
  obtain ⟨-, reaches⟩ := bodyWithin_advances levels c c' lifetime scope behind s start
  exact ⟨replaces.body lifetime scope s further, reaches⟩

end Replaces

theorem nestedWithin_matches (levels : Nat) (scope : Scope) (c : Cursor) :
    Advances c false ((nestedWithin levels).conditional scope)
        ((nestedWithin levels).conditional scope) ∧
      Advances c false ((nestedWithin levels).unary scope) ((nestedWithin levels).unary scope) := by
  cases levels with
  | zero => exact ⟨.tooDeep, .tooDeep⟩
  | succ levels =>
      have deeper := nestedWithin_advances levels c
      exact ⟨conditionalExpression_advances deeper scope, unary_advances deeper scope⟩

theorem Production.advances (production : Production α)
    (replaces : Replaces c (!production.beginsNested) production.levels nested body) :
    Advances c false production.rule (production.opened nested body) := by
  cases production with
  | identifier scope lookup => exact identifier_advances scope lookup
  | stringLiteral => exact stringLiteral_advances
  | floatLiteral => exact floatLiteral_advances
  | integerLiteral => exact integerLiteral_advances
  | booleanLiteral => exact booleanLiteral_advances
  | literal => exact literal_advances
  | indexTypes => exact indexTypes_advances
  | typeWithin depth => exact typeWithin_advances depth
  | typeName => exact typeName_advances
  | arguments levels scope =>
      exact arguments_advances
        ((nestedWithin_matches levels scope c).1.replaced (replaces.conditional scope))
  | primary levels side scope =>
      exact primary_advances (replaces.nested_advances.conditional scope) side scope
  | target levels scope => exact target_advances replaces.nested_advances scope
  | operand levels scope => exact operand_advances replaces.nested_advances scope
  | unary levels scope => exact unary_advances replaces.nested_advances scope
  | multiplicative levels scope => exact multiplicative_advances replaces.nested_advances scope
  | additive levels scope => exact additive_advances replaces.nested_advances scope
  | relational levels scope => exact relational_advances replaces.nested_advances scope
  | logicalAnd levels scope => exact logicalAnd_advances replaces.nested_advances scope
  | logicalOr levels scope => exact logicalOr_advances replaces.nested_advances scope
  | conditionalExpression levels scope =>
      exact conditionalExpression_advances replaces.nested_advances scope
  | nestedConditional levels scope =>
      exact (nestedWithin_matches levels scope c).1.replaced (replaces.conditional scope)
  | nestedUnary levels scope =>
      exact (nestedWithin_matches levels scope c).2.replaced (replaces.unary scope)
  | variableDeclaration lifetime scope => exact variableDeclaration_advances lifetime scope
  | parameters scope => exact parameters_advances scope
  | assignment levels scope => exact assignment_advances replaces.nested_advances scope
  | declaration lifetime scope => exact (variableDeclaration_advances lifetime scope).map
  | block levels lifetime scope => exact block_advances replaces.body_advances lifetime scope
  | blockStatement levels lifetime scope opened =>
      exact blockStatement_advances replaces.body_advances lifetime _
  | functionDefinition levels scope =>
      exact functionDefinition_advances replaces.body_advances scope
  | statement levels lifetime scope opened =>
      exact statement_advances replaces.body_advances replaces.nested_advances lifetime scope opened

theorem replaces_self (c : Cursor) (moved : Bool) (levels : Nat) :
    Replaces c moved levels (nestedWithin levels) (bodyWithin levels) :=
  ⟨fun _ _ _ => rfl, fun _ _ _ => rfl, fun _ _ _ _ => rfl⟩

theorem Production.matched (production : Production α) {s s' : ParseState} {a : α}
    (run : production.rule s = .ok a s') : s.cursor.Reaches true s'.cursor :=
  (production.advances (replaces_self s.cursor _ _)).matched (.refl s.cursor) run

/-- A chain of operators with fuel, and its rounds. -/
abbrev ChainBounded {ω : Type} (operand : Rule Typed) (operator : Cursor → Option (ω × Cursor))
    (combine : ω → Typed → Typed → Except Cause Typed) (cause : Cause) : Prop :=
  Bounded (chainLoop operand operator combine cause) (chainRound operand operator combine cause)

theorem chainBounded {ω : Type} {operand : Rule Typed} {operator : Cursor → Option (ω × Cursor)}
    {combine : ω → Typed → Typed → Except Cause Typed} {cause : Cause}
    (advances : ∀ c, Advances c true operand operand)
    (reaches : ∀ c op c', operator c = some (op, c') → c.Reaches true c') :
    ChainBounded operand operator combine cause :=
  chainLoop_repeats.bounded fun c => chainRound_steps (advances c) reaches

/-- Progress of all rules but that of a whole unit, and what follows for loops and nested rules. -/
structure RulesProgress : Prop where
  /-- What a rule that matches has read is not empty, and a front of what was left. -/
  matched : ∀ {α : Type} (production : Production α) {s s' : ParseState} {a : α},
    production.rule s = .ok a s' → s.cursor.Reaches true s'.cursor
  /-- So in a source the offset grows, up to the end at most. -/
  inside : ∀ {α : Type} (production : Production α) {source : List Char} {low : Nat}
    {s s' : ParseState} {a : α}, s.cursor.Stands source low → production.rule s = .ok a s' →
      s'.cursor.Stands source (s.cursor.position.offset + 1) ∧
        s'.cursor.position.offset ≤ (Text.Utf8.encode source).length
  statementRounds : ∀ levels lifetime scope inBlock,
    Bounded
      (statementsLoop (statement (nestedWithin levels) (bodyWithin levels) lifetime scope) inBlock)
      (statementsRound (statement (nestedWithin levels) (bodyWithin levels) lifetime scope) inBlock)
  parameterRounds : ∀ scope,
    Bounded (fun fuel _ => parametersLoop scope fuel) (parametersRound scope)
  indexTypeRounds : Bounded (fun fuel _ => indexTypesLoop fuel) indexTypesRound
  argumentRounds : ∀ levels scope,
    Bounded (fun fuel _ => argumentsLoop ((nestedWithin levels).conditional scope) fuel)
      (argumentsRound ((nestedWithin levels).conditional scope))
  indexRounds : ∀ levels scope,
    Bounded (indexLoop ((nestedWithin levels).conditional scope))
      (indexRound ((nestedWithin levels).conditional scope))
  productRounds : ∀ levels scope,
    ChainBounded (unary (nestedWithin levels) scope)
      (signOperator [('*', Arithmetic.multiply), ('/', Arithmetic.divide)]) combineMultiplicative
      .multExpression
  sumRounds : ∀ levels scope,
    ChainBounded (multiplicative (nestedWithin levels) scope)
      (signOperator [('+', Arithmetic.add), ('-', Arithmetic.subtract)]) combineAdditive
      .additiveExpression
  conjunctionRounds : ∀ levels scope,
    ChainBounded (relational (nestedWithin levels) scope) (wordOperator "and")
      (combineLogical .multiply) .logicalAndExpression
  disjunctionRounds : ∀ levels scope,
    ChainBounded (logicalAnd (nestedWithin levels) scope) (wordOperator "or")
      (combineLogical .add) .logicalOrExpression
  /-- A rule goes into nested rules only behind its start: whatever these would do there or in front
  of it makes no difference. A rule that begins with a nested rule starts that one where it starts
  itself. -/
  nested : ∀ {α : Type} (production : Production α) (nested : Nested) (body : BlockBody)
    (s : ParseState),
    Replaces s.cursor (!production.beginsNested) production.levels nested body →
      production.rule s = production.opened nested body s
  unit : ∀ levels lifetime scope nested body s, Replaces s.cursor true levels nested body →
    statements (nestedWithin levels) (bodyWithin levels) lifetime scope s =
      statements nested body lifetime scope s
  /-- Nested rules have a level less, and fail where none is left. -/
  deeper : ∀ levels lifetime scope,
    (nestedWithin (levels + 1)).conditional scope =
        (Production.conditionalExpression levels scope).rule ∧
      (nestedWithin (levels + 1)).unary scope = (Production.unary levels scope).rule ∧
      bodyWithin (levels + 1) lifetime scope =
        statements (nestedWithin levels) (bodyWithin levels) lifetime scope
  deepest : ∀ lifetime scope, (nestedWithin 0).conditional scope = tooDeep ∧
    (nestedWithin 0).unary scope = tooDeep ∧ bodyWithin 0 lifetime scope = tooDeep
  /-- Types have no level, but the type of the elements of an array is behind the start, too. -/
  types : ∀ (inner : Rule Ty) (s : ParseState),
    (∀ s', s.cursor.Reaches true s'.cursor → typeName s' = inner s') → typeName s = typeStep inner s
  /-- Reading a source ends, with or without fuel. -/
  program : ∀ source registry, ∃ n ≤ source.toList.length,
    Rounds
      (statementsRound
        (statement (nestedWithin maxNesting) (bodyWithin maxNesting) .static .root) false)
      n 0 { cursor := .ofSource source, registry }
      (Grammar.program { cursor := .ofSource source, registry })

theorem statements_bounded (levels : Nat) (lifetime : Lifetime) (scope : Scope) (inBlock : Bool) :
    Bounded
      (statementsLoop (statement (nestedWithin levels) (bodyWithin levels) lifetime scope) inBlock)
      (statementsRound (statement (nestedWithin levels) (bodyWithin levels) lifetime scope)
        inBlock) :=
  (statementsLoop_repeats _ _).bounded fun c => statementsRound_steps
    (statement_advances (bodyWithin_advances levels c) (nestedWithin_advances levels c) lifetime
      scope) inBlock

/-- Every rule but that of a whole unit gets on when it matches, so every loop and every nesting of
rules ends. -/
theorem rules_progress : RulesProgress where
  matched production := production.matched
  inside production := by
    intro source low s s' a stands run
    have behind := (production.matched run).stands stands
    exact ⟨behind, behind.marks.inside⟩
  statementRounds := statements_bounded
  parameterRounds scope :=
    (parametersLoop_repeats scope).bounded fun _ _ => parametersRound_steps scope false
  indexTypeRounds := indexTypesLoop_repeats.bounded fun _ _ => indexTypesRound_steps false
  argumentRounds levels scope :=
    argumentsLoop_repeats.bounded fun c _ =>
      argumentsRound_steps (nestedWithin_matches levels scope c).1 false
  indexRounds levels scope :=
    indexLoop_repeats.bounded fun c =>
      indexRound_steps ((nestedWithin_advances levels c).conditional scope)
  productRounds levels scope :=
    chainBounded (fun c => (unary_advances (nestedWithin_advances levels c) scope).past)
      fun _ _ _ => reaches_signOperator
  sumRounds levels scope :=
    chainBounded (fun c => (multiplicative_advances (nestedWithin_advances levels c) scope).past)
      fun _ _ _ => reaches_signOperator
  conjunctionRounds levels scope :=
    chainBounded (fun c => (relational_advances (nestedWithin_advances levels c) scope).past)
      fun _ _ _ => reaches_wordOperator (by decide)
  disjunctionRounds levels scope :=
    chainBounded (fun c => (logicalAnd_advances (nestedWithin_advances levels c) scope).past)
      fun _ _ _ => reaches_wordOperator (by decide)
  nested production _ _ s replaces := (production.advances replaces).same (.refl s.cursor)
  unit levels lifetime scope _ _ s replaces :=
    (statements_steps replaces.nested_advances replaces.body_advances lifetime scope s
      (.refl s.cursor)).1
  deeper _ _ _ := ⟨rfl, rfl, rfl⟩
  deepest _ _ := ⟨rfl, rfl, rfl⟩
  types _ _ := typeName_eq
  program source registry :=
    statements_bounded maxNesting .static .root false _ 0
      { cursor := .ofSource source, registry } (Nat.lt_succ_self _)

end StackScript.Grammar
