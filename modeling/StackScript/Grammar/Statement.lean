import StackScript.Grammar.Expression

namespace StackScript.Grammar

/-! Statements: assignments, declarations, blocks and functions. -/

/-- A longer operator before each that it starts with. -/
def updateWords : List (List Char × Update) :=
  [("+=".toList, .add), ("-=".toList, .subtract), ("*=".toList, .multiply), ("/=".toList, .divide),
    ("=".toList, .set)]

/-- Which types an assignment allows. -/
def updateAllowed (update : Update) (target value : Ty) : Bool :=
  target.assignable value &&
    match update with
    | .set => true
    | .add | .subtract =>
        (target.isNumeric && value.isNumeric) || (target = .str && value = .str) ||
          (target.isArray && value.isArray)
    | .multiply => target.isNumeric && value.isNumeric
    | .divide => target = .float && value.isNumeric

def assignment (nested : Nested) (scope : Scope) : Rule Stmt :=
  Body.close do
    let place ← (target nested scope).orPass .assignmentExpression
    match ← acceptOne fun c => c.firstOf? Cursor.operator? updateWords with
    | none =>
        Body.fail .assignmentExpression [.leaf (← cursor).position .assignmentOperator]
    | some update =>
        let value ← (nested.conditional scope).orFail .assignmentExpression
        if updateAllowed update place.ty value.ty then
          pure (.assign place.expr update value.expr)
        else Body.fail .assignmentDatatype []

/-- A type and a name that is new in its scope; gives the number of the new symbol and its type. -/
def variableDeclaration (lifetime : Lifetime) (scope : Scope) : Rule (Nat × Ty) :=
  Body.close do
    let start ← cursor
    let ty ← typeName.orPass .variableDeclaration
    let (name, _) ← (identifier scope .exact).orFail .variableDeclaration
    let kind := match lifetime with
      | .static => .var
      | .dynamic => .dynamicVar
    match ← declare? { Symbol.declare kind scope name ty with declaredAt := start.position } with
    | some index => pure (index, ty)
    | none => Body.fail .duplicateVariableDeclaration []

/-- Parameters between commas, in at most `fuel` rounds. -/
def parametersLoop (scope : Scope) : (fuel : Nat) → Body (List (Nat × Ty))
  | 0 => Body.fail .functionParametersDeclaration []
  | fuel + 1 => do
      let first ← (variableDeclaration .dynamic scope).orFail .functionParametersDeclaration
      if ← acceptSymbol ',' then
        let rest ← parametersLoop scope fuel
        pure (first :: rest)
      else pure [first]

def parameters (scope : Scope) : Rule (List (Nat × Ty)) :=
  Body.close do parametersLoop scope ((← remaining) + 1)

def parameterList (scope : Scope) : Body (List (Nat × Ty)) := do
  if ← acceptSymbol '(' then
    if ← acceptSymbol ')' then pure []
    else
      let params ← (parameters scope).orFail .argumentListDeclaration
      if ← acceptSymbol ')' then pure params else Body.fail .argumentListDeclaration []
  else pure []

/-- The rule for the statements of a block, one level deeper. -/
abbrev BlockBody := Lifetime → Scope → Rule (List Stmt)

def block (body : BlockBody) (lifetime : Lifetime) (scope : Scope) : Rule (List Stmt) :=
  Body.close do
    if ← acceptSymbol '\x7b' then
      let stmts ← (body lifetime scope).orFail .blockStatement
      if ← acceptSymbol '\x7d' then pure stmts else Body.fail .blockStatement []
    else Body.pass .blockStatement []

/-- A block as a statement, with the variables that are declared directly in it. -/
def blockStatement (body : BlockBody) (lifetime : Lifetime) (scope : Scope) : Rule Stmt := do
  let stmts ← block body lifetime scope
  pure (.block scope ((← registry).declaredIn scope) stmts)

def functionDefinition (body : BlockBody) (scope : Scope) : Rule Stmt :=
  Body.close do
    let start ← cursor
    if ← acceptKeyword "function".toList then
      let (name, existing) ← (identifier scope .exact).orFail .functionDefinition
      if existing.isSome then Body.fail .functionNameInUse []
      else
        let inside := scope.child name
        let params ← parameterList inside
        if ← acceptKeyword "of".toList then
          let ty ← typeName.orFail .functionTypeDeclaration
          let symbol :=
            { Symbol.declare .fn scope name ty with
              params := params.map Prod.snd
              declaredAt := start.position }
          match ← declare? symbol with
          | none => Body.fail .functionNameInUse []
          | some index =>
              let stmts ← (block body .dynamic inside).orFail .functionDefinition
              pure (.function inside index (params.map Prod.fst) stmts)
        else Body.fail .functionTypeDeclaration []
    else Body.pass .functionDefinition []

/-- A statement; `opened` scopes precede it, and their number names the scope of a block. -/
def statement (nested : Nested) (body : BlockBody) (lifetime : Lifetime) (scope : Scope)
    (opened : Nat) : Rule Stmt :=
  Rule.or (assignment nested scope) <|
    Rule.or ((fun declared => .declare declared.1) <$> variableDeclaration lifetime scope) <|
    Rule.or (blockStatement body lifetime (scope.child (toString opened))) <|
    functionDefinition body scope

/-- A failure of a statement under the node of the whole unit, at the start of the statement. -/
def unitFailure (start : Cursor) (r : Rejection) : Rejection where
  signal := r.signal
  nodes := [.failure start.position .compilationUnit r.nodes]

/-- Statements up to the end of the text or, in a block, up to its closing brace, in at most
`fuel` rounds. -/
def statementsLoop (next : (opened : Nat) → Rule Stmt) (inBlock : Bool) :
    (fuel opened : Nat) → Rule (List Stmt)
  | 0, _ => pure []
  | fuel + 1, opened => do
      skipSpace
      let start ← cursor
      match start.peek?, inBlock with
      | none, true => throw (unitFailure start { signal := .broken, nodes := [] })
      | none, false => pure []
      | some '\x7d', true => pure []
      | _, _ =>
          match ← (next opened).attempt with
          | .error r =>
              moveTo start
              throw (unitFailure start r)
          | .ok stmt =>
              let opened := if stmt.opensScope then opened + 1 else opened
              let rest ← statementsLoop next inBlock fuel opened
              pure (stmt :: rest)

/-- The statements of a unit at one level of nesting. -/
def statements (nested : Nested) (body : BlockBody) (lifetime : Lifetime) (scope : Scope) :
    Rule (List Stmt) := do
  statementsLoop (statement nested body lifetime scope) (!scope.isRoot) ((← remaining) + 1) 0

/-- Bodies of blocks when so many more levels are allowed. -/
def bodyWithin : (levels : Nat) → BlockBody
  | 0 => fun _ _ => tooDeep
  | levels + 1 => statements (nestedWithin levels) (bodyWithin levels)

/-- Expressions and blocks may be nested this deep. -/
def maxNesting : Nat := 64

def program : Rule (List Stmt) :=
  statements (nestedWithin maxNesting) (bodyWithin maxNesting) .static .root

end StackScript.Grammar
