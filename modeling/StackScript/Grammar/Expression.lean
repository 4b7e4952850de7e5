import StackScript.Grammar.Word

namespace StackScript.Grammar

/-! Expressions, from the loosest operator to the tightest. -/

/-- An expression with its type. -/
structure Typed where
  expr : Expr
  ty : Ty

/-- The rules for what stands one level of nesting deeper. -/
structure Nested where
  conditional : Scope → Rule Typed
  unary : Scope → Rule Typed

/-- Whether a place is assigned to or read. -/
inductive Side where
  | left
  | right
  deriving DecidableEq, Repr

/-- Repeats operators of one precedence, grouping to the left, in at most `fuel` rounds. -/
def chainLoop {ω : Type} (operand : Rule Typed) (operator : Cursor → Option (ω × Cursor))
    (combine : ω → Typed → Typed → Except Cause Typed) (cause : Cause) :
    (fuel : Nat) → Typed → Body Typed
  | 0, lhs => pure lhs
  | fuel + 1, lhs => do
      match ← acceptOne operator with
      | none => pure lhs
      | some op =>
          let rhs ← operand.orFail cause
          match combine op lhs rhs with
          | .ok result => chainLoop operand operator combine cause fuel result
          | .error mismatch => Body.fail mismatch []

/-- Operands with operators of one precedence between them. -/
def chain {ω : Type} (operand : Rule Typed) (operator : Cursor → Option (ω × Cursor))
    (combine : ω → Typed → Typed → Except Cause Typed) (cause : Cause) : Rule Typed :=
  Body.close do
    let first ← operand.orPass cause
    chainLoop operand operator combine cause ((← remaining) + 1) first

/-- One of two characters that is not the start of an assignment operator. -/
def signOperator {ω : Type} (signs : List (Char × ω)) (c : Cursor) : Option (ω × Cursor) :=
  let c := c.skipSpace
  match c.rest with
  | [] => none
  | char :: rest =>
      match signs.lookup char with
      | some op => if rest.head? = some '=' then none else some (op, c.advance)
      | none => none

def wordOperator (word : String) (c : Cursor) : Option (Unit × Cursor) :=
  (c.keyword? word.toList).map fun c' => ((), c')

/-- Conjunction and disjunction take truth values only. -/
def combineLogical (operation : Arithmetic) (_ : Unit) (lhs rhs : Typed) : Except Cause Typed :=
  if lhs.ty = .bool && rhs.ty = .bool then
    .ok { expr := .arith operation lhs.expr rhs.expr, ty := .bool }
  else .error .expectedBooleanDatatype

/-- Two numbers give a float as soon as one of them is a float. -/
def numericResult (lhs rhs : Ty) : Ty :=
  (lhs.join? rhs).getD .float

/-- Sums of numbers, and of strings. -/
def combineAdditive (operation : Arithmetic) (lhs rhs : Typed) : Except Cause Typed :=
  let expr := .arith operation lhs.expr rhs.expr
  if lhs.ty.isNumeric && rhs.ty.isNumeric then
    .ok { expr, ty := numericResult lhs.ty rhs.ty }
  else if lhs.ty = .str && rhs.ty = .str then .ok { expr, ty := .str }
  else .error .datatypeMismatch

/-- Products and quotients of numbers; a quotient is a float. -/
def combineMultiplicative (operation : Arithmetic) (lhs rhs : Typed) : Except Cause Typed :=
  if lhs.ty.isNumeric && rhs.ty.isNumeric then
    .ok
      { expr := .arith operation lhs.expr rhs.expr
        ty := if operation = .divide then .float else numericResult lhs.ty rhs.ty }
  else .error .datatypeMismatch

/-- Arguments between commas, in at most `fuel` rounds. -/
def argumentsLoop (conditional : Rule Typed) : (fuel : Nat) → Body (List Typed)
  | 0 => Body.fail .argumentListExpression []
  | fuel + 1 => do
      let first ← conditional.orFail .argumentListExpression
      if ← acceptSymbol ',' then
        let rest ← argumentsLoop conditional fuel
        pure (first :: rest)
      else pure [first]

def arguments (conditional : Rule Typed) : Rule (List Typed) :=
  Body.close do argumentsLoop conditional ((← remaining) + 1)

/-- The type of an element, if the index types are exactly the declared ones. -/
def elementTy? (array : Ty) (indexes : List Ty) : Option Ty :=
  match array with
  | .array index element => if index.map Ty.scalar = indexes then some element else none
  | .scalar _ => none

/-- Index lists behind an array, in at most `fuel` rounds. -/
def indexLoop (conditional : Rule Typed) : (fuel : Nat) → Typed → Body Typed
  | 0, array => pure array
  | fuel + 1, array => do
      let c ← cursor
      if c.isAt '[' then
        moveTo c.advance
        let place := c.advance.position
        match ← (arguments conditional).attempt with
        | .error r => Body.fail .primaryExpression [.failure place .arrayIndex r.nodes]
        | .ok indexes =>
            if ← acceptSymbol ']' then
              match elementTy? array.ty (indexes.map Typed.ty) with
              | some ty =>
                  indexLoop conditional fuel
                    { expr := .element array.expr (indexes.map Typed.expr), ty }
              | none => Body.fail .arrayIndex [.leaf place .arrayDatatype]
            else Body.fail .primaryExpressionMissingClosingBracket []
      else pure array

/-- The arguments of a call, between parentheses that follow the name at once. -/
def callArguments (conditional : Rule Typed) (params : List Ty) : Body (List Typed) := do
  let c ← cursor
  if c.isAt '(' then
    moveTo c.advance
    if ← (if params.isEmpty then acceptSymbol ')' else pure false) then pure []
    else
      let args ← (arguments conditional).orFail .argumentList
      if ← acceptSymbol ')' then pure args else Body.fail .argumentList []
  else Body.fail .missingFunctionArgumentList []

/-- A variable with its index lists, or a call. On the left side a function stands for the cell of
its result. -/
def primary (conditional : Rule Typed) (side : Side) (scope : Scope) : Rule Typed :=
  Body.close do
    let (_, found) ← (identifier scope .inherited).orPass .primaryExpression
    let r ← registry
    match found, found.bind r.get? with
    | some index, some symbol =>
        if symbol.kind.isFunction then
          if side = .left then pure { expr := .cell .dynamic index, ty := symbol.ty }
          else
            let args ← callArguments conditional symbol.params
            if Ty.callable symbol.params (args.map Typed.ty) then
              pure { expr := .call index (args.map Typed.expr), ty := symbol.ty }
            else Body.fail .incompatibleFunctionArguments []
        else
          let lifetime := if symbol.kind = .dynamicVar then .dynamic else .static
          indexLoop conditional ((← remaining) + 1)
            { expr := .cell lifetime index, ty := symbol.ty }
    | _, _ => Body.fail .unknownIdentifier []

/-- The scope that is left when a name stands behind some dots. -/
def reduceBy (scope : Scope) : Nat → Scope
  | 0 => scope
  | dots + 1 => reduceBy scope.reduce dots

/-- A name behind dots, of which each leaves one scope. `tried` are the failures of the
alternatives before. -/
def dotted (nested : Nested) (side : Side) (scope : Scope) (tried : List Diagnostic) :
    Body Typed := do
  let c ← cursor
  let dots := (c.wordOf (· = '.')).length
  moveTo (c.skipWhile (· = '.'))
  let lookup := reduceBy scope dots
  match ← (primary (nested.conditional lookup) side lookup).attempt with
  | .ok typed =>
      let c ← cursor
      if c.isAt '.' then
        Body.fail .postfixExpression (tried ++ [.leaf c.position .postfixExpression])
      else pure typed
  | .error r =>
      throw
        { signal := if dots = 0 then r.signal else .broken
          cause := .postfixExpression
          children := tried ++ r.nodes }

def parenthesized (nested : Nested) (scope : Scope) (tried : List Diagnostic) : Body Typed := do
  match ← (nested.conditional scope).attempt with
  | .ok typed =>
      if ← acceptSymbol ')' then pure typed else Body.fail .postfixExpression tried
  | .error r => Body.fail .postfixExpression (tried ++ r.nodes)

def target (nested : Nested) (scope : Scope) : Rule Typed :=
  Body.close do
    skipSpace
    dotted nested .left scope []

/-- What operators are applied to: a literal, an expression between parentheses, or a name. -/
def operand (nested : Nested) (scope : Scope) : Rule Typed :=
  Body.close do
    skipSpace
    match ← literal.attempt with
    | .ok l => pure { expr := .literal l, ty := l.ty }
    | .error r =>
        if r.signal = .broken then Body.fail .postfixExpression r.nodes
        else if ← acceptSymbol '(' then parenthesized nested scope r.nodes
        else dotted nested .right scope r.nodes

/-- Negation of a number with a sign, or of a truth value with a word. -/
def unary (nested : Nested) (scope : Scope) : Rule Typed :=
  Body.close do
    if ← acceptSymbol '-' then
      let e ← (nested.unary scope).orFail .unaryExpression
      if e.ty.isNumeric then pure { e with expr := .negate e.expr }
      else Body.fail .datatypeMismatch []
    else if ← acceptKeyword "not".toList then
      let e ← (nested.unary scope).orFail .unaryExpression
      if e.ty = .bool then pure { e with expr := .negate e.expr }
      else Body.fail .datatypeMismatch []
    else (operand nested scope).orPass .unaryExpression

def multiplicative (nested : Nested) (scope : Scope) : Rule Typed :=
  chain (unary nested scope) (signOperator [('*', Arithmetic.multiply), ('/', Arithmetic.divide)])
    combineMultiplicative .multExpression

def additive (nested : Nested) (scope : Scope) : Rule Typed :=
  chain (multiplicative nested scope)
    (signOperator [('+', Arithmetic.add), ('-', Arithmetic.subtract)])
    combineAdditive .additiveExpression

/-- Relations, a longer one before each that it starts with. -/
def relationWords : List (List Char × Relation) :=
  [("==".toList, .equal), ("!=".toList, .notEqual), ("<=".toList, .lessEqual),
    (">=".toList, .greaterEqual), ("<".toList, .less), (">".toList, .greater)]

/-- At most one relation stands between two sums. -/
def relational (nested : Nested) (scope : Scope) : Rule Typed :=
  Body.close do
    let lhs ← (additive nested scope).orPass .relationalExpression
    match ← acceptOne fun c => c.firstOf? Cursor.operator? relationWords with
    | none => pure lhs
    | some relation =>
        let rhs ← (additive nested scope).orFail .relationalExpression
        if lhs.ty.consistent rhs.ty then
          pure { expr := .compare relation lhs.expr rhs.expr, ty := .bool }
        else Body.fail .datatypeMismatch []

def logicalAnd (nested : Nested) (scope : Scope) : Rule Typed :=
  chain (relational nested scope) (wordOperator "and") (combineLogical .multiply)
    .logicalAndExpression

def logicalOr (nested : Nested) (scope : Scope) : Rule Typed :=
  chain (logicalAnd nested scope) (wordOperator "or") (combineLogical .add) .logicalOrExpression

/-- A condition with two branches, or only what could be a condition. -/
def conditionalExpression (nested : Nested) (scope : Scope) : Rule Typed :=
  Body.close do
    let condition ← (logicalOr nested scope).orPass .conditionalExpression
    if ← acceptSymbol '?' then
      if condition.ty = .bool then
        let whenTrue ← (nested.conditional scope).orFail .conditionalExpressionTrue
        if ← acceptSymbol ':' then
          let whenFalse ← (nested.conditional scope).orFail .conditionalExpressionFalse
          if whenTrue.ty.consistent whenFalse.ty then
            pure
              { expr := .choice condition.expr whenTrue.expr whenFalse.expr
                ty := (whenTrue.ty.join? whenFalse.ty).getD whenTrue.ty }
          else Body.fail .conditionalExpressionStatementsDatatypes []
        else
          Body.fail .conditionalExpression
            [.leaf (← cursor).position .condExpMissingColon]
      else Body.fail .conditionalExpressionConditionDatatype []
    else pure condition

/-- The rules for what is nested when so many more levels are allowed. -/
def nestedWithin : (levels : Nat) → Nested
  | 0 => { conditional := fun _ => tooDeep, unary := fun _ => tooDeep }
  | levels + 1 =>
      { conditional := conditionalExpression (nestedWithin levels)
        unary := unary (nestedWithin levels) }

end StackScript.Grammar
