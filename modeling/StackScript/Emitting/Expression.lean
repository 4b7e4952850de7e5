import StackScript.Emitting.Rule
import StackScript.Tree.Code

namespace StackScript.Emitting

/-! Expressions: each rule writes the code of what it reads, operands in front of operators, and
gives nothing but its type. -/

open Grammar (Side cursor registry moveTo acceptOne acceptSymbol acceptKeyword skipSpace remaining)

/-- The rules for what stands one level of nesting deeper. -/
structure Nested where
  conditional : Scope → Rule Ty
  unary : Scope → Rule Ty

/-- Repeats operators of one precedence, grouping to the left, in at most `fuel` rounds. -/
def chainLoop {ω : Type} (operand : Rule Ty) (operator : Cursor → Option (ω × Cursor))
    (operation : ω → Arithmetic) (result : ω → Ty → Ty → Except Cause Ty) (cause : Cause) :
    (fuel : Nat) → Ty → Body Ty
  | 0, lhs => pure lhs
  | fuel + 1, lhs => do
      match ← scan (acceptOne operator) with
      | none => pure lhs
      | some op =>
          let rhs ← operand.orFail cause
          match result op lhs rhs with
          | .ok ty => do
              let _ ← emit (.arith (operation op))
              chainLoop operand operator operation result cause fuel ty
          | .error mismatch => Body.fail mismatch []

/-- Operands with operators of one precedence between them. -/
def chain {ω : Type} (operand : Rule Ty) (operator : Cursor → Option (ω × Cursor))
    (operation : ω → Arithmetic) (result : ω → Ty → Ty → Except Cause Ty) (cause : Cause) :
    Rule Ty :=
  Body.close do
    let first ← operand.orPass cause
    chainLoop operand operator operation result cause ((← scan remaining) + 1) first

/-- Conjunction and disjunction take truth values only. -/
def logicalTy (_ : Unit) (lhs rhs : Ty) : Except Cause Ty :=
  if lhs = .bool && rhs = .bool then .ok .bool else .error .expectedBooleanDatatype

/-- Sums of numbers, and of strings. -/
def additiveTy (_ : Arithmetic) (lhs rhs : Ty) : Except Cause Ty :=
  if lhs.isNumeric && rhs.isNumeric then .ok (Grammar.numericResult lhs rhs)
  else if lhs = .str && rhs = .str then .ok .str
  else .error .datatypeMismatch

/-- Products and quotients of numbers; a quotient is a float. -/
def multiplicativeTy (operation : Arithmetic) (lhs rhs : Ty) : Except Cause Ty :=
  if lhs.isNumeric && rhs.isNumeric then
    .ok (if operation = .divide then .float else Grammar.numericResult lhs rhs)
  else .error .datatypeMismatch

/-- Arguments between commas, in at most `fuel` rounds. -/
def argumentsLoop (conditional : Rule Ty) : (fuel : Nat) → Body (List Ty)
  | 0 => Body.fail .argumentListExpression []
  | fuel + 1 => do
      let first ← conditional.orFail .argumentListExpression
      if ← scan (acceptSymbol ',') then
        let rest ← argumentsLoop conditional fuel
        pure (first :: rest)
      else pure [first]

def arguments (conditional : Rule Ty) : Rule (List Ty) :=
  Body.close do argumentsLoop conditional ((← scan remaining) + 1)

/-- Index lists behind an array, in at most `fuel` rounds. -/
def indexLoop (conditional : Rule Ty) : (fuel : Nat) → Ty → Body Ty
  | 0, array => pure array
  | fuel + 1, array => do
      let c ← scan cursor
      if c.isAt '[' then
        scan (moveTo c.advance)
        let place := c.advance.position
        match ← (arguments conditional).attempt with
        | .error r => Body.fail .primaryExpression [.failure place .arrayIndex r.nodes]
        | .ok indexes =>
            if ← scan (acceptSymbol ']') then
              match Grammar.elementTy? array indexes with
              | some ty => do
                  let _ ← emit (.putIndAddr (UInt8.ofNat indexes.length))
                  indexLoop conditional fuel ty
              | none => Body.fail .arrayIndex [.leaf place .arrayDatatype]
            else Body.fail .primaryExpressionMissingClosingBracket []
      else pure array

/-- The arguments of a call, between parentheses that follow the name at once. -/
def callArguments (conditional : Rule Ty) (params : List Ty) : Body (List Ty) := do
  let c ← scan cursor
  if c.isAt '(' then
    scan (moveTo c.advance)
    if ← (if params.isEmpty then scan (acceptSymbol ')') else pure false) then pure []
    else
      let args ← (arguments conditional).orFail .argumentList
      if ← scan (acceptSymbol ')') then pure args else Body.fail .argumentList []
  else Body.fail .missingFunctionArgumentList []

/-- A variable with its index lists, or a call. On the left side a function stands for the cell of
its result. -/
def primary (conditional : Rule Ty) (side : Side) (scope : Scope) : Rule Ty :=
  Body.close do
    let (_, found) ← Rule.orPass (scan (Grammar.identifier scope .inherited)) .primaryExpression
    let r ← scan registry
    match found, found.bind r.get? with
    | some index, some symbol =>
        if symbol.kind.isFunction then
          if side = .left then do
            let _ ← emit (.putDAddr (UInt32.ofNat index))
            pure symbol.ty
          else
            let args ← callArguments conditional symbol.params
            if Ty.callable symbol.params args then do
              let _ ← emit (.call (UInt32.ofNat index))
              pure symbol.ty
            else Body.fail .incompatibleFunctionArguments []
        else
          let _ ← emit
            (if symbol.kind = .dynamicVar then .putDAddr (UInt32.ofNat index)
              else .putAddr (UInt32.ofNat index))
          indexLoop conditional ((← scan remaining) + 1) symbol.ty
    | _, _ => Body.fail .unknownIdentifier []

/-- A name behind dots, of which each leaves one scope. `tried` are the failures of the
alternatives before. -/
def dotted (nested : Nested) (side : Side) (scope : Scope) (tried : List Diagnostic) :
    Body Ty := do
  let c ← scan cursor
  let dots := (c.wordOf (· = '.')).length
  scan (moveTo (c.skipWhile (· = '.')))
  let lookup := Grammar.reduceBy scope dots
  match ← (primary (nested.conditional lookup) side lookup).attempt with
  | .ok ty =>
      let c ← scan cursor
      if c.isAt '.' then
        Body.fail .postfixExpression (tried ++ [.leaf c.position .postfixExpression])
      else pure ty
  | .error r =>
      throw
        { signal := if dots = 0 then r.signal else .broken
          cause := .postfixExpression
          children := tried ++ r.nodes }

def parenthesized (nested : Nested) (scope : Scope) (tried : List Diagnostic) : Body Ty := do
  match ← (nested.conditional scope).attempt with
  | .ok ty =>
      if ← scan (acceptSymbol ')') then pure ty else Body.fail .postfixExpression tried
  | .error r => Body.fail .postfixExpression (tried ++ r.nodes)

def target (nested : Nested) (scope : Scope) : Rule Ty :=
  Body.close do
    scan skipSpace
    dotted nested .left scope []

def literal : Rule Ty := do
  let l ← scan Grammar.literal
  let _ ← emit l.instruction
  pure l.ty

/-- What operators are applied to: a literal, an expression between parentheses, or a name. -/
def operand (nested : Nested) (scope : Scope) : Rule Ty :=
  Body.close do
    scan skipSpace
    match ← literal.attempt with
    | .ok ty => pure ty
    | .error r =>
        if r.signal = .broken then Body.fail .postfixExpression r.nodes
        else if ← scan (acceptSymbol '(') then parenthesized nested scope r.nodes
        else dotted nested .right scope r.nodes

/-- Negation of a number with a sign, or of a truth value with a word. -/
def unary (nested : Nested) (scope : Scope) : Rule Ty :=
  Body.close do
    if ← scan (acceptSymbol '-') then
      let ty ← (nested.unary scope).orFail .unaryExpression
      if ty.isNumeric then do
        let _ ← emit .neg
        pure ty
      else Body.fail .datatypeMismatch []
    else if ← scan (acceptKeyword "not".toList) then
      let ty ← (nested.unary scope).orFail .unaryExpression
      if ty = .bool then do
        let _ ← emit .neg
        pure ty
      else Body.fail .datatypeMismatch []
    else (operand nested scope).orPass .unaryExpression

def multiplicative (nested : Nested) (scope : Scope) : Rule Ty :=
  chain (unary nested scope)
    (Grammar.signOperator [('*', Arithmetic.multiply), ('/', Arithmetic.divide)])
    id multiplicativeTy .multExpression

def additive (nested : Nested) (scope : Scope) : Rule Ty :=
  chain (multiplicative nested scope)
    (Grammar.signOperator [('+', Arithmetic.add), ('-', Arithmetic.subtract)])
    id additiveTy .additiveExpression

/-- At most one relation stands between two sums. -/
def relational (nested : Nested) (scope : Scope) : Rule Ty :=
  Body.close do
    let lhs ← (additive nested scope).orPass .relationalExpression
    match ← scan (acceptOne fun c => c.firstOf? Cursor.operator? Grammar.relationWords) with
    | none => pure lhs
    | some relation =>
        let rhs ← (additive nested scope).orFail .relationalExpression
        if lhs.consistent rhs then do
          let _ ← emit (.compare relation)
          pure .bool
        else Body.fail .datatypeMismatch []

def logicalAnd (nested : Nested) (scope : Scope) : Rule Ty :=
  chain (relational nested scope) (Grammar.wordOperator "and") (fun _ => .multiply) logicalTy
    .logicalAndExpression

def logicalOr (nested : Nested) (scope : Scope) : Rule Ty :=
  chain (logicalAnd nested scope) (Grammar.wordOperator "or") (fun _ => .add) logicalTy
    .logicalOrExpression

/-- A condition with two branches, or only what could be a condition. Where the jumps over the
branches go is known only behind these. -/
def conditionalExpression (nested : Nested) (scope : Scope) : Rule Ty :=
  Body.close do
    let condition ← (logicalOr nested scope).orPass .conditionalExpression
    if ← scan (acceptSymbol '?') then
      if condition = .bool then
        let branch ← emit (.jumpIfFalse 0)
        let whenTrue ← (nested.conditional scope).orFail .conditionalExpressionTrue
        let leave ← emit (.jump 0)
        if ← scan (acceptSymbol ':') then
          land branch
          let whenFalse ← (nested.conditional scope).orFail .conditionalExpressionFalse
          if whenTrue.consistent whenFalse then do
            land leave
            pure ((whenTrue.join? whenFalse).getD whenTrue)
          else Body.fail .conditionalExpressionStatementsDatatypes []
        else
          Body.fail .conditionalExpression
            [.leaf (← scan cursor).position .condExpMissingColon]
      else Body.fail .conditionalExpressionConditionDatatype []
    else pure condition

/-- The rules for what is nested. The bound is that of a recursion; at `maxNesting`, a rule from
outside finds all levels used up before it is reached. -/
def nestedWithin : (bound : Nat) → Nested
  | 0 => { conditional := fun _ => scan Grammar.tooDeep, unary := fun _ => scan Grammar.tooDeep }
  | bound + 1 =>
      { conditional := fun scope =>
          (conditionalExpression (nestedWithin bound) scope).deeper
        unary := fun scope => (unary (nestedWithin bound) scope).deeper }

end StackScript.Emitting
