import StackScript.Compilation
import StackScript.Emitting.Expression

namespace StackScript.Emitting

/-! Statements, and programs that are written in one pass. -/

open Grammar (cursor registry moveTo acceptOne acceptSymbol acceptKeyword skipSpace remaining
  typeName declare?)

def assignment (nested : Nested) (scope : Scope) : Rule Unit :=
  Body.close do
    let place ← (target nested scope).orPass .assignmentExpression
    match ← scan (acceptOne fun c => c.firstOf? Cursor.operator? Grammar.updateWords) with
    | none =>
        Body.fail .assignmentExpression [.leaf (← scan cursor).position .assignmentOperator]
    | some update =>
        let value ← (nested.conditional scope).orFail .assignmentExpression
        if Grammar.updateAllowed update place value then do
          let _ ← emit (.assign update)
        else Body.fail .assignmentDatatype []

/-- A type and a name that is new in its scope; a variable of a frame has to be allocated. -/
def variableDeclaration (lifetime : Lifetime) (scope : Scope) : Rule (Nat × Ty) := do
  let declared ← scan (Grammar.variableDeclaration lifetime scope)
  if lifetime = .dynamic then addLocal declared.1
  pure declared

/-- Parameters between commas, in at most `fuel` rounds. They are no locals. -/
def parametersLoop (scope : Scope) : (fuel : Nat) → Body (List (Nat × Ty))
  | 0 => Body.fail .functionParametersDeclaration []
  | fuel + 1 => do
      let (first, _) ← ((variableDeclaration .dynamic scope).owning .locals []).orFail
        .functionParametersDeclaration
      if ← scan (acceptSymbol ',') then
        let rest ← parametersLoop scope fuel
        pure (first :: rest)
      else pure [first]

def parameters (scope : Scope) : Rule (List (Nat × Ty)) :=
  Body.close do parametersLoop scope ((← scan remaining) + 1)

def parameterList (scope : Scope) : Body (List (Nat × Ty)) := do
  if ← scan (acceptSymbol '(') then
    if ← scan (acceptSymbol ')') then pure []
    else
      let params ← (parameters scope).orFail .argumentListDeclaration
      if ← scan (acceptSymbol ')') then pure params else Body.fail .argumentListDeclaration []
  else pure []

/-- The rule for the statements of a block, one level deeper. -/
abbrev BlockBody := Lifetime → Scope → Rule Unit

def block (body : BlockBody) (lifetime : Lifetime) (scope : Scope) : Rule Unit :=
  Body.close do
    if ← scan (acceptSymbol '\x7b') then
      (body lifetime scope).orFail .blockStatement
      if ← scan (acceptSymbol '\x7d') then pure () else Body.fail .blockStatement []
    else Body.pass .blockStatement []

/-- The code of a function, which is written apart from that around it. -/
def functionDefinition (body : BlockBody) (scope : Scope) : Rule CodeUnit :=
  Body.close do
    let start ← scan cursor
    if ← scan (acceptKeyword "function".toList) then
      let (name, existing) ← Rule.orFail (scan (Grammar.identifier scope .exact))
        .functionDefinition
      if existing.isSome then Body.fail .functionNameInUse []
      else
        let inside := scope.child name
        let params ← parameterList inside
        if ← scan (acceptKeyword "of".toList) then
          let ty ← Rule.orFail (scan typeName) .functionTypeDeclaration
          let symbol :=
            { Symbol.declare .fn scope name ty with
              params := params.map Prod.snd
              declaredAt := start.position }
          match ← scan (declare? symbol) with
          | none => Body.fail .functionNameInUse []
          | some index =>
              let (((_, inline), functions), locals) ←
                ((((block body .dynamic inside).owning .code .empty).owning
                  .functions .empty).owning .locals []).orFail .functionDefinition
              pure (functionUnit index (params.map Prod.fst) locals { inline, functions })
        else Body.fail .functionTypeDeclaration []
    else Body.pass .functionDefinition []

/-! The alternatives of a statement. What they write goes to buffers of their own, and is joined to
the others only after they have matched. -/

def assignmentStatement (nested : Nested) (scope : Scope) : Rule Unit := do
  let (_, code) ← (assignment nested scope).owning .code .empty
  append code

def declarationStatement (lifetime : Lifetime) (scope : Scope) : Rule Unit := do
  let _ ← variableDeclaration lifetime scope

def blockStatement (body : BlockBody) (lifetime : Lifetime) (scope : Scope) : Rule Unit := do
  let inside := scope.child (toString (← opened))
  let ((_, code), functions) ←
    ((block body lifetime inside).owning .code .empty).owning .functions .empty
  emitResets ((← scan registry).declaredIn inside)
  append code
  appendFunctions functions
  countScope

def functionStatement (body : BlockBody) (scope : Scope) : Rule Unit := do
  let code ← functionDefinition body scope
  appendFunctions code
  countScope

def statement (nested : Nested) (body : BlockBody) (lifetime : Lifetime) (scope : Scope) :
    Rule Unit :=
  Rule.or (assignmentStatement nested scope) <|
    Rule.or (declarationStatement lifetime scope) <|
    Rule.or (blockStatement body lifetime scope) <|
    functionStatement body scope

/-- Statements up to the end of the text or, in a block, up to its closing brace, in at most
`fuel` rounds. -/
def statementsLoop (next : Rule Unit) (inBlock : Bool) : (fuel : Nat) → Rule Unit
  | 0 => pure ()
  | fuel + 1 => do
      scan skipSpace
      let start ← scan cursor
      if start.peek? = none then
        if inBlock then
          throw (Grammar.unitFailure start { signal := .broken, nodes := [] })
      else if start.isAt '\x7d' && inBlock then pure ()
      else
        match ← next.attempt with
        | .error r =>
            scan (moveTo start)
            throw (Grammar.unitFailure start r)
        | .ok _ => statementsLoop next inBlock fuel

/-- The statements of a unit; the outermost one ends the program. -/
def statements (nested : Nested) (body : BlockBody) (lifetime : Lifetime) (scope : Scope) :
    Rule Unit := do
  let fuel := (← scan remaining) + 1
  let _ ← (statementsLoop (statement nested body lifetime scope) (!scope.isRoot) fuel).owning
    .opened 0
  if scope.isRoot then
    let _ ← emit .stop

/-- Bodies of blocks, with a bound of the recursion as for what is nested in expressions. -/
def bodyWithin : (bound : Nat) → BlockBody
  | 0 => fun _ _ => scan Grammar.tooDeep
  | bound + 1 => fun lifetime scope =>
      (statements (nestedWithin bound) (bodyWithin bound) lifetime scope).deeper

def program : Rule Unit :=
  statements (nestedWithin Grammar.maxNesting) (bodyWithin Grammar.maxNesting) .static .root

/-- Nothing is written yet but the functions that every program has. -/
def Workspace.initial : Workspace where
  depth := 0
  code := .empty
  functions := Compilation.builtinUnits Compilation.builtinFunctions
  locals := []
  opened := 0

/-- Compiles a source text in one pass. -/
def compile (source : String) : Compilation :=
  let start : State :=
    { Workspace.initial with
      cursor := .ofSource source
      registry := Compilation.initialRegistry }
  match program start with
  | .ok _ s =>
      let unit := Compilation.prologue (s.registry.declaredIn .root) ++ s.code ++ s.functions
      .success
        { unit with
          table := (Compilation.resolve s.registry unit.functions).symbols.map
            Compilation.entryOf }
  | .error r _ => .failure (.failure .start .error r.nodes)

end StackScript.Emitting
