import StackScript.Diagnostic.Tree
import StackScript.Source.Cursor
import StackScript.Symbol.Registry

namespace StackScript.Grammar

/-! Grammar rules. A rule reads from the cursor and may declare symbols. If it fails it says
whether another alternative may still match, and which nodes the diagnostic tree gets. -/

structure ParseState where
  cursor : Cursor
  registry : Registry
  deriving DecidableEq, Repr

inductive Signal where
  /-- Another alternative may still match. -/
  | unmatched
  /-- The alternative was recognised and is broken. -/
  | broken
  deriving DecidableEq, Repr

/-- How a rule failed. -/
structure Rejection where
  signal : Signal
  nodes : List Diagnostic

/-- How the inside of a rule failed: the cause becomes a node with these children. -/
structure Failure where
  signal : Signal
  cause : Cause
  children : List Diagnostic

abbrev Rule (α : Type) := EStateM Rejection ParseState α

abbrev Body (α : Type) := EStateM Failure ParseState α

/-- A rule of its own node: a failure goes back to where the rule started. -/
def Body.close {α : Type} (body : Body α) : Rule α := fun s =>
  match body s with
  | .ok a s' => .ok a s'
  | .error failure s' =>
      .error
        { signal := failure.signal
          nodes := [.failure s.cursor.position failure.cause failure.children] }
        { s' with cursor := s.cursor }

/-- Fails for good. -/
def Body.fail {α : Type} (cause : Cause) (children : List Diagnostic) : Body α :=
  throw { signal := .broken, cause, children }

/-- Fails in favour of other alternatives. -/
def Body.pass {α : Type} (cause : Cause) (children : List Diagnostic) : Body α :=
  throw { signal := .unmatched, cause, children }

/-- Uses a rule whose failure is also that of the surrounding rule. -/
def Rule.orPass {α : Type} (rule : Rule α) (cause : Cause) : Body α := fun s =>
  match rule s with
  | .ok a s' => .ok a s'
  | .error r s' => .error { signal := r.signal, cause, children := r.nodes } s'

/-- Uses a rule that has to match here. -/
def Rule.orFail {α : Type} (rule : Rule α) (cause : Cause) : Body α := fun s =>
  match rule s with
  | .ok a s' => .ok a s'
  | .error r s' => .error { signal := .broken, cause, children := r.nodes } s'

/-- Uses a rule and looks at its failure. -/
def Rule.attempt {α ε : Type} (rule : Rule α) : EStateM ε ParseState (Except Rejection α) :=
  fun s =>
    match rule s with
    | .ok a s' => .ok (.ok a) s'
    | .error r s' => .ok (.error r) s'

/-- Tries a second rule if the first does not match. -/
def Rule.or {α : Type} (first second : Rule α) : Rule α := fun s =>
  match first s with
  | .ok a s' => .ok a s'
  | .error { signal := .broken, nodes } s' => .error { signal := .broken, nodes } s'
  | .error { signal := .unmatched, nodes } s' =>
      match second s' with
      | .ok a s'' => .ok a s''
      | .error r s'' => .error { signal := r.signal, nodes := nodes ++ r.nodes } s''

/-- The rule that stands for everything nested too deeply. -/
def tooDeep {α : Type} : Rule α := fun s =>
  .error { signal := .broken, nodes := [.leaf s.cursor.position .nestingTooDeep] } s

variable {ε : Type}

def cursor : EStateM ε ParseState Cursor := fun s => .ok s.cursor s

def registry : EStateM ε ParseState Registry := fun s => .ok s.registry s

def moveTo (c : Cursor) : EStateM ε ParseState Unit := fun s => .ok () { s with cursor := c }

/-- Takes what is read if it comes next. -/
def accept (read : Cursor → Option Cursor) : EStateM ε ParseState Bool := fun s =>
  match read s.cursor with
  | some c => .ok true { s with cursor := c }
  | none => .ok false s

/-- Takes one of several things if it comes next. -/
def acceptOne {α : Type} (read : Cursor → Option (α × Cursor)) :
    EStateM ε ParseState (Option α) := fun s =>
  match read s.cursor with
  | some (a, c) => .ok (some a) { s with cursor := c }
  | none => .ok none s

def acceptSymbol (char : Char) : EStateM ε ParseState Bool :=
  accept (Cursor.symbol? char)

def acceptKeyword (word : List Char) : EStateM ε ParseState Bool :=
  accept (Cursor.keyword? word)

def skipSpace : EStateM ε ParseState Unit := do
  moveTo (← cursor).skipSpace

/-- How many characters are left, which bounds the rounds of every loop. -/
def remaining : EStateM ε ParseState Nat := do
  pure (← cursor).rest.length

/-- Declares a symbol, if its scope has no symbol of that name yet. -/
def declare? (symbol : Symbol) : EStateM ε ParseState (Option Nat) := fun s =>
  match s.registry.add symbol with
  | .ok (index, registry) => .ok (some index) { s with registry }
  | .error _ => .ok none s

end StackScript.Grammar
