import StackScript.CodeUnit.Basic
import StackScript.Grammar.Statement

namespace StackScript.Emitting

/-! Rules that write code while they read, in a single pass and without a tree. Nothing that was
written or declared is ever taken back: a failure goes back to an earlier place of the text, and
what the rule did to its buffers stays. -/

open Grammar (ParseState Rejection Failure)

/-- What rules write to. -/
structure Workspace where
  /-- How deep the rule is nested in others. -/
  depth : Nat
  /-- Code that runs in line. -/
  code : CodeUnit
  /-- Code of the functions that are defined meanwhile. -/
  functions : CodeUnit
  /-- Variables that the surrounding function has to allocate. -/
  locals : List Nat
  /-- How many scopes have been opened so far, which names the next one. -/
  opened : Nat
  deriving DecidableEq, Repr

structure State extends ParseState, Workspace
  deriving DecidableEq, Repr

abbrev Rule (α : Type) := EStateM Rejection State α

abbrev Body (α : Type) := EStateM Failure State α

variable {ε α β : Type}

/-- Reads, and writes nothing. -/
def scan (rule : EStateM ε ParseState α) : EStateM ε State α := fun s =>
  match rule s.toParseState with
  | .ok a p => .ok a { s with toParseState := p }
  | .error e p => .error e { s with toParseState := p }

def Body.fail (cause : Cause) (children : List Diagnostic) : Body α :=
  scan (Grammar.Body.fail cause children)

def Body.pass (cause : Cause) (children : List Diagnostic) : Body α :=
  scan (Grammar.Body.pass cause children)

/-- A rule of its own node: a failure goes back to where the rule started. -/
def Body.close (body : Body α) : Rule α := fun s =>
  match body s with
  | .ok a s' => .ok a s'
  | .error failure s' =>
      .error
        { signal := failure.signal
          nodes := [.failure s.cursor.position failure.cause failure.children] }
        { s' with cursor := s.cursor }

/-- Uses a rule whose failure is also that of the surrounding rule. -/
def Rule.orPass (rule : Rule α) (cause : Cause) : Body α := fun s =>
  match rule s with
  | .ok a s' => .ok a s'
  | .error r s' => .error { signal := r.signal, cause, children := r.nodes } s'

/-- Uses a rule that has to match here. -/
def Rule.orFail (rule : Rule α) (cause : Cause) : Body α := fun s =>
  match rule s with
  | .ok a s' => .ok a s'
  | .error r s' => .error { signal := .broken, cause, children := r.nodes } s'

/-- Uses a rule and looks at its failure. -/
def Rule.attempt (rule : Rule α) : EStateM ε State (Except Rejection α) := fun s =>
  match rule s with
  | .ok a s' => .ok (.ok a) s'
  | .error r s' => .ok (.error r) s'

/-- Tries a second rule if the first does not match. -/
def Rule.or (first second : Rule α) : Rule α := fun s =>
  match first s with
  | .ok a s' => .ok a s'
  | .error { signal := .broken, nodes } s' => .error { signal := .broken, nodes } s'
  | .error { signal := .unmatched, nodes } s' =>
      match second s' with
      | .ok a s'' => .ok a s''
      | .error r s'' => .error { signal := r.signal, nodes := nodes ++ r.nodes } s''

/-- Runs a rule one level deeper, if there is another level. -/
def Rule.deeper (rule : Rule α) : Rule α := fun s =>
  if s.depth < Grammar.maxNesting then
    match rule { s with depth := s.depth + 1 } with
    | .ok a s' => .ok a { s' with depth := s'.depth - 1 }
    | .error r s' => .error r { s' with depth := s'.depth - 1 }
  else scan Grammar.tooDeep s

/-- A part of the workspace of which a rule can have one of its own. -/
structure Part (β : Type) where
  get : Workspace → β
  set : β → Workspace → Workspace
  depth_set : ∀ b w, (set b w).depth = w.depth
  set_get : ∀ b w, set (get w) (set b w) = w

namespace Part

def code : Part CodeUnit where
  get := Workspace.code
  set code w := { w with code }
  depth_set _ _ := rfl
  set_get _ _ := rfl

def functions : Part CodeUnit where
  get := Workspace.functions
  set functions w := { w with functions }
  depth_set _ _ := rfl
  set_get _ _ := rfl

def locals : Part (List Nat) where
  get := Workspace.locals
  set locals w := { w with locals }
  depth_set _ _ := rfl
  set_get _ _ := rfl

def opened : Part Nat where
  get := Workspace.opened
  set opened w := { w with opened }
  depth_set _ _ := rfl
  set_get _ _ := rfl

end Part

/-- Runs a rule with a new part of its own, which it hands over if it matches. -/
def Rule.owning (rule : Rule α) (part : Part β) (new : β) : Rule (α × β) := fun s =>
  match rule { s with toWorkspace := part.set new s.toWorkspace } with
  | .ok a s' =>
      .ok (a, part.get s'.toWorkspace)
        { s' with toWorkspace := part.set (part.get s.toWorkspace) s'.toWorkspace }
  | .error r s' =>
      .error r { s' with toWorkspace := part.set (part.get s.toWorkspace) s'.toWorkspace }

/-! Writing. -/

/-- Writes an instruction, and gives its offset. -/
def emit (i : Instruction) : EStateM ε State Nat := fun s =>
  .ok s.code.size { s with code := s.code.push i }

/-- Sends a jump that was written before to the end of the code. -/
def land (jump : Nat) : EStateM ε State Unit := fun s =>
  .ok ()
    { s with code := (s.code.setAddress? (jump + 1) (UInt32.ofNat s.code.size)).getD s.code }

def append (unit : CodeUnit) : EStateM ε State Unit := fun s =>
  .ok () { s with code := s.code ++ unit }

def appendFunctions (unit : CodeUnit) : EStateM ε State Unit := fun s =>
  .ok () { s with functions := s.functions ++ unit }

def addLocal (symbol : Nat) : EStateM ε State Unit := fun s =>
  .ok () { s with locals := s.locals ++ [symbol] }

def opened : EStateM ε State Nat := fun s => .ok s.opened s

def countScope : EStateM ε State Unit := fun s => .ok () { s with opened := s.opened + 1 }

/-- Resets variables. -/
def emitResets : List Nat → EStateM ε State Unit
  | [] => pure ()
  | cell :: rest => do
      let _ ← emit (.initVar (UInt32.ofNat cell))
      emitResets rest

end StackScript.Emitting
