import StackScript.Proofs.Progress.Expression
import StackScript.Proofs.Restoring

namespace StackScript.Grammar

/-! How far statements get, and the statements of a whole unit, which may be none. -/

variable {α : Type} {c c' : Cursor} {moved moved' : Bool} {nested other : Nested}
  {body body' : BlockBody}

theorem assignment_advances (deeper : nested.Advances c other) (scope : Scope) :
    Advances c false (assignment nested scope) (assignment other scope) := by
  refine .close fun c' behind => ?_
  have inner := deeper.later behind
  refine .bind (.orPass (target_advances inner scope).steps) fun place => ?_
  refine .acceptOperators updateWords (by decide) (fun update => ?_) ?_
  · refine .bind (.orFail (inner.conditional scope).steps) fun value => ?_
    exact .ite (fun _ => .pure rfl) fun _ => .fail
  · exact .after_cursor fun _ _ => .fail

theorem variableDeclaration_advances (lifetime : Lifetime) (scope : Scope) :
    Advances c moved (variableDeclaration lifetime scope) (variableDeclaration lifetime scope) := by
  refine .close fun _ _ => .after_cursor fun _ _ => ?_
  refine .bind (.orPass typeName_advances.steps) fun ty => ?_
  refine .bind (.orFail (identifier_advances scope .exact).steps) fun found => ?_
  refine .bind (.declare? _) fun added => ?_
  cases added with
  | some index => exact .pure rfl
  | none => exact .fail

/-- One parameter, and whether another one follows. -/
def parametersRound (scope : Scope) (_ : Unit) : Body (Turn Unit (List (Nat × Ty))) := do
  let first ← (variableDeclaration .dynamic scope).orFail .functionParametersDeclaration
  if ← acceptSymbol ',' then pure (.again () (first :: ·)) else pure (.last [first])

theorem parametersLoop_repeats (scope : Scope) :
    Repeats (fun fuel _ => parametersLoop scope fuel) (parametersRound scope) := by
  intro fuel b
  simp only [parametersLoop, parametersRound, bind_assoc]
  refine bind_congr fun first => bind_congr fun more => ?_
  cases more with
  | true => rfl
  | false => rfl

theorem parametersRound_steps (scope : Scope) (stopped : Bool) :
    Steps c moved (parametersRound scope ()) (parametersRound scope ()) (Turn.moved stopped) :=
  .bind (.orFail (variableDeclaration_advances .dynamic scope).steps) fun _ =>
    .acceptSymbol (.pure rfl) (.pure rfl)

theorem parameters_advances (scope : Scope) :
    Advances c moved (parameters scope) (parameters scope) := by
  refine .close fun c' behind => .bind .remaining fun left => ?_
  exact (parametersLoop_repeats scope).steps (parametersLoop_repeats scope) (fun _ => .fail)
    (fun _ => parametersRound_steps scope true) (left + 1) ()

/-- A list of parameters may be left out. -/
theorem parameterList_steps (scope : Scope) :
    Steps c true (parameterList scope) (parameterList scope) fun _ => true := by
  refine .acceptSymbol (.acceptSymbol (.pure rfl) ?_) (.pure rfl)
  exact .bind (.orFail (parameters_advances scope).steps) fun _ => .acceptSymbol (.pure rfl) .fail

/-- Behind a cursor, two versions of the rule for the statements of a block do the same and do not
go back. -/
def BlockBody.Advances (c : Cursor) (body other : BlockBody) : Prop :=
  ∀ c' lifetime scope, c.Reaches true c' →
    Steps c' false (body lifetime scope) (other lifetime scope) fun _ => false

theorem BlockBody.Advances.later (deeper : BlockBody.Advances c body body')
    (behind : c.Reaches moved c') : BlockBody.Advances c' body body' :=
  fun _ lifetime scope start => deeper _ lifetime scope (behind.further start)

theorem BlockBody.Advances.steps (deeper : BlockBody.Advances c body body') (lifetime : Lifetime)
    (scope : Scope) :
    Steps c true (body lifetime scope) (body' lifetime scope) fun _ => true := by
  intro s start
  obtain ⟨same, reaches⟩ := deeper s.cursor lifetime scope start s (.refl _)
  exact ⟨same, fun stmts s' run => start.onward (reaches stmts s' run)⟩

section Body

variable (inner : BlockBody.Advances c body body')

include inner

theorem block_advances (lifetime : Lifetime) (scope : Scope) :
    Advances c false (block body lifetime scope) (block body' lifetime scope) := by
  refine .close fun c' behind => .acceptSymbol ?_ .pass
  refine .bind (.orFail ((inner.later behind).steps lifetime scope)) fun stmts => ?_
  exact .acceptSymbol (.pure rfl) .fail

theorem blockStatement_advances (lifetime : Lifetime) (scope : Scope) :
    Advances c false (blockStatement body lifetime scope)
      (blockStatement body' lifetime scope) := by
  refine .of_steps (fun c' behind => ?_) (blockStatement_returns body lifetime scope)
  refine .bind (block_advances (inner.later behind) lifetime scope).steps fun stmts => ?_
  exact .bind .registry fun _ => .pure rfl

theorem functionDefinition_advances (scope : Scope) :
    Advances c false (functionDefinition body scope) (functionDefinition body' scope) := by
  refine .close fun c' behind => .after_cursor fun _ _ => .acceptKeyword (by decide) ?_ .pass
  refine .bind (.orFail (identifier_advances scope .exact).steps) fun found => ?_
  refine .ite (fun _ => .fail) fun _ => .bind (parameterList_steps _) fun params => ?_
  refine .acceptKeyword (by decide) (.bind (.orFail typeName_advances.steps) fun ty => ?_) .fail
  refine .bind (.declare? _) fun added => ?_
  cases added with
  | none => exact .fail
  | some index =>
      refine .bind (.orFail ?_) fun stmts => .pure rfl
      exact (block_advances (inner.later behind) .dynamic _).past.steps

theorem statement_advances (deeper : nested.Advances c other) (lifetime : Lifetime) (scope : Scope)
    (opened : Nat) :
    Advances c false (statement nested body lifetime scope opened)
      (statement other body' lifetime scope opened) :=
  .or (assignment_advances deeper scope) <|
    .or (variableDeclaration_advances lifetime scope).map <|
    .or (blockStatement_advances inner lifetime _) (functionDefinition_advances inner scope)

end Body

/-- One statement from a cursor that is not in front of a space, unless the unit ends there. -/
def statementsTurn (next : (opened : Nat) → Rule Stmt) (inBlock : Bool) (opened : Nat)
    (start : Cursor) : Rule (Turn Nat (List Stmt)) :=
  match start.peek?, inBlock with
  | none, true => throw (unitFailure start { signal := .broken, nodes := [] })
  | none, false => pure (.stop [])
  | some '\x7d', true => pure (.stop [])
  | _, _ => do
      match ← (next opened).attempt with
      | .error r =>
          moveTo start
          throw (unitFailure start r)
      | .ok stmt =>
          pure (.again (if stmt.opensScope then opened + 1 else opened) (stmt :: ·))

def statementsRound (next : (opened : Nat) → Rule Stmt) (inBlock : Bool) (opened : Nat) :
    Rule (Turn Nat (List Stmt)) := do
  skipSpace
  statementsTurn next inBlock opened (← cursor)

theorem statementsLoop_repeats (next : Nat → Rule Stmt) (inBlock : Bool) :
    Repeats (statementsLoop next inBlock) (statementsRound next inBlock) := by
  intro fuel opened
  simp only [statementsLoop, statementsRound, bind_assoc]
  refine bind_congr fun _ => bind_congr fun start => ?_
  split
  · rename_i ends
    unfold statementsTurn
    rw [ends]
    rfl
  · rename_i ends
    unfold statementsTurn
    rw [ends]
    rfl
  · rename_i closes
    unfold statementsTurn
    rw [closes]
    rfl
  · rename_i endless open' other
    unfold statementsTurn
    split
    · rename_i ends
      exact (endless ends rfl).elim
    · rename_i ends
      exact (open' ends rfl).elim
    · rename_i closes
      exact (other closes rfl).elim
    · rw [bind_assoc]
      refine bind_congr fun outcome => ?_
      cases outcome with
      | error r => rfl
      | ok stmt => rfl

theorem statementsRound_steps {next next' : Nat → Rule Stmt}
    (advances : ∀ opened, Advances c false (next opened) (next' opened)) (inBlock : Bool)
    (opened : Nat) :
    Steps c false (statementsRound next inBlock opened) (statementsRound next' inBlock opened)
      (Turn.moved false) := by
  refine .bind .skipSpace fun _ => .after_cursor fun start ahead => ?_
  unfold statementsTurn
  split
  · exact .throw
  · exact .pure rfl
  · exact .pure rfl
  · refine .attempt (advances opened) (fun stmt => .pure rfl) fun r => ?_
    exact .bind (.moveTo ahead) fun _ => .throw

theorem statements_steps (deeper : nested.Advances c other) (inner : body.Advances c body')
    (lifetime : Lifetime) (scope : Scope) :
    Steps c false (statements nested body lifetime scope) (statements other body' lifetime scope)
      fun _ => false := by
  refine .bind .remaining fun left => ?_
  refine (statementsLoop_repeats _ _).steps (statementsLoop_repeats _ _) (fun _ => .pure rfl) ?_ _ _
  exact statementsRound_steps (statement_advances inner deeper lifetime scope) _

/-- The statements of blocks as they are get on, wherever they are used. -/
theorem bodyWithin_advances (levels : Nat) (c : Cursor) :
    (bodyWithin levels).Advances c (bodyWithin levels) := by
  induction levels generalizing c with
  | zero => exact fun _ _ _ _ _ _ => ⟨rfl, nofun⟩
  | succ levels induction =>
      exact fun c' lifetime scope _ =>
        statements_steps (nestedWithin_advances levels c') (induction c') lifetime scope

end StackScript.Grammar
