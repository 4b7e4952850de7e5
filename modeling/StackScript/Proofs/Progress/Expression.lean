import StackScript.Grammar.Expression
import StackScript.Proofs.Progress.Word

namespace StackScript.Grammar

/-! How far expressions get. Each rule for them goes into nested expressions only behind where it
started itself. -/

variable {c c' : Cursor} {moved moved' : Bool} {nested other : Nested}
  {conditional conditional' : Rule Typed}

/-- Behind a cursor, two versions of the nested rules do the same and get on. -/
structure Nested.Advances (c : Cursor) (nested other : Nested) : Prop where
  conditional : ∀ scope,
    Grammar.Advances c true (nested.conditional scope) (other.conditional scope)
  unary : ∀ scope, Grammar.Advances c true (nested.unary scope) (other.unary scope)

theorem Nested.Advances.later (deeper : nested.Advances c other) (behind : c.Reaches moved c') :
    nested.Advances c' other :=
  ⟨fun scope => (deeper.conditional scope).later behind,
    fun scope => (deeper.unary scope).later behind⟩

section Chain

variable {ω : Type} {operand operand' : Rule Typed} {operator : Cursor → Option (ω × Cursor)}
  {combine : ω → Typed → Typed → Except Cause Typed} {cause : Cause}

/-- One operator with the operand behind it. -/
def chainRound (operand : Rule Typed) (operator : Cursor → Option (ω × Cursor))
    (combine : ω → Typed → Typed → Except Cause Typed) (cause : Cause) (lhs : Typed) :
    Body (Turn Typed Typed) := do
  match ← acceptOne operator with
  | none => pure (.stop lhs)
  | some op =>
      let rhs ← operand.orFail cause
      match combine op lhs rhs with
      | .ok result => pure (.again result id)
      | .error mismatch => Body.fail mismatch []

theorem chainLoop_repeats : Repeats (chainLoop operand operator combine cause)
    (chainRound operand operator combine cause) := by
  intro fuel lhs
  simp only [chainLoop, chainRound, bind_assoc]
  refine bind_congr fun found => ?_
  cases found with
  | none => rfl
  | some op =>
      simp only [bind_assoc]
      refine bind_congr fun rhs => ?_
      cases combine op lhs rhs with
      | ok result => exact (id_map _).symm
      | error mismatch => rfl

theorem chainRound_steps (deeper : Advances c true operand operand')
    (reaches : ∀ c op c', operator c = some (op, c') → c.Reaches true c') (lhs : Typed) :
    Steps c moved (chainRound operand operator combine cause lhs)
      (chainRound operand' operator combine cause lhs) (Turn.moved moved) := by
  refine .acceptOne reaches (fun op => ?_) (.pure rfl)
  refine .bind (.orFail deeper.steps) fun rhs => ?_
  cases combine op lhs rhs with
  | ok result => exact .pure rfl
  | error mismatch => exact .fail

theorem chain_advances (deeper : Advances c false operand operand')
    (reaches : ∀ c op c', operator c = some (op, c') → c.Reaches true c') :
    Advances c false (chain operand operator combine cause)
      (chain operand' operator combine cause) := by
  refine .close fun c' behind => .bind (.orPass (deeper.later behind).steps) fun first => ?_
  refine .bind .remaining fun left => chainLoop_repeats.steps chainLoop_repeats ?_ ?_ _ first
  · exact fun _ => .pure rfl
  · exact chainRound_steps (deeper.later behind).past reaches

end Chain

theorem reaches_signOperator {ω : Type} {signs : List (Char × ω)} {op : ω}
    (read : signOperator signs c = some (op, c')) : c.Reaches true c' := by
  simp only [signOperator] at read
  split at read
  · cases read
  · rename_i char rest ahead
    have behind := Cursor.reaches_advance (c := c.skipSpace) (ahead ▸ List.cons_ne_nil char rest)
    split at read
    · split at read
      · cases read
      · cases read
        exact c.reaches_skipSpace.further behind
    · cases read

theorem reaches_wordOperator {word : String} {op : Unit} (letters : word.toList ≠ [])
    (read : wordOperator word c = some (op, c')) : c.Reaches true c' := by
  obtain ⟨behind, found, same⟩ := Option.map_eq_some_iff.mp read
  cases same
  exact Cursor.reaches_keyword? letters found

/-! Lists of arguments and of indexes. -/

/-- One argument, and whether another one follows. -/
def argumentsRound (conditional : Rule Typed) (_ : Unit) : Body (Turn Unit (List Typed)) := do
  let first ← conditional.orFail .argumentListExpression
  if ← acceptSymbol ',' then pure (.again () (first :: ·)) else pure (.last [first])

theorem argumentsLoop_repeats :
    Repeats (fun fuel _ => argumentsLoop conditional fuel) (argumentsRound conditional) := by
  intro fuel b
  simp only [argumentsLoop, argumentsRound, bind_assoc]
  refine bind_congr fun first => bind_congr fun more => ?_
  cases more with
  | true => rfl
  | false => rfl

theorem argumentsRound_steps (deeper : Advances c moved conditional conditional')
    (stopped : Bool) :
    Steps c moved (argumentsRound conditional ()) (argumentsRound conditional' ())
      (Turn.moved stopped) :=
  .bind (.orFail deeper.steps) fun _ => .acceptSymbol (.pure rfl) (.pure rfl)

theorem arguments_advances (deeper : Advances c moved conditional conditional') :
    Advances c moved (arguments conditional) (arguments conditional') := by
  refine .close fun c' behind => .bind .remaining fun left => ?_
  exact argumentsLoop_repeats.steps argumentsLoop_repeats (fun _ => .fail)
    (fun _ => argumentsRound_steps (deeper.here behind) true) (left + 1) ()

/-- One list of indexes behind an array. -/
def indexRound (conditional : Rule Typed) (array : Typed) : Body (Turn Typed Typed) := do
  let c ← cursor
  if c.isAt '[' then
    moveTo c.advance
    let place := c.advance.position
    match ← (arguments conditional).attempt with
    | .error r => Body.fail .primaryExpression [.failure place .arrayIndex r.nodes]
    | .ok indexes =>
        if ← acceptSymbol ']' then
          match elementTy? array.ty (indexes.map Typed.ty) with
          | some ty =>
              pure (.again { expr := .element array.expr (indexes.map Typed.expr), ty } id)
          | none => Body.fail .arrayIndex [.leaf place .arrayDatatype]
        else Body.fail .primaryExpressionMissingClosingBracket []
  else pure (.stop array)

theorem indexLoop_repeats : Repeats (indexLoop conditional) (indexRound conditional) := by
  intro fuel array
  simp only [indexLoop, indexRound, bind_assoc]
  refine bind_congr fun here => ?_
  by_cases begins : here.isAt '[' = true
  · rw [if_pos begins, if_pos begins, bind_assoc]
    refine bind_congr fun _ => ?_
    rw [bind_assoc]
    refine bind_congr fun outcome => ?_
    cases outcome with
    | error r => rfl
    | ok indexes =>
        simp only [bind_assoc]
        refine bind_congr fun closed => ?_
        cases closed with
        | false => rfl
        | true =>
            simp only [if_true]
            cases elementTy? array.ty (indexes.map Typed.ty) with
            | some ty => exact (id_map _).symm
            | none => rfl
  · rw [if_neg begins, if_neg begins]
    rfl

theorem indexRound_steps (deeper : Advances c true conditional conditional') (array : Typed) :
    Steps c moved (indexRound conditional array) (indexRound conditional' array)
      (Turn.moved moved) := by
  refine .after_cursor fun here ahead => .ite (fun begins => ?_) fun _ => .pure rfl
  have next := Cursor.reaches_advance (Cursor.rest_ne_nil_of_isAt begins)
  refine .bind (.moveTo (ahead.further next)) fun _ => ?_
  refine .attempt (arguments_advances deeper) (fun indexes => ?_) fun _ => .fail
  refine .acceptSymbol ?_ .fail
  cases elementTy? array.ty (indexes.map Typed.ty) with
  | some ty => exact .pure rfl
  | none => exact .fail

theorem indexLoop_steps (deeper : Advances c true conditional conditional') (fuel : Nat)
    (array : Typed) :
    Steps c true (indexLoop conditional fuel array) (indexLoop conditional' fuel array)
      fun _ => true :=
  indexLoop_repeats.steps indexLoop_repeats (fun _ => .pure rfl) (indexRound_steps deeper) fuel
    array

theorem callArguments_steps (deeper : Advances c true conditional conditional')
    (params : List Ty) :
    Steps c true (callArguments conditional params) (callArguments conditional' params)
      fun _ => true := by
  refine .after_cursor fun here ahead => .ite (fun begins => ?_) fun _ => .fail
  have next := Cursor.reaches_advance (Cursor.rest_ne_nil_of_isAt begins)
  refine .bind (.moveTo (ahead.onward next)) fun _ => ?_
  have listed : Steps c true
      ((arguments conditional).orFail .argumentList >>= fun args => do
        if ← acceptSymbol ')' then pure args else Body.fail .argumentList [])
      ((arguments conditional').orFail .argumentList >>= fun args => do
        if ← acceptSymbol ')' then pure args else Body.fail .argumentList []) fun _ => true :=
    .bind (.orFail (arguments_advances deeper).steps) fun _ => .acceptSymbol (.pure rfl) .fail
  cases params with
  | nil => exact .acceptSymbol (.pure rfl) listed
  | cons first others => exact listed

theorem primary_advances (deeper : Advances c true conditional conditional') (side : Side)
    (scope : Scope) :
    Advances c false (primary conditional side scope) (primary conditional' side scope) := by
  refine .close fun c' behind => ?_
  have inner := deeper.later behind
  refine .bind (.orPass (identifier_advances scope .inherited).steps) fun found => ?_
  refine .bind .registry fun r => ?_
  split
  · refine .ite (fun _ => .ite (fun _ => .pure rfl) fun _ => ?_) fun _ => ?_
    · refine .bind (callArguments_steps inner _) fun args => ?_
      exact .ite (fun _ => .pure rfl) fun _ => .fail
    · exact .bind .remaining fun _ => indexLoop_steps inner _ _
  · exact .fail

theorem dotted_steps (deeper : nested.Advances c other) (side : Side) (scope : Scope)
    (tried : List Diagnostic) :
    Steps c false (dotted nested side scope tried) (dotted other side scope tried)
      fun _ => true := by
  refine .after_cursor fun here ahead => ?_
  refine .bind (.moveTo (ahead.trans (here.reaches_skipWhile _))) fun _ => ?_
  refine .attempt (primary_advances (deeper.conditional _) side _) (fun _ => ?_) fun _ => .throw
  exact .after_cursor fun _ _ => .ite (fun _ => .fail) fun _ => .pure rfl

theorem parenthesized_steps (deeper : nested.Advances c other) (scope : Scope)
    (tried : List Diagnostic) :
    Steps c true (parenthesized nested scope tried) (parenthesized other scope tried)
      fun _ => true := by
  refine .attempt (deeper.conditional scope) (fun typed => ?_) fun _ => .fail
  exact .acceptSymbol (.pure rfl) .fail

theorem target_advances (deeper : nested.Advances c other) (scope : Scope) :
    Advances c false (target nested scope) (target other scope) :=
  .close fun _ behind => .bind .skipSpace fun _ => dotted_steps (deeper.later behind) .left scope []

theorem operand_advances (deeper : nested.Advances c other) (scope : Scope) :
    Advances c false (operand nested scope) (operand other scope) := by
  refine .close fun c' behind => .bind .skipSpace fun _ => ?_
  refine .attempt literal_advances (fun l => .pure rfl) fun r => .ite (fun _ => .fail) fun _ => ?_
  exact .acceptSymbol (parenthesized_steps (deeper.later behind) scope _)
    (dotted_steps (deeper.later behind) .right scope _)

theorem unary_advances (deeper : nested.Advances c other) (scope : Scope) :
    Advances c false (unary nested scope) (unary other scope) := by
  refine .close fun c' behind => ?_
  have inner := (deeper.later behind).unary scope
  refine .acceptSymbol ?_ (.acceptKeyword (by decide) ?_ ?_)
  · exact .bind (.orFail inner.steps) fun _ => .ite (fun _ => .pure rfl) fun _ => .fail
  · exact .bind (.orFail inner.steps) fun _ => .ite (fun _ => .pure rfl) fun _ => .fail
  · exact .orPass (operand_advances (deeper.later behind) scope).steps

theorem multiplicative_advances (deeper : nested.Advances c other) (scope : Scope) :
    Advances c false (multiplicative nested scope) (multiplicative other scope) :=
  chain_advances (unary_advances deeper scope) fun _ _ _ => reaches_signOperator

theorem additive_advances (deeper : nested.Advances c other) (scope : Scope) :
    Advances c false (additive nested scope) (additive other scope) :=
  chain_advances (multiplicative_advances deeper scope) fun _ _ _ => reaches_signOperator

theorem relational_advances (deeper : nested.Advances c other) (scope : Scope) :
    Advances c false (relational nested scope) (relational other scope) := by
  refine .close fun c' behind => ?_
  have sum := additive_advances (deeper.later behind) scope
  refine .bind (.orPass sum.steps) fun lhs => ?_
  refine .acceptOperators relationWords (by decide) (fun relation => ?_) (.pure rfl)
  exact .bind (.orFail sum.past.steps) fun _ => .ite (fun _ => .pure rfl) fun _ => .fail

theorem logicalAnd_advances (deeper : nested.Advances c other) (scope : Scope) :
    Advances c false (logicalAnd nested scope) (logicalAnd other scope) :=
  chain_advances (relational_advances deeper scope) fun _ _ _ => reaches_wordOperator (by decide)

theorem logicalOr_advances (deeper : nested.Advances c other) (scope : Scope) :
    Advances c false (logicalOr nested scope) (logicalOr other scope) :=
  chain_advances (logicalAnd_advances deeper scope) fun _ _ _ => reaches_wordOperator (by decide)

theorem conditionalExpression_advances (deeper : nested.Advances c other) (scope : Scope) :
    Advances c false (conditionalExpression nested scope) (conditionalExpression other scope) := by
  refine .close fun c' behind => ?_
  have inner := (deeper.later behind).conditional scope
  refine .bind (.orPass (logicalOr_advances (deeper.later behind) scope).steps) fun condition => ?_
  refine .acceptSymbol (.ite (fun _ => ?_) fun _ => .fail) (.pure rfl)
  refine .bind (.orFail inner.steps) fun whenTrue => .acceptSymbol ?_ ?_
  · refine .bind (.orFail inner.steps) fun whenFalse => ?_
    exact .ite (fun _ => .pure rfl) fun _ => .fail
  · exact .after_cursor fun _ _ => .fail

/-- The nested rules as they are get on, wherever they are used. -/
theorem nestedWithin_advances (levels : Nat) (c : Cursor) :
    (nestedWithin levels).Advances c (nestedWithin levels) := by
  induction levels generalizing c with
  | zero => exact ⟨fun _ => .tooDeep, fun _ => .tooDeep⟩
  | succ levels induction =>
      exact ⟨fun scope => (conditionalExpression_advances (induction c) scope).past,
        fun scope => (unary_advances (induction c) scope).past⟩

end StackScript.Grammar
