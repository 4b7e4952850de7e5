import StackScript.Proofs.Diagnostic.Rule
import StackScript.Proofs.Grammar.Expression

namespace StackScript.Grammar

/-! Failures of expressions, at any depth of nesting. -/

variable {source : List Char} {low : Nat}

/-- The rules for what stands one level deeper give their nodes places of the source. -/
structure Nested.Locates (source : List Char) (nested : Nested) : Prop where
  conditional : ∀ scope, Grammar.Locates source (nested.conditional scope)
  unary : ∀ scope, Grammar.Locates source (nested.unary scope)

section Chain

variable {ω : Type} {operand : Rule Typed} {operator : Cursor → Option (ω × Cursor)}
variable {combine : ω → Typed → Typed → Except Cause Typed} {cause : Cause}

theorem chainLoop_tells (failure : cause.isFailure = true) (locates : Locates source operand)
    (follows : ∀ c op c', operator c = some (op, c') → c.Follows c')
    (mismatches : ∀ op lhs rhs mismatch, combine op lhs rhs = .error mismatch →
      mismatch.isFailure = true) (fuel : Nat) (first : Typed) :
    Tells source low (chainLoop operand operator combine cause fuel first)
      (Failure.Sound source low) := by
  induction fuel generalizing first with
  | zero => exact .pure
  | succ fuel induction =>
      refine .bind (.acceptOne follows) fun found => ?_
      cases found with
      | none => exact .pure
      | some op =>
          refine .bind (.orFail failure locates) fun rhs => ?_
          cases combined : combine op first rhs with
          | error mismatch => exact .fail (mismatches op first rhs mismatch combined) trivial
          | ok result => exact induction result

theorem chain_locates (failure : cause.isFailure = true) (locates : Locates source operand)
    (follows : ∀ c op c', operator c = some (op, c') → c.Follows c')
    (mismatches : ∀ op lhs rhs mismatch, combine op lhs rhs = .error mismatch →
      mismatch.isFailure = true) : Locates source (chain operand operator combine cause) :=
  .close fun _ => .bind (.orPass failure locates) fun first => .bind .remaining fun _ =>
    chainLoop_tells failure locates follows mismatches _ first

end Chain

theorem combineLogical_mismatch {operation : Arithmetic} {op : Unit} {lhs rhs : Typed}
    {mismatch : Cause} (refused : combineLogical operation op lhs rhs = .error mismatch) :
    mismatch.isFailure = true := by
  simp only [combineLogical] at refused
  split at refused
  · cases refused
  · cases refused
    rfl

theorem combineAdditive_mismatch {operation : Arithmetic} {lhs rhs : Typed} {mismatch : Cause}
    (refused : combineAdditive operation lhs rhs = .error mismatch) :
    mismatch.isFailure = true := by
  simp only [combineAdditive] at refused
  split at refused
  · cases refused
  · split at refused
    · cases refused
    · cases refused
      rfl

theorem combineMultiplicative_mismatch {operation : Arithmetic} {lhs rhs : Typed}
    {mismatch : Cause} (refused : combineMultiplicative operation lhs rhs = .error mismatch) :
    mismatch.isFailure = true := by
  simp only [combineMultiplicative] at refused
  split at refused
  · cases refused
  · cases refused
    rfl

section Operand

variable {conditional : Rule Typed} (locates : Locates source conditional)

include locates

theorem argumentsLoop_tells (fuel : Nat) :
    Tells source low (argumentsLoop conditional fuel) (Failure.Sound source low) := by
  induction fuel with
  | zero => exact .fail rfl trivial
  | succ fuel induction =>
      refine .bind (.orFail rfl locates) fun first => .bind (.acceptSymbol ',') fun _ => ?_
      exact .ite (.bind induction fun _ => .pure) .pure

theorem arguments_locates : Locates source (arguments conditional) :=
  .close fun _ => .bind .remaining fun _ => argumentsLoop_tells locates _

theorem callArguments_tells (params : List Ty) :
    Tells source low (callArguments conditional params) (Failure.Sound source low) := by
  refine .after_cursor fun c stands => .ite ?_ (.fail rfl trivial)
  refine .bind (.moveTo stands.advance) fun _ => .bind (.ite (.acceptSymbol ')') .pure) fun _ => ?_
  refine .ite .pure (.bind (.orFail rfl (arguments_locates locates)) fun _ => ?_)
  exact .bind (.acceptSymbol ')') fun _ => .ite .pure (.fail rfl trivial)

/-- The nodes of an index list are behind the bracket that opens it. -/
theorem indexLoop_tells (fuel : Nat) (array : Typed) :
    Tells source low (indexLoop conditional fuel array) (Failure.Sound source low) := by
  induction fuel generalizing low array with
  | zero => exact .pure
  | succ fuel induction =>
      refine .after_cursor fun c stands => .ite ?_ .pure
      have inside := stands.advance
      have outer (failure : Failure) (sound : failure.Sound source c.advance.position.offset) :
          failure.Sound source low :=
        sound.lower inside.low_le
      refine .from_move inside ?_ outer
      refine .attempt (arguments_locates locates _) (fun indexes => ?_) fun rejection sound => ?_
      · refine .bind (.acceptSymbol ']') fun _ => .ite ?_ (.fail rfl trivial)
        split
        · exact induction _
        · exact .fail rfl (Diagnostic.soundAll_leaf inside.here rfl)
      · exact .fail rfl (Diagnostic.soundAll_failure inside.here rfl sound.nodes)

theorem primary_locates (side : Side) (scope : Scope) :
    Locates source (primary conditional side scope) := by
  refine .close fun low => .bind (.orPass rfl (identifier_locates scope .inherited))
    fun found => .bind .registry fun registry => ?_
  obtain ⟨name, found⟩ := found
  dsimp only
  split
  · refine .ite (.ite .pure (.bind (callArguments_tells locates _) fun _ => ?_)) ?_
    · exact .ite .pure (.fail rfl trivial)
    · exact .bind .remaining fun _ => indexLoop_tells locates _ _
  · exact .fail rfl trivial

end Operand

section Levels

variable {nested : Nested} (deeper : nested.Locates source)

include deeper

/-- Failures of alternatives that were tried before stay in front of the others. -/
theorem dotted_tells (side : Side) (scope : Scope) {tried : List Diagnostic}
    (sound : Diagnostic.SoundAll (Text.Utf8.encode source) low tried) :
    Tells source low (dotted nested side scope tried) (Failure.Sound source low) := by
  refine .after_cursor fun c stands => ?_
  refine .bind (.moveTo (stands.follow (c.follows_skipWhile _))) fun _ => ?_
  refine .attempt (primary_locates (deeper.conditional _) side _ low) (fun typed => ?_)
    fun rejection others => ?_
  · refine .after_cursor fun c' behind => .ite (.fail rfl ?_) .pure
    exact sound.append (Diagnostic.soundAll_leaf behind rfl)
  · exact .throw ⟨rfl, sound.append others.nodes⟩

theorem parenthesized_tells (scope : Scope) {tried : List Diagnostic}
    (sound : Diagnostic.SoundAll (Text.Utf8.encode source) low tried) :
    Tells source low (parenthesized nested scope tried) (Failure.Sound source low) := by
  refine .attempt (deeper.conditional scope low) (fun typed => ?_) fun rejection others => ?_
  · exact .bind (.acceptSymbol ')') fun _ => .ite .pure (.fail rfl sound)
  · exact .fail rfl (sound.append others.nodes)

theorem target_locates (scope : Scope) : Locates source (target nested scope) :=
  .close fun _ => .bind .skipSpace fun _ => dotted_tells deeper .left scope trivial

theorem operand_locates (scope : Scope) : Locates source (operand nested scope) := by
  refine .close fun low => .bind .skipSpace fun _ => ?_
  refine .attempt (literal_locates low) (fun _ => .pure) fun rejection sound => ?_
  refine .ite (.fail rfl sound.nodes) (.bind (.acceptSymbol '(') fun _ => ?_)
  exact .ite (parenthesized_tells deeper scope sound.nodes)
    (dotted_tells deeper .right scope sound.nodes)

theorem unary_locates (scope : Scope) : Locates source (unary nested scope) := by
  refine .close fun low => .bind (.acceptSymbol '-') fun _ => .ite ?_ ?_
  · refine .bind (.orFail rfl (deeper.unary scope)) fun _ => ?_
    exact .ite .pure (.fail rfl trivial)
  · refine .bind (.acceptKeyword _) fun _ => .ite ?_ (.orPass rfl ?_)
    · refine .bind (.orFail rfl (deeper.unary scope)) fun _ => ?_
      exact .ite .pure (.fail rfl trivial)
    · exact operand_locates deeper scope

theorem multiplicative_locates (scope : Scope) : Locates source (multiplicative nested scope) :=
  chain_locates rfl (unary_locates deeper scope)
    (fun _ _ _ read => (signOperator_follows read).1) fun _ _ _ _ => combineMultiplicative_mismatch

theorem additive_locates (scope : Scope) : Locates source (additive nested scope) :=
  chain_locates rfl (multiplicative_locates deeper scope)
    (fun _ _ _ read => (signOperator_follows read).1) fun _ _ _ _ => combineAdditive_mismatch

theorem relational_locates (scope : Scope) : Locates source (relational nested scope) := by
  refine .close fun low => .bind (.orPass rfl (additive_locates deeper scope)) fun _ => ?_
  refine .bind (.acceptOperators _) fun found => ?_
  cases found with
  | none => exact .pure
  | some relation =>
      refine .bind (.orFail rfl (additive_locates deeper scope)) fun _ => ?_
      exact .ite .pure (.fail rfl trivial)

theorem logicalAnd_locates (scope : Scope) : Locates source (logicalAnd nested scope) :=
  chain_locates rfl (relational_locates deeper scope)
    (fun _ _ _ read => (wordOperator_follows read).1) fun _ _ _ _ => combineLogical_mismatch

theorem logicalOr_locates (scope : Scope) : Locates source (logicalOr nested scope) :=
  chain_locates rfl (logicalAnd_locates deeper scope)
    (fun _ _ _ read => (wordOperator_follows read).1) fun _ _ _ _ => combineLogical_mismatch

theorem conditionalExpression_locates (scope : Scope) :
    Locates source (conditionalExpression nested scope) := by
  refine .close fun low => .bind (.orPass rfl (logicalOr_locates deeper scope)) fun _ => ?_
  refine .bind (.acceptSymbol '?') fun _ => .ite (.ite ?_ (.fail rfl trivial)) .pure
  refine .bind (.orFail rfl (deeper.conditional scope)) fun _ => ?_
  refine .bind (.acceptSymbol ':') fun _ => .ite ?_ (.after_cursor fun c stands => ?_)
  · refine .bind (.orFail rfl (deeper.conditional scope)) fun _ => ?_
    exact .ite .pure (.fail rfl trivial)
  · exact .fail rfl (Diagnostic.soundAll_leaf stands rfl)

end Levels

theorem nestedWithin_locates (levels : Nat) : (nestedWithin levels).Locates source := by
  induction levels with
  | zero => exact ⟨fun _ => .tooDeep, fun _ => .tooDeep⟩
  | succ levels induction =>
      exact ⟨conditionalExpression_locates induction, unary_locates induction⟩

end StackScript.Grammar
