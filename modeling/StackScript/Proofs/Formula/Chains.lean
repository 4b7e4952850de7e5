import StackScript.Grammar.Expression
import StackScript.Proofs.Formula.Text

namespace StackScript.Grammar

/-! Chains of operators of one precedence. -/

open Formula (signLevel)

variable {r : Registry} {gap text rest : List Char}

/-- The rule reads every formula where one of some level is needed, if its nesting fits. -/
def ReadsFormulas (r : Registry) (gap : List Char) (rule : Rule Typed) (level : Nat)
    (fits : Nat → Prop) : Prop :=
  ∀ (e : Formula) (ty : Ty) (text rest : List Char), e.ty? = some ty →
    text.dropWhile Cursor.isSpace = e.textAt gap level ++ rest → Quiet level rest →
    Gives Rejection.IsDeep r rule text rest { expr := e.expr, ty } (fits (e.nestingAt level))

/-! Connectives between spaces. -/

theorem signOperator_finds {signs : List (Char × Arithmetic)} {operation : Arithmetic}
    {char : Char} (spelled : operation.text = [char]) (plain : Cursor.isSpace char = false)
    (listed : signs.lookup char = some operation) :
    Finds (signOperator signs) (' ' :: (operation.text ++ ' ' :: rest)) operation
      (' ' :: rest) := by
  intro c same
  have ahead : c.skipSpace.rest = char :: ' ' :: rest := by
    rw [c.rest_skipSpace, same, spelled, List.dropWhile_cons, if_pos (by rfl)]
    rw [List.cons_append, List.nil_append, List.dropWhile_cons, plain]
    rfl
  refine ⟨c.skipSpace.advance, ?_, by rw [Cursor.rest_advance, ahead, List.tail_cons]⟩
  unfold signOperator
  simp only [ahead, listed, List.head?_cons, Option.some.injEq]
  rw [if_neg (by decide)]

theorem wordOperator_finds {word : String} {front : List Char} (spelled : word.toList = front)
    (lower : front.map Char.toLower = front) (starts : Formula.Starts front) :
    Finds (wordOperator word) (' ' :: (front ++ ' ' :: rest)) () (' ' :: rest) := by
  intro c same
  have unspaced : (' ' :: (front ++ ' ' :: rest)).dropWhile Cursor.isSpace =
      front ++ ' ' :: rest := by
    rw [List.dropWhile_cons, if_pos (by rfl), starts.unspaced]
  obtain ⟨c', found, behind⟩ := keyword?_takes unspaced lower rfl c same
  refine ⟨c', ?_, behind⟩
  rw [wordOperator, spelled, found]
  rfl

theorem relation_finds (test : Relation) :
    Finds (fun c : Cursor => c.firstOf? Cursor.operator? relationWords)
      (' ' :: (test.text ++ ' ' :: rest)) test (' ' :: rest) := by
  intro c same
  have ahead : c.skipSpace.rest = test.text ++ ' ' :: rest := by
    rw [c.rest_skipSpace, same]
    cases test <;> rfl
  refine ⟨c.skipSpace.advanceBy test.text.length, ?_, ?_⟩
  · cases test <;>
      simp [Cursor.firstOf?, Cursor.operator?, relationWords, ahead, Relation.text]
  · rw [Cursor.rest_advanceBy, ahead, List.drop_left]

/-- The operators of a chain are the connectives of a level. -/
structure Chained {ω : Type} (level : Nat) (operator : Cursor → Option (ω × Cursor))
    (combine : ω → Typed → Typed → Except Cause Typed) : Prop where
  inside : 0 < level ∧ level < signLevel ∧ level ≠ 3
  finds : ∀ connective : Connective, connective.level = level → ∃ op : ω,
    (∀ rest, Finds operator (' ' :: (connective.text ++ ' ' :: rest)) op (' ' :: rest)) ∧
      ∀ (lhs rhs : Formula) (tyL tyR ty : Ty), connective.ty? tyL tyR = some ty →
        combine op { expr := lhs.expr, ty := tyL } { expr := rhs.expr, ty := tyR } =
          .ok { expr := (Formula.binary connective lhs rhs).expr, ty }
  misses : ∀ rest, Quiet level rest → Misses operator rest

theorem numeric_ty_cases {ty : Ty} (numeric : ty.isNumeric = true) : ty = .int ∨ ty = .float := by
  cases ty with
  | array => cases numeric
  | scalar s =>
      cases s with
      | int => exact .inl rfl
      | float => exact .inr rfl
      | str | bool => cases numeric

theorem numericResult_eq {lhs rhs : Ty} (left : lhs.isNumeric = true)
    (right : rhs.isNumeric = true) :
    numericResult lhs rhs = if lhs = .int ∧ rhs = .int then .int else .float := by
  rcases numeric_ty_cases left with rfl | rfl <;> rcases numeric_ty_cases right with rfl | rfl
  all_goals rfl

theorem combineMultiplicative_eq {operation : Arithmetic} {lhs rhs : Expr} {tyL tyR ty : Ty}
    (typed : (Connective.arith operation).ty? tyL tyR = some ty) :
    combineMultiplicative operation { expr := lhs, ty := tyL } { expr := rhs, ty := tyR } =
      .ok { expr := .arith operation lhs rhs, ty } := by
  simp only [Connective.ty?, Option.ite_none_right_eq_some, Option.some.injEq] at typed
  obtain ⟨⟨left, right⟩, rfl⟩ := typed
  unfold combineMultiplicative
  rw [if_pos (by simp [left, right]), numericResult_eq left right]
  by_cases divides : operation = .divide <;> simp [divides]

theorem combineAdditive_eq {operation : Arithmetic} {lhs rhs : Expr} {tyL tyR ty : Ty}
    (typed : (Connective.arith operation).ty? tyL tyR = some ty) (sum : operation ≠ .divide) :
    combineAdditive operation { expr := lhs, ty := tyL } { expr := rhs, ty := tyR } =
      .ok { expr := .arith operation lhs rhs, ty } := by
  simp only [Connective.ty?, Option.ite_none_right_eq_some, Option.some.injEq] at typed
  obtain ⟨⟨left, right⟩, rfl⟩ := typed
  unfold combineAdditive
  rw [if_pos (by simp [left, right]), numericResult_eq left right]
  simp [sum]

theorem multiplicative_chained :
    Chained 5 (signOperator [('*', Arithmetic.multiply), ('/', Arithmetic.divide)])
      combineMultiplicative where
  inside := by decide
  finds := by
    intro connective same
    cases connective with
    | or | and | relation => cases same
    | arith operation =>
        refine ⟨operation, fun rest => ?_, fun lhs rhs tyL tyR ty => combineMultiplicative_eq⟩
        cases operation with
        | add | subtract => cases same
        | multiply => exact @signOperator_finds rest _ .multiply '*' rfl rfl rfl
        | divide => exact @signOperator_finds rest _ .divide '/' rfl rfl rfl
  misses := fun rest quiet => quiet.signOperator_misses (by decide)

theorem additive_chained :
    Chained 4 (signOperator [('+', Arithmetic.add), ('-', Arithmetic.subtract)])
      combineAdditive where
  inside := by decide
  finds := by
    intro connective same
    cases connective with
    | or | and | relation => cases same
    | arith operation =>
        have sum : operation ≠ .divide := by
          rintro rfl
          cases same
        refine ⟨operation, fun rest => ?_,
          fun lhs rhs tyL tyR ty typed => combineAdditive_eq typed sum⟩
        cases operation with
        | multiply | divide => cases same
        | add => exact @signOperator_finds rest _ .add '+' rfl rfl rfl
        | subtract => exact @signOperator_finds rest _ .subtract '-' rfl rfl rfl
  misses := fun rest quiet => quiet.signOperator_misses (by decide)

theorem combineLogical_eq {operation : Arithmetic} {lhs rhs : Expr} {tyL tyR ty : Ty}
    (typed : (if tyL = .bool ∧ tyR = .bool then some .bool else none) = some ty) :
    combineLogical operation () { expr := lhs, ty := tyL } { expr := rhs, ty := tyR } =
      .ok { expr := .arith operation lhs rhs, ty } := by
  simp only [Option.ite_none_right_eq_some, Option.some.injEq] at typed
  obtain ⟨⟨rfl, rfl⟩, rfl⟩ := typed
  rfl

theorem logicalAnd_chained : Chained 2 (wordOperator "and") (combineLogical .multiply) where
  inside := by decide
  finds := by
    intro connective same
    cases connective with
    | or | relation => cases same
    | arith operation => cases operation <;> cases same
    | and =>
        exact ⟨(), fun rest => wordOperator_finds rfl rfl ⟨_, _, rfl, rfl⟩,
          fun lhs rhs tyL tyR ty => combineLogical_eq⟩
  misses := fun rest quiet => quiet.wordOperator_misses rfl fun char lower => by
    unfold rank
    rw [lower]
    decide

theorem logicalOr_chained : Chained 1 (wordOperator "or") (combineLogical .add) where
  inside := by decide
  finds := by
    intro connective same
    cases connective with
    | and | relation => cases same
    | arith operation => cases operation <;> cases same
    | or =>
        exact ⟨(), fun rest => wordOperator_finds rfl rfl ⟨_, _, rfl, rfl⟩,
          fun lhs rhs tyL tyR ty => combineLogical_eq⟩
  misses := fun rest quiet => quiet.wordOperator_misses rfl fun char lower => by
    unfold rank
    rw [lower]
    decide


/-! The rounds of a chain. -/

section Rounds

variable {ω : Type} {operand : Rule Typed} {operator : Cursor → Option (ω × Cursor)}
variable {combine : ω → Typed → Typed → Except Cause Typed} {cause : Cause}
variable {level levels : Nat} {goal : Typed} {next : Prop}

/-- What a chain does first, and then with what stands behind. -/
def rounds (operand : Rule Typed) (operator : Cursor → Option (ω × Cursor))
    (combine : ω → Typed → Typed → Except Cause Typed) (cause : Cause) : Body Typed := do
  let first ← operand.orPass cause
  chainLoop operand operator combine cause ((← remaining) + 1) first

/-- An operand that is no chain of this level itself is the first one. -/
theorem first_gives {e : Formula} {ty : Ty} {mid : List Char}
    (reads : ReadsFormulas r gap operand (level + 1) (· ≤ levels)) (typed : e.ty? = some ty)
    (other : e.level ≠ level)
    (ahead : text.dropWhile Cursor.isSpace = e.textAt gap level ++ mid)
    (quiet : Quiet (level + 1) mid)
    (onward : ∀ fuel, mid.length < fuel →
      Gives Failure.IsDeep r (chainLoop operand operator combine cause fuel
        { expr := e.expr, ty }) mid rest goal next) :
    Gives Failure.IsDeep r (rounds operand operator combine cause) text rest goal
      (e.nestingAt level ≤ levels ∧ next) := by
  rw [← Formula.textAt_succ other] at ahead
  rw [← Formula.nestingAt_succ other]
  apply (reads e ty text mid typed ahead quiet).orPass.bind
  refine Gives.after (fun _ => remaining_at) ?_
  exact onward _ (Nat.lt_succ_self _)

/-- Behind the left operand, one more round takes a connective and its right operand. -/
theorem round_gives {connective : Connective} {lhs rhs : Formula} {tyL tyR ty : Ty}
    {mid : List Char} {fuel : Nat} (chained : Chained level operator combine)
    (reads : ReadsFormulas r gap operand (level + 1) (· ≤ levels))
    (same : connective.level = level) (typed : connective.ty? tyL tyR = some ty)
    (right : rhs.ty? = some tyR) (quiet : Quiet (level + 1) mid)
    (enough : (' ' :: (connective.text ++ ' ' :: (rhs.textAt gap (level + 1) ++ mid))).length <
      fuel)
    (onward : ∀ fuel, mid.length < fuel →
      Gives Failure.IsDeep r (chainLoop operand operator combine cause fuel
        { expr := (Formula.binary connective lhs rhs).expr, ty }) mid rest goal next) :
    Gives Failure.IsDeep r (chainLoop operand operator combine cause fuel
        { expr := lhs.expr, ty := tyL })
      (' ' :: (connective.text ++ ' ' :: (rhs.textAt gap (level + 1) ++ mid))) rest goal
      (rhs.nestingAt (level + 1) ≤ levels ∧ next) := by
  obtain ⟨op, finds, combined⟩ := chained.finds connective same
  cases fuel with
  | zero => exact absurd enough (Nat.not_lt_zero _)
  | succ fuel =>
      unfold chainLoop
      refine Gives.after (fun _ => acceptOne_finds (finds _)) ?_
      apply (reads rhs tyR _ mid right (Formula.ahead_space _ _ _) quiet).orFail.bind
      simp only [combined lhs rhs tyL tyR ty typed]
      apply onward
      simp only [List.length_cons, List.length_append] at enough
      omega

/-- The induction follows the left operands, down to the first one of the chain. -/
theorem rounds_gives (chained : Chained level operator combine)
    (reads : ReadsFormulas r gap operand (level + 1) (· ≤ levels)) (e : Formula) {ty : Ty}
    {mid : List Char} (typed : e.ty? = some ty)
    (ahead : text.dropWhile Cursor.isSpace = e.textAt gap level ++ mid)
    (quiet : Quiet (level + 1) mid)
    (onward : ∀ fuel, mid.length < fuel →
      Gives Failure.IsDeep r (chainLoop operand operator combine cause fuel
        { expr := e.expr, ty }) mid rest goal next) :
    Gives Failure.IsDeep r (rounds operand operator combine cause) text rest goal
      (e.nestingAt level ≤ levels ∧ next) := by
  obtain ⟨positive, low, notRelation⟩ := chained.inside
  induction e generalizing ty mid next with
  | number | truth =>
      exact first_gives reads typed (Nat.ne_of_gt (Nat.lt_succ_of_lt low)) ahead quiet onward
  | signed => exact first_gives reads typed (Nat.ne_of_gt low) ahead quiet onward
  | choice => exact first_gives reads typed (Nat.ne_of_lt positive) ahead quiet onward
  | binary connective lhs rhs left _ =>
      by_cases same : connective.level = level
      · rw [Formula.textAt_of_le (Nat.le_of_eq same.symm)] at ahead
        simp only [Formula.ty?, Option.bind_eq_bind, Option.bind_eq_some_iff] at typed
        obtain ⟨tyL, typedL, tyR, typedR, typed⟩ := typed
        have leftLevel : connective.leftLevel = level := by
          rw [Formula.leftLevel_eq (by rw [same]; exact notRelation), same]
        have spelled : text.dropWhile Cursor.isSpace = lhs.textAt gap level ++
            ' ' :: (connective.text ++ ' ' :: (rhs.textAt gap (level + 1) ++ mid)) := by
          rw [ahead, Formula.text, leftLevel, same]
          simp only [Formula.textAt, List.append_assoc, List.cons_append]
        have whole : (Formula.binary connective lhs rhs).nestingAt level =
            max (lhs.nestingAt level) (rhs.nestingAt (level + 1)) := by
          rw [Formula.nestingAt_of_le (Nat.le_of_eq same.symm), Formula.nesting, leftLevel, same]
          rfl
        have follows : Quiet (level + 1)
            (' ' :: (connective.text ++ ' ' :: (rhs.textAt gap (level + 1) ++ mid))) := by
          rw [← same]
          exact .connective connective _
        have inside := left typedL spelled follows fun fuel enough =>
          round_gives chained reads same typed typedR quiet enough onward
        refine inside.of_iff ?_
        rw [whole, Nat.max_le, and_assoc]
      · exact first_gives reads typed same ahead quiet onward

theorem chain_reads (chained : Chained level operator combine)
    (reads : ReadsFormulas r gap operand (level + 1) (· ≤ levels)) :
    ReadsFormulas r gap (chain operand operator combine cause) level (· ≤ levels) := by
  intro e ty text rest typed ahead quiet
  have last (fuel : Nat) (enough : rest.length < fuel) :
      Gives Failure.IsDeep r (chainLoop operand operator combine cause fuel
        { expr := e.expr, ty }) rest rest { expr := e.expr, ty } True := by
    cases fuel with
    | zero => exact absurd enough (Nat.not_lt_zero _)
    | succ fuel =>
        unfold chainLoop
        exact Gives.after (fun _ => acceptOne_misses (chained.misses rest quiet)) .pure
  have whole := rounds_gives chained reads e typed ahead (quiet.mono (Nat.le_succ _)) last
  exact (whole.of_iff (and_iff_left trivial)).close

end Rounds

end StackScript.Grammar
