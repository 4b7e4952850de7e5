import StackScript.Proofs.Formula.Chains

namespace StackScript.Grammar

/-! The rules for expressions read the texts of formulas. -/

open Formula (signLevel literalLevel enclosed)

variable {r : Registry} {gap text rest : List Char} {scope : Scope} {nested : Nested}
variable {levels : Nat}

theorem literal_reads {e : Formula} {ty : Ty} (typed : e.ty? = some ty)
    (high : e.level = literalLevel) (closed : closes rest = true) :
    ∃ l : Literal, Gives Rejection.IsDeep r literal (e.text gap ++ rest) rest l True ∧
      ({ expr := .literal l, ty := l.ty } : Typed) = { expr := e.expr, ty } := by
  cases e with
  | number n inRange =>
      cases typed
      exact ⟨.int (Int64.ofNat n), literal_gives_number inRange closed, rfl⟩
  | truth b =>
      cases typed
      refine ⟨.bool b, ?_, rfl⟩
      have spelled : (Formula.truth b).text gap = truthWord b := by cases b <;> rfl
      rw [spelled]
      exact literal_gives_truth closed
  | signed | choice => cases high
  | binary connective => exact absurd high (Nat.ne_of_lt (Nat.lt_succ_of_lt
      (Formula.connective_level_lt connective)))

theorem parenthesized_gives {e : Formula} {ty : Ty} {tried : List Diagnostic}
    (conditional : ReadsFormulas r gap (nested.conditional scope) 0 (· < levels))
    (blank : ∀ c ∈ gap, c = ' ') (typed : e.ty? = some ty) :
    Gives Failure.IsDeep r (parenthesized nested scope tried)
      (gap ++ (e.text gap ++ (gap ++ ')' :: rest))) rest { expr := e.expr, ty }
      (e.nesting < levels) := by
  have whole : e.textAt gap 0 = e.text gap := Formula.textAt_of_le (Nat.zero_le _)
  have same : e.nestingAt 0 = e.nesting := Formula.nestingAt_of_le (Nat.zero_le _)
  have inside := conditional e ty (gap ++ (e.text gap ++ (gap ++ ')' :: rest)))
    (gap ++ ')' :: rest) typed
    (by rw [← whole]; exact Formula.ahead (fun c member => blank c member ▸ rfl) 0 e _)
    (.closing blank rest)
  rw [same] at inside
  apply inside.after_attempt
  · refine .after (fun _ => accept_takes (symbol?_takes ?_)) .pure
    rw [List.dropWhile_append_of_pos fun c member => blank c member ▸ rfl]
    rfl
  · exact fun e deep s _ => ⟨rfl, deep.2.append tried⟩

theorem operand_reads (conditional : ReadsFormulas r gap (nested.conditional scope) 0 (· < levels))
    (blank : ∀ c ∈ gap, c = ' ') :
    ReadsFormulas r gap (operand nested scope) literalLevel (· ≤ levels) := by
  intro e ty text rest typed ahead quiet
  refine .close (.after_skip ahead ?_)
  by_cases low : e.level < literalLevel
  · rw [Formula.textAt_of_lt low, Formula.nestingAt_of_lt low]
    have split : enclosed gap (e.text gap) ++ rest =
        '(' :: (gap ++ (e.text gap ++ (gap ++ ')' :: rest))) := by
      simp [enclosed]
    rw [split]
    have passes : Passes r literal ('(' :: (gap ++ (e.text gap ++ (gap ++ ')' :: rest)))) :=
      literal_passes rfl (by decide) rfl (by decide)
    refine .after_pass passes fun tried signal => ?_
    simp only [signal, reduceCtorEq, if_false]
    refine .after (fun _ => accept_takes (symbol?_takes rfl)) ?_
    rw [if_pos rfl]
    exact (parenthesized_gives conditional blank typed).of_iff Nat.succ_le_iff.symm
  · have high : e.level = literalLevel := Nat.le_antisymm e.level_le (Nat.not_lt.mp low)
    rw [Formula.textAt_of_le (Nat.le_of_eq high.symm),
      Formula.nestingAt_of_le (Nat.le_of_eq high.symm)]
    obtain ⟨l, gives, same⟩ := literal_reads typed high quiet.closed
    refine .after (fun _ => gives.attempt _) ?_
    rw [← same]
    have shallow : e.nesting ≤ levels := by
      rw [Formula.nesting_eq_zero high]
      exact Nat.zero_le levels
    exact Gives.pure.of_iff ⟨fun _ => shallow, fun _ => trivial⟩

theorem signed_gives {sign : Sign} {e : Formula} {ty ty' : Ty} {next : Typed → Body Typed}
    (unary : ReadsFormulas r gap (nested.unary scope) signLevel (· < levels))
    (typed : e.ty? = some ty)
    (ahead : text.dropWhile Cursor.isSpace = e.textAt gap signLevel ++ rest)
    (quiet : Quiet signLevel rest)
    (takes : next { expr := e.expr, ty } = pure { expr := .negate e.expr, ty := ty' }) :
    Gives Failure.IsDeep r ((nested.unary scope).orFail .unaryExpression >>= next) text rest
      { expr := (Formula.signed sign e).expr, ty := ty' }
      ((Formula.signed sign e).nestingAt signLevel ≤ levels) := by
  have inside := unary e ty text rest typed ahead quiet
  have whole : (Formula.signed sign e).nestingAt signLevel = e.nestingAt signLevel + 1 :=
    Formula.nestingAt_of_le (Nat.le_refl _)
  rw [whole]
  refine Gives.of_iff (Gives.bind inside.orFail ?_) (and_iff_left trivial)
  rw [takes]
  exact .pure

theorem unsigned_gives {e : Formula} {ty : Ty}
    (operand : ReadsFormulas r gap (operand nested scope) literalLevel (· ≤ levels))
    (typed : e.ty? = some ty) (other : e.level ≠ signLevel)
    (ahead : text.dropWhile Cursor.isSpace = e.textAt gap signLevel ++ rest)
    (quiet : Quiet signLevel rest) :
    Gives Rejection.IsDeep r (unary nested scope) text rest { expr := e.expr, ty }
      (e.nestingAt signLevel ≤ levels) := by
  obtain ⟨first, more, split, noMinus, noNot⟩ := e.first_of_operand gap
  rw [← Formula.textAt_succ other] at ahead
  rw [← Formula.nestingAt_succ other]
  have start : (text.dropWhile Cursor.isSpace).head? = some first := by
    rw [ahead]
    exact congrArg List.head? (congrArg (· ++ rest) split)
  refine .close (.after (fun _ => accept_misses (symbol?_misses ?_)) ?_)
  · rw [start]
    exact fun same => noMinus (Option.some.inj same)
  rw [if_neg Bool.false_ne_true]
  have missing : Misses (Cursor.keyword? ['n', 'o', 't']) text := by
    apply keyword?_misses
    intro char same
    rw [start] at same
    cases same
    exact noNot
  refine .after (fun _ => accept_misses missing) ?_
  rw [if_neg Bool.false_ne_true]
  exact (operand e ty text rest typed ahead (quiet.mono (by decide))).orPass

theorem unary_reads (conditional : ReadsFormulas r gap (nested.conditional scope) 0 (· < levels))
    (unary : ReadsFormulas r gap (nested.unary scope) signLevel (· < levels))
    (blank : ∀ c ∈ gap, c = ' ') :
    ReadsFormulas r gap (Grammar.unary nested scope) signLevel (· ≤ levels) := by
  intro e ty text rest typed ahead quiet
  by_cases same : e.level = signLevel
  · rw [Formula.textAt_of_le (Nat.le_of_eq same.symm)] at ahead
    obtain ⟨sign, operand, rfl⟩ := Formula.eq_signed same
    simp only [Formula.ty?, Option.bind_eq_bind, Option.bind_eq_some_iff] at typed
    obtain ⟨ty', inner, signed⟩ := typed
    cases sign with
    | minus =>
        have numeric : ty'.isNumeric = true ∧ ty' = ty := by
          simpa only [Sign.ty?, Option.ite_none_right_eq_some, Option.some.injEq] using signed
        have spelled : text.dropWhile Cursor.isSpace =
            '-' :: (gap ++ (operand.textAt gap signLevel ++ rest)) := by
          rw [ahead, ← List.append_assoc]
          rfl
        refine .close (.after (fun _ => accept_takes (symbol?_takes spelled)) ?_)
        rw [if_pos rfl]
        refine signed_gives unary inner ?_ quiet ?_
        · exact Formula.ahead (fun c member => blank c member ▸ rfl) _ _ _
        · rw [if_pos numeric.1, numeric.2]
    | not =>
        have truth : ty' = .bool ∧ .bool = ty := by
          simpa only [Sign.ty?, Option.ite_none_right_eq_some, Option.some.injEq] using signed
        have noMinus : (text.dropWhile Cursor.isSpace).head? ≠ some '-' := by
          rw [ahead]
          intro same
          cases same
        refine .close (.after (fun _ => accept_misses (symbol?_misses noMinus)) ?_)
        rw [if_neg Bool.false_ne_true]
        have spelled : text.dropWhile Cursor.isSpace =
            ['n', 'o', 't'] ++ ' ' :: (operand.textAt gap signLevel ++ rest) := ahead
        refine .after (fun _ => accept_takes (keyword?_takes spelled rfl rfl)) ?_
        rw [if_pos rfl]
        refine signed_gives unary inner (Formula.ahead_space _ _ _) quiet ?_
        rw [if_pos truth.1, truth.1, truth.2]
  · exact unsigned_gives (operand_reads conditional blank) typed same ahead quiet

/-! Relations and choices. -/

theorem relation_gives {test : Relation} {lhs rhs : Formula} {ty : Ty}
    (additive : ReadsFormulas r gap (additive nested scope) 4 (· ≤ levels))
    (typed : (Formula.binary (.relation test) lhs rhs).ty? = some ty)
    (ahead : text.dropWhile Cursor.isSpace =
      lhs.textAt gap 4 ++ ' ' :: (test.text ++ ' ' :: (rhs.textAt gap 4 ++ rest)))
    (quiet : Quiet 4 rest) :
    Gives Rejection.IsDeep r (relational nested scope) text rest
      { expr := (Formula.binary (.relation test) lhs rhs).expr, ty }
      (lhs.nestingAt 4 ≤ levels ∧ rhs.nestingAt 4 ≤ levels) := by
  simp only [Formula.ty?, Option.bind_eq_bind, Option.bind_eq_some_iff, Connective.ty?,
    Option.ite_none_right_eq_some, Option.some.injEq] at typed
  obtain ⟨tyL, typedL, tyR, typedR, comparable, rfl⟩ := typed
  have consistent : tyL.consistent tyR = true := by
    simpa [Ty.consistent] using comparable
  have follows : Quiet 4 (' ' :: (test.text ++ ' ' :: (rhs.textAt gap 4 ++ rest))) :=
    .connective (.relation test) _
  apply Gives.close
  apply (additive lhs tyL text _ typedL ahead follows).orPass.bind
  refine .after (fun _ => acceptOne_finds (relation_finds test)) ?_
  have right := additive rhs tyR _ rest typedR (Formula.ahead_space _ _ _) quiet
  refine Gives.of_iff (Gives.bind right.orFail ?_) (and_iff_left trivial)
  rw [if_pos consistent]
  exact .pure

theorem relational_reads (additive : ReadsFormulas r gap (additive nested scope) 4 (· ≤ levels)) :
    ReadsFormulas r gap (relational nested scope) 3 (· ≤ levels) := by
  intro e ty text rest typed ahead quiet
  have wide : Quiet 4 rest := quiet.mono (by decide)
  by_cases same : e.level = 3
  · rw [Formula.textAt_of_le (Nat.le_of_eq same.symm)] at ahead
    rw [Formula.nestingAt_of_le (Nat.le_of_eq same.symm)]
    obtain ⟨connective, lhs, rhs, rfl⟩ :=
      e.eq_binary (by rw [same]; decide) (by rw [same]; decide)
    obtain ⟨test, rfl⟩ := Formula.eq_relation same
    refine (relation_gives additive typed ?_ wide).of_iff Nat.max_le.symm
    rw [ahead, Formula.text]
    simp only [Formula.textAt, Connective.leftLevel, Connective.level, Connective.text,
      List.append_assoc, List.cons_append]
  · rw [← Formula.textAt_succ same] at ahead
    rw [← Formula.nestingAt_succ same]
    apply Gives.close
    have first := additive e ty text rest typed ahead wide
    refine Gives.of_iff (Gives.bind first.orPass ?_) (and_iff_left trivial)
    exact .after (fun _ => acceptOne_misses quiet.relation_misses) .pure

theorem choice_gives {condition whenTrue whenFalse : Formula} {ty : Ty}
    (logicalOr : ReadsFormulas r gap (logicalOr nested scope) 1 (· ≤ levels))
    (conditional : ReadsFormulas r gap (nested.conditional scope) 0 (· < levels))
    (typed : (Formula.choice condition whenTrue whenFalse).ty? = some ty)
    (ahead : text.dropWhile Cursor.isSpace = condition.textAt gap 1 ++ ' ' :: '?' :: ' ' ::
      (whenTrue.textAt gap 0 ++ ' ' :: ':' :: ' ' :: (whenFalse.textAt gap 0 ++ rest)))
    (quiet : Quiet 0 rest) :
    Gives Rejection.IsDeep r (conditionalExpression nested scope) text rest
      { expr := (Formula.choice condition whenTrue whenFalse).expr, ty }
      (condition.nestingAt 1 ≤ levels ∧ whenTrue.nestingAt 0 < levels ∧
        whenFalse.nestingAt 0 < levels) := by
  simp only [Formula.ty?, Option.bind_eq_bind, Option.bind_eq_some_iff,
    Option.ite_none_right_eq_some, Option.some.injEq] at typed
  obtain ⟨tyC, typedC, tyT, typedT, tyF, typedF, ⟨rfl, rfl⟩, rfl⟩ := typed
  apply Gives.close
  apply (logicalOr condition .bool text _ typedC ahead (.space rfl (by decide) _)).orPass.bind
  refine .after (fun _ => accept_takes (symbol?_takes rfl)) ?_
  rw [if_pos rfl, if_pos rfl]
  apply (conditional whenTrue tyT _ _ typedT (Formula.ahead_space _ _ _)
    (.space rfl (by decide) _)).orFail.bind
  refine .after (fun _ => accept_takes (symbol?_takes rfl)) ?_
  rw [if_pos rfl]
  have last := conditional whenFalse tyT _ rest typedF (Formula.ahead_space _ _ _) quiet
  refine Gives.of_iff (Gives.bind last.orFail ?_) (and_iff_left trivial)
  have joined : tyT.join? tyT = some tyT := if_pos rfl
  rw [if_pos (by simp [Ty.consistent]), joined]
  exact .pure

theorem conditionalExpression_reads
    (logicalOr : ReadsFormulas r gap (logicalOr nested scope) 1 (· ≤ levels))
    (conditional : ReadsFormulas r gap (nested.conditional scope) 0 (· < levels)) :
    ReadsFormulas r gap (conditionalExpression nested scope) 0 (· ≤ levels) := by
  intro e ty text rest typed ahead quiet
  by_cases same : e.level = 0
  · rw [Formula.textAt_of_le (Nat.zero_le _)] at ahead
    rw [Formula.nestingAt_of_le (Nat.zero_le _)]
    obtain ⟨condition, whenTrue, whenFalse, rfl⟩ := Formula.eq_choice same
    refine (choice_gives logicalOr conditional typed ?_ quiet).of_iff ?_
    · rw [ahead, Formula.text, Formula.textAt_of_le (Nat.zero_le _),
        Formula.textAt_of_le (Nat.zero_le _)]
      simp only [Formula.textAt, List.append_assoc, List.cons_append]
    · change _ ↔ max _ (max _ _) ≤ levels
      rw [Nat.max_le, Nat.max_le, Formula.nestingAt_of_le (Nat.zero_le _),
        Formula.nestingAt_of_le (Nat.zero_le _)]
      rfl
  · rw [← Formula.textAt_succ same] at ahead
    rw [← Formula.nestingAt_succ same]
    apply Gives.close
    have first := logicalOr e ty text rest typed ahead (quiet.mono (by decide))
    refine Gives.of_iff (Gives.bind first.orPass ?_) (and_iff_left trivial)
    exact .after (fun _ => accept_misses (quiet.symbol?_misses (by decide))) .pure

/-! All levels of nesting. -/

/-- The rules with something nested read formulas if the nested rules do. -/
theorem nested_reads (blank : ∀ c ∈ gap, c = ' ')
    (conditional : ReadsFormulas r gap (nested.conditional scope) 0 (· < levels))
    (unary : ReadsFormulas r gap (nested.unary scope) signLevel (· < levels)) :
    ReadsFormulas r gap (conditionalExpression nested scope) 0 (· ≤ levels) ∧
      ReadsFormulas r gap (Grammar.unary nested scope) signLevel (· ≤ levels) := by
  have signs := unary_reads conditional unary blank
  have products : ReadsFormulas r gap (multiplicative nested scope) 5 (· ≤ levels) :=
    chain_reads multiplicative_chained signs
  have sums : ReadsFormulas r gap (additive nested scope) 4 (· ≤ levels) :=
    chain_reads additive_chained products
  have conjunctions : ReadsFormulas r gap (logicalAnd nested scope) 2 (· ≤ levels) :=
    chain_reads logicalAnd_chained (relational_reads sums)
  have disjunctions : ReadsFormulas r gap (logicalOr nested scope) 1 (· ≤ levels) :=
    chain_reads logicalOr_chained conjunctions
  exact ⟨conditionalExpression_reads disjunctions conditional, signs⟩

theorem nestedWithin_reads (blank : ∀ c ∈ gap, c = ' ') (levels : Nat) :
    ReadsFormulas r gap ((nestedWithin levels).conditional scope) 0 (· < levels) ∧
      ReadsFormulas r gap ((nestedWithin levels).unary scope) signLevel (· < levels) := by
  induction levels with
  | zero =>
      have deep (level : Nat) : ReadsFormulas r gap (fun s => tooDeep s) level (· < 0) :=
        fun e ty text rest _ _ _ => Gives.tooDeep.of_iff (iff_of_false id (Nat.not_lt_zero _))
      exact ⟨deep 0, deep signLevel⟩
  | succ levels induction =>
      obtain ⟨conditional, signs⟩ := nested_reads blank induction.1 induction.2
      constructor
      · exact fun e ty text rest typed ahead quiet =>
          (conditional e ty text rest typed ahead quiet).of_iff Nat.lt_succ_iff.symm
      · exact fun e ty text rest typed ahead quiet =>
          (signs e ty text rest typed ahead quiet).of_iff Nat.lt_succ_iff.symm

end StackScript.Grammar
