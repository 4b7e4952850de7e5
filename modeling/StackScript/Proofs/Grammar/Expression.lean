import StackScript.Proofs.Grammar.Word

namespace StackScript.Grammar

/-! Expressions that are read have the types that they are read with. -/

variable {r : Registry}

/-- The tree of an expression has its type. -/
def Typed.Sound (r : Registry) (t : Typed) : Prop :=
  t.expr.Typed r t.ty

/-- The rules for what stands one level deeper are sound. -/
structure Nested.Sound (r : Registry) (nested : Nested) : Prop where
  conditional : ∀ scope, Parses r (nested.conditional scope) (Typed.Sound r)
  unary : ∀ scope, Parses r (nested.unary scope) (Typed.Sound r)

section Chain

variable {ω : Type} {operand : Rule Typed} {operator : Cursor → Option (ω × Cursor)}
variable {combine : ω → Typed → Typed → Except Cause Typed} {cause : Cause} {known : ω → Prop}

theorem chainLoop_parses (parses : Parses r operand (Typed.Sound r))
    (follows : ∀ c op c', operator c = some (op, c') → c.Follows c' ∧ known op)
    (combines : ∀ op lhs rhs result, known op → lhs.Sound r → rhs.Sound r →
      combine op lhs rhs = .ok result → result.Sound r) (fuel : Nat) {first : Typed}
    (sound : first.Sound r) :
    Parses r (chainLoop operand operator combine cause fuel first) (Typed.Sound r) := by
  induction fuel generalizing first with
  | zero => exact .pure sound
  | succ fuel induction =>
      refine .bind (.acceptOne follows) fun found holds => ?_
      cases found with
      | none => exact .pure sound
      | some op =>
          refine .bind (.orFail parses) fun rhs soundR => ?_
          cases combined : combine op first rhs with
          | error mismatch => exact .fail
          | ok result => exact induction (combines op first rhs result (holds op rfl) sound soundR combined)

theorem chain_parses (parses : Parses r operand (Typed.Sound r))
    (follows : ∀ c op c', operator c = some (op, c') → c.Follows c' ∧ known op)
    (combines : ∀ op lhs rhs result, known op → lhs.Sound r → rhs.Sound r →
      combine op lhs rhs = .ok result → result.Sound r) :
    Parses r (chain operand operator combine cause) (Typed.Sound r) :=
  .close (.bind (.orPass parses) fun _ sound => .seq .remaining fun _ =>
    chainLoop_parses parses follows combines _ sound)

end Chain

theorem signOperator_follows {ω : Type} {signs : List (Char × ω)} {c c' : Cursor} {op : ω}
    (read : signOperator signs c = some (op, c')) :
    c.Follows c' ∧ ∃ char, signs.lookup char = some op := by
  simp only [signOperator] at read
  split at read
  · cases read
  · split at read
    · rename_i op' found
      split at read
      · cases read
      · cases read
        exact ⟨c.follows_skipSpace.trans (Cursor.follows_advance _), _, found⟩
    · cases read

theorem wordOperator_follows {word : String} {c c' : Cursor} {op : Unit}
    (read : wordOperator word c = some (op, c')) : c.Follows c' ∧ True := by
  simp only [wordOperator, Option.map_eq_some_iff] at read
  obtain ⟨behind, found, equal⟩ := read
  cases equal
  exact ⟨Cursor.follows_keyword? found, trivial⟩

theorem combineLogical_sound {operation : Arithmetic}
    (logical : operation = .multiply ∨ operation = .add) {lhs rhs result : Typed}
    (soundL : lhs.Sound r) (soundR : rhs.Sound r)
    (combined : combineLogical operation () lhs rhs = .ok result) : result.Sound r := by
  simp only [combineLogical, Bool.and_eq_true, decide_eq_true_eq] at combined
  split at combined
  · rename_i truths
    cases combined
    refine ⟨lhs.ty, rhs.ty, soundL, soundR, ?_⟩
    rw [truths.1, truths.2]
    rcases logical with rfl | rfl <;> rfl
  · cases combined

theorem combineMultiplicative_sound {operation : Arithmetic} {lhs rhs result : Typed}
    (soundL : lhs.Sound r) (soundR : rhs.Sound r)
    (combined : combineMultiplicative operation lhs rhs = .ok result) : result.Sound r := by
  simp only [combineMultiplicative] at combined
  split at combined
  · rename_i numeric
    cases combined
    exact ⟨lhs.ty, rhs.ty, soundL, soundR, by rw [Arithmetic.resultTy?, if_pos numeric]⟩
  · cases combined

theorem combineAdditive_sound {operation : Arithmetic}
    (additive : operation = .add ∨ operation = .subtract) {lhs rhs result : Typed}
    (soundL : lhs.Sound r) (soundR : rhs.Sound r)
    (combined : combineAdditive operation lhs rhs = .ok result) : result.Sound r := by
  simp only [combineAdditive] at combined
  split at combined
  · rename_i numeric
    cases combined
    refine ⟨lhs.ty, rhs.ty, soundL, soundR, ?_⟩
    rw [Arithmetic.resultTy?, if_pos numeric]
    rcases additive with rfl | rfl <;> rfl
  · split at combined
    · rename_i strings
      simp only [Bool.and_eq_true, decide_eq_true_eq] at strings
      cases combined
      refine ⟨lhs.ty, rhs.ty, soundL, soundR, ?_⟩
      rw [strings.1, strings.2]
      rcases additive with rfl | rfl <;> rfl
    · cases combined

theorem typedAll_of_sound {ts : List Typed} (sound : ∀ t ∈ ts, Typed.Sound r t) :
    Expr.TypedAll r (ts.map Typed.expr) (ts.map Typed.ty) := by
  induction ts with
  | nil => trivial
  | cons t ts induction =>
      exact ⟨sound t List.mem_cons_self,
        induction fun u member => sound u (List.mem_cons_of_mem t member)⟩

section Operand

variable {conditional : Rule Typed} (parses : Parses r conditional (Typed.Sound r))

include parses

theorem argumentsLoop_parses (fuel : Nat) :
    Parses r (argumentsLoop conditional fuel) fun ts => ∀ t ∈ ts, Typed.Sound r t := by
  induction fuel with
  | zero => exact .fail
  | succ fuel induction =>
      refine .bind (.orFail parses) fun first sound => .seq (.acceptSymbol ',') fun more => ?_
      refine .ite (fun _ => .bind induction fun rest others => .pure ?_) fun _ => .pure ?_
      · exact List.forall_mem_cons.mpr ⟨sound, others⟩
      · exact List.forall_mem_cons.mpr ⟨sound, by simp⟩

theorem arguments_parses :
    Parses r (arguments conditional) fun ts => ∀ t ∈ ts, Typed.Sound r t :=
  .close (.seq .remaining fun _ => argumentsLoop_parses parses _)

theorem callArguments_parses (params : List Ty) :
    Parses r (callArguments conditional params) fun ts => ∀ t ∈ ts, Typed.Sound r t := by
  refine .bind .cursor fun c clean => .ite (fun _ => ?_) fun _ => .fail
  refine .seq (.moveTo (c.follows_advance.notMem clean)) fun _ => ?_
  have empty : Parses r (if params.isEmpty then acceptSymbol ')' else pure false : Body Bool)
      fun _ => True :=
    .ite (fun _ => .acceptSymbol ')') fun _ => .pure trivial
  refine .seq empty fun closed => .ite (fun _ => .pure (by simp)) fun _ => ?_
  refine .bind (.orFail (arguments_parses parses)) fun args sound => ?_
  exact .seq (.acceptSymbol ')') fun _ => .ite (fun _ => .pure sound) fun _ => .fail

theorem indexLoop_parses (fuel : Nat) {array : Typed} (sound : array.Sound r)
    (place : array.expr.isPlace = true) :
    Parses r (indexLoop conditional fuel array)
      fun t => Typed.Sound r t ∧ t.expr.isPlace = true := by
  induction fuel generalizing array with
  | zero => exact .pure ⟨sound, place⟩
  | succ fuel induction =>
      refine .bind .cursor fun c clean => .ite (fun _ => ?_) fun _ => .pure ⟨sound, place⟩
      refine .seq (.moveTo (c.follows_advance.notMem clean)) fun _ => ?_
      refine .bind (.attempt (arguments_parses parses)) fun outcome holds => ?_
      cases outcome with
      | error e => exact .fail
      | ok indexes =>
          refine .seq (.acceptSymbol ']') fun _ => .ite (fun _ => ?_) fun _ => .fail
          cases element : elementTy? array.ty (indexes.map Typed.ty) with
          | none => exact .fail
          | some ty =>
              refine induction ?_ place
              simp only [elementTy?] at element
              split at element
              · rename_i index content arrayTy
                split at element
                · rename_i exact
                  obtain rfl := Option.some.inj element
                  have all := typedAll_of_sound (holds indexes rfl)
                  rw [← exact] at all
                  exact ⟨index, place, by rwa [← arrayTy], all⟩
                · cases element
              · cases element

theorem primary_parses (side : Side) (scope : Scope) :
    Parses r (primary conditional side scope)
      fun t => Typed.Sound r t ∧ (side = .left → t.expr.isPlace = true) := by
  refine .close (.seq (.orPass (identifier_parses scope .inherited)) fun found => ?_)
  refine .bind .registry fun registry same => ?_
  subst same
  split
  · rename_i index symbol here get?
    have found : registry.get? index = some symbol := by simpa [here] using get?
    refine .ite (fun isFunction => .ite (fun left => .pure ?_) fun right => ?_) fun variable' => ?_
    · exact ⟨⟨symbol, found, rfl⟩, fun _ => rfl⟩
    · refine .bind (callArguments_parses parses symbol.params) fun args sound => ?_
      refine .ite (fun callable => .pure ⟨?_, fun left => absurd left right⟩) fun _ => .fail
      exact ⟨symbol, _, found, isFunction, rfl, typedAll_of_sound sound, callable⟩
    · refine .seq .remaining fun n => ?_
      have cell : Typed.Sound registry
          { expr := .cell (if symbol.kind = .dynamicVar then .dynamic else .static) index
            ty := symbol.ty } := by
        by_cases dynamic : symbol.kind = .dynamicVar
        · rw [if_pos dynamic]
          exact ⟨symbol, found, rfl⟩
        · rw [if_neg dynamic]
          refine ⟨symbol, found, ?_, rfl⟩
          cases kind : symbol.kind <;> simp_all [Symbol.Kind.isFunction, Symbol.Kind.isStatic]
      exact (indexLoop_parses parses (n + 1) cell rfl).mono
        fun t done => ⟨done.1, fun _ => done.2⟩
  · exact .fail

end Operand

section Levels

variable {nested : Nested} (deeper : nested.Sound r)

include deeper

theorem dotted_parses (side : Side) (scope : Scope) (tried : List Diagnostic) :
    Parses r (dotted nested side scope tried)
      fun t => Typed.Sound r t ∧ (side = .left → t.expr.isPlace = true) := by
  refine .bind .cursor fun c clean => ?_
  refine .seq (.moveTo ((c.follows_skipWhile _).notMem clean)) fun _ => ?_
  refine .bind (.attempt (primary_parses (deeper.conditional _) side _)) fun outcome holds => ?_
  cases outcome with
  | ok t => exact .bind .cursor fun _ _ => .ite (fun _ => .fail) fun _ => .pure (holds t rfl)
  | error e => exact .throw

theorem parenthesized_parses (scope : Scope) (tried : List Diagnostic) :
    Parses r (parenthesized nested scope tried) (Typed.Sound r) := by
  refine .bind (.attempt (deeper.conditional scope)) fun outcome holds => ?_
  cases outcome with
  | ok t =>
      exact .seq (.acceptSymbol ')') fun _ => .ite (fun _ => .pure (holds t rfl)) fun _ => .fail
  | error e => exact .fail

theorem target_parses (scope : Scope) :
    Parses r (target nested scope) fun t => Typed.Sound r t ∧ t.expr.isPlace = true :=
  .close (.seq .skipSpace fun _ =>
    (dotted_parses deeper .left scope []).mono fun _ done => ⟨done.1, done.2 rfl⟩)

theorem operand_parses (scope : Scope) : Parses r (operand nested scope) (Typed.Sound r) := by
  refine .close (.seq .skipSpace fun _ => .bind (.attempt literal_parses) fun outcome holds => ?_)
  cases outcome with
  | ok l => exact .pure ⟨rfl, holds l rfl⟩
  | error e =>
      refine .ite (fun _ => .fail) fun _ => .seq (.acceptSymbol '(') fun _ => ?_
      exact .ite (fun _ => parenthesized_parses deeper scope e.nodes)
        fun _ => (dotted_parses deeper .right scope e.nodes).mono fun _ done => done.1

theorem unary_parses (scope : Scope) : Parses r (unary nested scope) (Typed.Sound r) := by
  refine .close (.seq (.acceptSymbol '-') fun _ => .ite (fun _ => ?_) fun _ => ?_)
  · refine .bind (.orFail (deeper.unary scope)) fun e sound => ?_
    exact .ite (fun numeric => .pure ⟨sound, .inl numeric⟩) fun _ => .fail
  · refine .seq (.acceptKeyword _) fun _ => .ite (fun _ => ?_) fun _ => ?_
    · refine .bind (.orFail (deeper.unary scope)) fun e sound => ?_
      exact .ite (fun truth => .pure ⟨sound, .inr truth⟩) fun _ => .fail
    · exact .orPass (operand_parses deeper scope)

theorem multiplicative_parses (scope : Scope) :
    Parses r (multiplicative nested scope) (Typed.Sound r) :=
  chain_parses (unary_parses deeper scope) (fun _ _ _ => signOperator_follows)
    fun _ _ _ _ _ => combineMultiplicative_sound

theorem additive_parses (scope : Scope) : Parses r (additive nested scope) (Typed.Sound r) := by
  refine chain_parses (multiplicative_parses deeper scope) (fun _ _ _ => signOperator_follows)
    fun op lhs rhs result known => combineAdditive_sound ?_
  obtain ⟨char, found⟩ := known
  by_cases plus : char = '+'
  · subst plus
    exact .inl (Option.some.inj found).symm
  · by_cases minus : char = '-'
    · subst minus
      exact .inr (Option.some.inj found).symm
    · rw [List.lookup_cons, beq_false_of_ne plus, List.lookup_cons, beq_false_of_ne minus] at found
      cases found

theorem relational_parses (scope : Scope) :
    Parses r (relational nested scope) (Typed.Sound r) := by
  refine .close (.bind (.orPass (additive_parses deeper scope)) fun lhs soundL => ?_)
  refine .seq (acceptFirst_looks (fun _ _ _ => Cursor.follows_operator?) _) fun found => ?_
  cases found with
  | none => exact .pure soundL
  | some relation =>
      refine .bind (.orFail (additive_parses deeper scope)) fun rhs soundR => ?_
      exact .ite (fun consistent => .pure ⟨lhs.ty, rhs.ty, soundL, soundR, consistent, rfl⟩)
        fun _ => .fail

theorem logicalAnd_parses (scope : Scope) : Parses r (logicalAnd nested scope) (Typed.Sound r) :=
  chain_parses (relational_parses deeper scope) (fun _ _ _ => wordOperator_follows)
    fun _ _ _ _ _ => combineLogical_sound (.inl rfl)

theorem logicalOr_parses (scope : Scope) : Parses r (logicalOr nested scope) (Typed.Sound r) :=
  chain_parses (logicalAnd_parses deeper scope) (fun _ _ _ => wordOperator_follows)
    fun _ _ _ _ _ => combineLogical_sound (.inr rfl)

theorem conditionalExpression_parses (scope : Scope) :
    Parses r (conditionalExpression nested scope) (Typed.Sound r) := by
  refine .close (.bind (.orPass (logicalOr_parses deeper scope)) fun condition soundC => ?_)
  refine .seq (.acceptSymbol '?') fun _ => .ite (fun _ => ?_) fun _ => .pure soundC
  refine .ite (fun truth => ?_) fun _ => .fail
  refine .bind (.orFail (deeper.conditional scope)) fun accepted soundT => ?_
  refine .seq (.acceptSymbol ':') fun _ => .ite (fun _ => ?_) fun _ => .bind .cursor ?_
  · refine .bind (.orFail (deeper.conditional scope)) fun refused soundF => ?_
    refine .ite (fun consistent => .pure ?_) fun _ => .fail
    exact ⟨accepted.ty, refused.ty, truth ▸ soundC, soundT, soundF, consistent, rfl⟩
  · exact fun _ _ => .fail

end Levels

theorem nestedWithin_sound (levels : Nat) : (nestedWithin levels).Sound r := by
  induction levels with
  | zero => exact ⟨fun _ => .tooDeep, fun _ => .tooDeep⟩
  | succ levels induction =>
      exact ⟨conditionalExpression_parses induction, unary_parses induction⟩

end StackScript.Grammar
