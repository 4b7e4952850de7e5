import StackScript.Grammar.Expression
import StackScript.Proofs.Seating.Rule

namespace StackScript.Grammar

/-! Expressions from any state: they declare nothing, and what they name is stored as their code
needs it. -/

variable {r : Registry}

/-- What the code of an expression names is stored as it has to be. -/
def Typed.Suits (r : Registry) (t : Typed) : Prop :=
  t.expr.Suits r

/-- A rule for expressions, which declares nothing. -/
abbrev Suitable (r : Registry) (rule : Rule Typed) : Prop :=
  Keeps r rule (Typed.Suits r) (Rejection.Keeps r)

structure Nested.Suitable (r : Registry) (nested : Nested) : Prop where
  conditional : ∀ scope, Grammar.Suitable r (nested.conditional scope)
  unary : ∀ scope, Grammar.Suitable r (nested.unary scope)

namespace Typed.Suits

variable {t lhs rhs : Typed} {ty : Ty}

theorem negate (suits : t.Suits r) : Suits r { t with expr := .negate t.expr } :=
  forall_mem_concat suits (.plain rfl)

theorem arith (operation : Arithmetic) (left : lhs.Suits r) (right : rhs.Suits r) :
    Suits r { expr := .arith operation lhs.expr rhs.expr, ty } :=
  forall_mem_concat (List.forall_mem_append.mpr ⟨left, right⟩) (.plain rfl)

theorem compare (relation : Relation) (left : lhs.Suits r) (right : rhs.Suits r) :
    Suits r { expr := .compare relation lhs.expr rhs.expr, ty } :=
  forall_mem_concat (List.forall_mem_append.mpr ⟨left, right⟩) (.plain rfl)

theorem choice {condition : Typed} (tested : condition.Suits r) (left : lhs.Suits r)
    (right : rhs.Suits r) :
    Suits r { expr := .choice condition.expr lhs.expr rhs.expr, ty } :=
  List.forall_mem_append.mpr
    ⟨forall_mem_concat
      (List.forall_mem_append.mpr ⟨forall_mem_concat tested (.plain rfl), left⟩) (.plain rfl),
      right⟩

theorem all {ts : List Typed} (suits : ∀ t ∈ ts, Typed.Suits r t) :
    ∀ i ∈ Expr.listings (ts.map Typed.expr), i.Suits r := by
  induction ts with
  | nil => exact List.forall_mem_nil _
  | cons t ts induction =>
      obtain ⟨first, others⟩ := List.forall_mem_cons.mp suits
      exact List.forall_mem_append.mpr ⟨first, induction others⟩

theorem element {array : Typed} {indexes : List Typed} (suits : array.Suits r)
    (others : ∀ t ∈ indexes, Typed.Suits r t) :
    Suits r { expr := .element array.expr (indexes.map Typed.expr), ty } :=
  forall_mem_concat (List.forall_mem_append.mpr ⟨suits, all others⟩) (.plain rfl)

/-- A function is called by a symbol that is stored as one. -/
theorem call {args : List Typed} {index : Nat} {s : Symbol} (found : r.get? index = some s)
    (isFunction : s.kind.isFunction = true) (suits : ∀ t ∈ args, Typed.Suits r t) :
    Suits r { expr := .call index (args.map Typed.expr), ty } := by
  refine forall_mem_concat (all suits) (.names rfl found ?_)
  cases kind : s.kind with
  | builtinFn | fn => exact List.mem_cons_self
  | builtinVar | var | dynamicVar =>
      rw [kind] at isFunction
      cases isFunction

/-- The result of a function is a cell of its frame. -/
theorem result {index : Nat} {s : Symbol} (found : r.get? index = some s)
    (isFunction : s.kind.isFunction = true) : Suits r { expr := .cell .dynamic index, ty } := by
  refine List.forall_mem_singleton.mpr (.names rfl found ?_)
  cases kind : s.kind with
  | builtinFn | fn => exact List.mem_cons_of_mem _ List.mem_cons_self
  | builtinVar | var | dynamicVar =>
      rw [kind] at isFunction
      cases isFunction

theorem variable' {index : Nat} {s : Symbol} (found : r.get? index = some s)
    (isVariable : ¬ s.kind.isFunction = true) :
    Suits r { expr := .cell (if s.kind = .dynamicVar then .dynamic else .static) index, ty } := by
  cases kind : s.kind with
  | builtinVar | var =>
      refine List.forall_mem_singleton.mpr (.names rfl found ?_)
      rw [kind]
      exact List.mem_cons_self
  | dynamicVar =>
      refine List.forall_mem_singleton.mpr (.names rfl found ?_)
      rw [kind]
      exact List.mem_cons_self
  | builtinFn | fn =>
      rw [kind] at isVariable
      exact absurd rfl isVariable

end Typed.Suits

section Chain

variable {ω : Type} {operand : Rule Typed} {operator : Cursor → Option (ω × Cursor)}
variable {combine : ω → Typed → Typed → Except Cause Typed} {cause : Cause}

theorem chainLoop_suitable (suitable : Suitable r operand)
    (combines : ∀ op lhs rhs result, lhs.Suits r → rhs.Suits r →
      combine op lhs rhs = .ok result → result.Suits r) (fuel : Nat) {first : Typed}
    (suits : first.Suits r) :
    Keeps r (chainLoop operand operator combine cause fuel first) (Typed.Suits r)
      (Failure.Keeps r) := by
  induction fuel generalizing first with
  | zero => exact .pure ⟨rfl, suits⟩
  | succ fuel induction =>
      refine .keep (.acceptOne _) fun found _ => ?_
      cases found with
      | none => exact .pure ⟨rfl, suits⟩
      | some op =>
          refine .keep (.orFail suitable) fun rhs right => ?_
          cases combined : combine op first rhs with
          | error mismatch => exact .fail
          | ok result => exact induction (combines op first rhs result suits right combined)

theorem chain_suitable (suitable : Suitable r operand)
    (combines : ∀ op lhs rhs result, lhs.Suits r → rhs.Suits r →
      combine op lhs rhs = .ok result → result.Suits r) :
    Suitable r (chain operand operator combine cause) :=
  .close (.keep (.orPass suitable) fun _ suits => .keep .remaining fun _ _ =>
    chainLoop_suitable suitable combines _ suits)

end Chain

theorem combineLogical_suits {operation : Arithmetic} {op : Unit} {lhs rhs result : Typed}
    (left : lhs.Suits r) (right : rhs.Suits r)
    (combined : combineLogical operation op lhs rhs = .ok result) : result.Suits r := by
  simp only [combineLogical] at combined
  split at combined
  · cases combined
    exact .arith operation left right
  · cases combined

theorem combineAdditive_suits {operation : Arithmetic} {lhs rhs result : Typed}
    (left : lhs.Suits r) (right : rhs.Suits r)
    (combined : combineAdditive operation lhs rhs = .ok result) : result.Suits r := by
  simp only [combineAdditive] at combined
  split at combined
  · cases combined
    exact .arith operation left right
  · split at combined
    · cases combined
      exact .arith operation left right
    · cases combined

theorem combineMultiplicative_suits {operation : Arithmetic} {lhs rhs result : Typed}
    (left : lhs.Suits r) (right : rhs.Suits r)
    (combined : combineMultiplicative operation lhs rhs = .ok result) : result.Suits r := by
  simp only [combineMultiplicative] at combined
  split at combined
  · cases combined
    exact .arith operation left right
  · cases combined

section Operand

variable {conditional : Rule Typed} (suitable : Suitable r conditional)

include suitable

theorem argumentsLoop_suitable (fuel : Nat) :
    Keeps r (argumentsLoop conditional fuel) (fun ts => ∀ t ∈ ts, Typed.Suits r t)
      (Failure.Keeps r) := by
  induction fuel with
  | zero => exact .fail
  | succ fuel induction =>
      refine .keep (.orFail suitable) fun first suits => .keep (.acceptSymbol ',') fun _ _ => ?_
      refine .ite (fun _ => .keep induction fun rest others => .pure ⟨rfl, ?_⟩) fun _ => ?_
      · exact List.forall_mem_cons.mpr ⟨suits, others⟩
      · exact .pure ⟨rfl, List.forall_mem_singleton.mpr suits⟩

theorem arguments_suitable :
    Keeps r (arguments conditional) (fun ts => ∀ t ∈ ts, Typed.Suits r t) (Rejection.Keeps r) :=
  .close (.keep .remaining fun _ _ => argumentsLoop_suitable suitable _)

theorem callArguments_suitable (params : List Ty) :
    Keeps r (callArguments conditional params) (fun ts => ∀ t ∈ ts, Typed.Suits r t)
      (Failure.Keeps r) := by
  refine .keep .cursor fun c _ => .ite (fun _ => .keep (.moveTo _) fun _ _ => ?_) fun _ => .fail
  have empty : Keeps r (if params.isEmpty then acceptSymbol ')' else pure false : Body Bool)
      (fun _ => True) (Failure.Keeps r) :=
    .ite (fun _ => .acceptSymbol ')') fun _ => .pure ⟨rfl, trivial⟩
  refine .keep empty fun closed _ => .ite (fun _ => .pure ⟨rfl, List.forall_mem_nil _⟩) fun _ => ?_
  refine .keep (.orFail (arguments_suitable suitable)) fun args suits => ?_
  exact .keep (.acceptSymbol ')') fun _ _ => .ite (fun _ => .pure ⟨rfl, suits⟩) fun _ => .fail

theorem indexLoop_suitable (fuel : Nat) {array : Typed} (suits : array.Suits r) :
    Keeps r (indexLoop conditional fuel array) (Typed.Suits r) (Failure.Keeps r) := by
  induction fuel generalizing array with
  | zero => exact .pure ⟨rfl, suits⟩
  | succ fuel induction =>
      refine .keep .cursor fun c _ => .ite (fun _ => ?_) fun _ => .pure ⟨rfl, suits⟩
      refine .keep (.moveTo _) fun _ _ => ?_
      refine .attempt (arguments_suitable suitable) ?_ (fun _ => .fail) fun _ => ?_
      · rintro indexes _ ⟨rfl, others⟩
        refine .keep (.acceptSymbol ']') fun _ _ => .ite (fun _ => ?_) fun _ => .fail
        split
        · exact induction (.element suits others)
        · exact .fail
      · exact Meets.throw fun _ _ broken => by cases broken

theorem primary_suitable (side : Side) (scope : Scope) :
    Suitable r (primary conditional side scope) := by
  refine .close (.keep (.orPass (identifier_keeps scope .inherited)) fun found _ => ?_)
  refine .keep .registry fun registry same => ?_
  subst same
  split
  · rename_i index symbol here get?
    have found : registry.get? index = some symbol := by simpa [here] using get?
    refine .ite (fun isFunction => .ite (fun _ => .pure ⟨rfl, .result found isFunction⟩)
      fun _ => ?_) fun isVariable => ?_
    · refine .keep (callArguments_suitable suitable symbol.params) fun args suits => ?_
      exact .ite (fun _ => .pure ⟨rfl, .call found isFunction suits⟩) fun _ => .fail
    · exact .keep .remaining fun n _ =>
        indexLoop_suitable suitable _ (.variable' found isVariable)
  · exact .fail

end Operand

section Levels

variable {nested : Nested} (deeper : nested.Suitable r)

include deeper

theorem dotted_suitable (side : Side) (scope : Scope) (tried : List Diagnostic) :
    Keeps r (dotted nested side scope tried) (Typed.Suits r) (Failure.Keeps r) := by
  refine .keep .cursor fun c _ => .keep (.moveTo _) fun _ _ => ?_
  refine .attempt (primary_suitable (deeper.conditional _) side _) ?_ (fun nodes => ?_)
    fun nodes => ?_
  · rintro t _ ⟨rfl, suits⟩
    exact .keep .cursor fun _ _ => .ite (fun _ => .fail) fun _ => .pure ⟨rfl, suits⟩
  · exact Meets.throw fun _ start _ => start
  · refine Meets.throw fun _ _ unmatched => ?_
    split at unmatched <;> cases unmatched

theorem parenthesized_suitable (scope : Scope) (tried : List Diagnostic) :
    Keeps r (parenthesized nested scope tried) (Typed.Suits r) (Failure.Keeps r) := by
  refine .attempt (deeper.conditional scope) ?_ (fun _ => .fail) fun _ => ?_
  · rintro t _ ⟨rfl, suits⟩
    exact .keep (.acceptSymbol ')') fun _ _ => .ite (fun _ => .pure ⟨rfl, suits⟩) fun _ => .fail
  · exact Meets.throw fun _ _ broken => by cases broken

theorem target_suitable (scope : Scope) : Suitable r (target nested scope) :=
  .close (.keep .skipSpace fun _ _ => dotted_suitable deeper .left scope [])

theorem operand_suitable (scope : Scope) : Suitable r (operand nested scope) := by
  refine .close (.keep .skipSpace fun _ _ => .attempt literal_keeps ?_ (fun nodes => ?_) ?_)
  · rintro l _ ⟨rfl, -⟩
    refine .pure ⟨rfl, List.forall_mem_singleton.mpr (.plain ?_)⟩
    cases l <;> rfl
  · refine .ite (fun _ => .fail) fun _ => .keep (.acceptSymbol '(') fun _ _ => ?_
    exact .ite (fun _ => parenthesized_suitable deeper scope nodes)
      fun _ => dotted_suitable deeper .right scope nodes
  · exact fun nodes => Meets.throw fun _ _ broken => by cases broken

theorem unary_suitable (scope : Scope) : Suitable r (unary nested scope) := by
  refine .close (.keep (.acceptSymbol '-') fun _ _ => .ite (fun _ => ?_) fun _ => ?_)
  · refine .keep (.orFail (deeper.unary scope)) fun e suits => ?_
    exact .ite (fun _ => .pure ⟨rfl, suits.negate⟩) fun _ => .fail
  · refine .keep (.acceptKeyword _) fun _ _ => .ite (fun _ => ?_) fun _ => ?_
    · refine .keep (.orFail (deeper.unary scope)) fun e suits => ?_
      exact .ite (fun _ => .pure ⟨rfl, suits.negate⟩) fun _ => .fail
    · exact .orPass (operand_suitable deeper scope)

theorem multiplicative_suitable (scope : Scope) : Suitable r (multiplicative nested scope) :=
  chain_suitable (unary_suitable deeper scope) fun _ _ _ _ => combineMultiplicative_suits

theorem additive_suitable (scope : Scope) : Suitable r (additive nested scope) :=
  chain_suitable (multiplicative_suitable deeper scope) fun _ _ _ _ => combineAdditive_suits

theorem relational_suitable (scope : Scope) : Suitable r (relational nested scope) := by
  refine .close (.keep (.orPass (additive_suitable deeper scope)) fun lhs left => ?_)
  refine .keep (.acceptOne _) fun found _ => ?_
  cases found with
  | none => exact .pure ⟨rfl, left⟩
  | some relation =>
      refine .keep (.orFail (additive_suitable deeper scope)) fun rhs right => ?_
      exact .ite (fun _ => .pure ⟨rfl, .compare relation left right⟩) fun _ => .fail

theorem logicalAnd_suitable (scope : Scope) : Suitable r (logicalAnd nested scope) :=
  chain_suitable (relational_suitable deeper scope) fun _ _ _ _ => combineLogical_suits

theorem logicalOr_suitable (scope : Scope) : Suitable r (logicalOr nested scope) :=
  chain_suitable (logicalAnd_suitable deeper scope) fun _ _ _ _ => combineLogical_suits

theorem conditionalExpression_suitable (scope : Scope) :
    Suitable r (conditionalExpression nested scope) := by
  refine .close (.keep (.orPass (logicalOr_suitable deeper scope)) fun condition tested => ?_)
  refine .keep (.acceptSymbol '?') fun _ _ => .ite (fun _ => ?_) fun _ => .pure ⟨rfl, tested⟩
  refine .ite (fun _ => ?_) fun _ => .fail
  refine .keep (.orFail (deeper.conditional scope)) fun accepted left => ?_
  refine .keep (.acceptSymbol ':') fun _ _ => .ite (fun _ => ?_) fun _ => ?_
  · refine .keep (.orFail (deeper.conditional scope)) fun refused right => ?_
    exact .ite (fun _ => .pure ⟨rfl, .choice tested left right⟩) fun _ => .fail
  · exact .keep .cursor fun _ _ => .fail

end Levels

theorem nestedWithin_suitable (levels : Nat) : (nestedWithin levels).Suitable r := by
  induction levels with
  | zero => exact ⟨fun _ => .tooDeep, fun _ => .tooDeep⟩
  | succ levels induction =>
      exact ⟨conditionalExpression_suitable induction, unary_suitable induction⟩

end StackScript.Grammar
