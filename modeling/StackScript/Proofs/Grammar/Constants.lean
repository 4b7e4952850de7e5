import StackScript.Grammar.Statement
import StackScript.Proofs.Decimal.Numbers
import StackScript.Proofs.Tree.Parts
import StackScript.Proofs.Value.Identity

namespace StackScript

/-! The literals of a program that is read are those that the rule for literals gives; in
particular none of them is a NaN. -/

/-- The value of a literal. -/
def Literal.atom : Literal → Atom
  | .int n => .int n
  | .float bits => .float (Float.ofBits bits)
  | .str s => .str s
  | .bool b => .bool b

@[simp] theorem Literal.scalar_atom (l : Literal) : .scalar l.atom.scalar = l.ty := by
  cases l <;> rfl

/-! Trees. -/

namespace Expr

variable {p : Literal → Prop}

/-- All literals in an expression have the property. -/
def AllLiterals (p : Literal → Prop) (e : Expr) : Prop :=
  ∀ l, .literal l ∈ e.parts → p l

theorem mem_partsOf {part : Expr} {es : List Expr} :
    part ∈ partsOf es ↔ ∃ e ∈ es, part ∈ e.parts := by
  induction es with
  | nil => simp [partsOf]
  | cons e es induction => simp [partsOf, induction]

namespace AllLiterals

theorem literal {l : Literal} (holds : p l) : (Expr.literal l).AllLiterals p := by
  intro l' member
  rw [parts, List.mem_singleton] at member
  cases member
  exact holds

theorem cell (lifetime : Lifetime) (symbol : Nat) : (Expr.cell lifetime symbol).AllLiterals p := by
  simp [AllLiterals, parts]

theorem element {array : Expr} {indexes : List Expr} (inner : array.AllLiterals p)
    (all : ∀ e ∈ indexes, e.AllLiterals p) : (Expr.element array indexes).AllLiterals p := by
  intro l member
  simp only [parts, List.mem_cons, List.mem_append, mem_partsOf, reduceCtorEq, false_or] at member
  rcases member with here | ⟨e, inside, here⟩
  · exact inner l here
  · exact all e inside l here

theorem call {function : Nat} {arguments : List Expr} (all : ∀ e ∈ arguments, e.AllLiterals p) :
    (Expr.call function arguments).AllLiterals p := by
  intro l member
  simp only [parts, List.mem_cons, mem_partsOf, reduceCtorEq, false_or] at member
  obtain ⟨e, inside, here⟩ := member
  exact all e inside l here

theorem negate {operand : Expr} (inner : operand.AllLiterals p) :
    (Expr.negate operand).AllLiterals p := by
  intro l member
  simp only [parts, List.mem_cons, reduceCtorEq, false_or] at member
  exact inner l member

theorem arith {operation : Arithmetic} {lhs rhs : Expr} (left : lhs.AllLiterals p)
    (right : rhs.AllLiterals p) : (Expr.arith operation lhs rhs).AllLiterals p := by
  intro l member
  simp only [parts, List.mem_cons, List.mem_append, reduceCtorEq, false_or] at member
  exact member.elim (left l) (right l)

theorem compare {relation : Relation} {lhs rhs : Expr} (left : lhs.AllLiterals p)
    (right : rhs.AllLiterals p) : (Expr.compare relation lhs rhs).AllLiterals p := by
  intro l member
  simp only [parts, List.mem_cons, List.mem_append, reduceCtorEq, false_or] at member
  exact member.elim (left l) (right l)

theorem choice {condition whenTrue whenFalse : Expr} (test : condition.AllLiterals p)
    (accepted : whenTrue.AllLiterals p) (refused : whenFalse.AllLiterals p) :
    (Expr.choice condition whenTrue whenFalse).AllLiterals p := by
  intro l member
  simp only [parts, List.mem_cons, List.mem_append, reduceCtorEq, false_or] at member
  exact member.elim (fun front => front.elim (test l) (accepted l)) (refused l)

end AllLiterals

end Expr

/-- All literals in some statements have the property. -/
def Stmt.AllLiterals (p : Literal → Prop) (stmts : List Stmt) : Prop :=
  ∀ l, .literal l ∈ expressionsOf stmts → p l

namespace Grammar

/-! Rules. -/

variable {ε α β : Type} {result : α → Prop} {last : β → Prop}

/-- What the rule gives has the property, wherever it is used. -/
def Produces (rule : EStateM ε ParseState α) (result : α → Prop) : Prop :=
  Meets (fun _ => True) rule (fun a _ => result a) fun _ _ => True

namespace Produces

theorem pure {a : α} (holds : result a) :
    Produces (Pure.pure a : EStateM ε ParseState α) result :=
  fun _ _ => holds

theorem throw {e : ε} : Produces (MonadExcept.throw e : EStateM ε ParseState α) result :=
  fun _ _ => trivial

theorem bind {rule : EStateM ε ParseState α} {next : α → EStateM ε ParseState β}
    (first : Produces rule result) (second : ∀ a, result a → Produces (next a) last) :
    Produces (rule >>= next) last :=
  Meets.bind first fun a => Meets.of_start (fun _ holds => holds) fun holds =>
    Meets.start (second a holds) fun _ _ => trivial

theorem any (rule : EStateM ε ParseState α) : Produces rule fun _ => True := by
  intro s _
  cases run : rule s <;> exact trivial

theorem seq {rule : EStateM ε ParseState α} {next : α → EStateM ε ParseState β}
    (second : ∀ a, Produces (next a) last) : Produces (rule >>= next) last :=
  bind (any rule) fun a _ => second a

theorem map {rule : EStateM ε ParseState α} {f : α → β} (produces : Produces rule result)
    (image : ∀ a, result a → last (f a)) : Produces (f <$> rule) last := by
  rw [← bind_pure_comp]
  exact bind produces fun a holds => pure (image a holds)

theorem ite {c : Prop} [Decidable c] {yes no : EStateM ε ParseState α}
    (whenTrue : Produces yes result) (whenFalse : Produces no result) :
    Produces (if c then yes else no) result := by
  split
  · exact whenTrue
  · exact whenFalse

theorem fail {cause : Cause} {children : List Diagnostic} :
    Produces (Body.fail cause children : Body α) result :=
  throw

theorem pass {cause : Cause} {children : List Diagnostic} :
    Produces (Body.pass cause children : Body α) result :=
  throw

theorem close {body : Body α} (produces : Produces body result) : Produces body.close result := by
  intro s start
  have done := produces s start
  simp only [Body.close]
  cases run : body s <;> rw [run] at done <;> exact done

theorem orPass {rule : Rule α} {cause : Cause} (produces : Produces rule result) :
    Produces (rule.orPass cause) result := by
  intro s start
  have done := produces s start
  simp only [Rule.orPass]
  cases run : rule s <;> rw [run] at done <;> exact done

theorem orFail {rule : Rule α} {cause : Cause} (produces : Produces rule result) :
    Produces (rule.orFail cause) result := by
  intro s start
  have done := produces s start
  simp only [Rule.orFail]
  cases run : rule s <;> rw [run] at done <;> exact done

theorem attempt {rule : Rule α} (produces : Produces rule result) :
    Produces (rule.attempt : EStateM ε ParseState (Except Rejection α))
      fun outcome => ∀ a, outcome = .ok a → result a := by
  intro s start
  have done := produces s start
  simp only [Rule.attempt]
  cases run : rule s with
  | ok a s' =>
      rw [run] at done
      exact fun b equal => Except.ok.inj equal ▸ done
  | error e s' =>
      intro b equal
      cases equal

theorem or {first second : Rule α} (left : Produces first result)
    (right : Produces second result) : Produces (first.or second) result := by
  intro s start
  have done := left s start
  simp only [Rule.or]
  cases run : first s with
  | ok a s' =>
      rw [run] at done
      exact done
  | error e s' =>
      obtain ⟨signal, nodes⟩ := e
      cases signal with
      | broken => exact trivial
      | unmatched =>
          have next := right s' trivial
          simp only
          cases run' : second s' <;> rw [run'] at next <;> exact next

theorem tooDeep : Produces (Grammar.tooDeep : Rule α) result :=
  fun _ _ => trivial

end Produces

theorem floatLiteral_number :
    Produces floatLiteral fun bits => (Float.ofBits bits).isNaN = false := by
  refine .close (.seq fun _ => .seq fun c => ?_)
  simp only
  split
  · exact .pass
  · rename_i pointed
    refine .seq fun _ => .ite .fail ?_
    split
    · rename_i bits read
      have digits (c : Cursor) : ∀ char ∈ c.wordOf Char.isDigit, char.isDigit = true :=
        fun _ => List.mem_takeWhile_imp
      refine .pure (Decimal.readFloat_pointed ?_ (digits c) (digits _) read)
      rintro empty
      rw [empty] at pointed
      exact pointed rfl
    · exact .fail

/-- A literal that is read is no NaN. -/
theorem literal_number : Produces literal fun l => l.atom.isNaN = false := by
  refine .close (.orPass (.or ?_ (.or ?_ (.or ?_ ?_))))
  · exact .map (.any _) fun _ _ => rfl
  · exact .map floatLiteral_number fun _ number => number
  · exact .map (.any _) fun _ _ => rfl
  · exact .map (.any _) fun _ _ => rfl

section Literals

variable {p : Literal → Prop} (literals : Produces literal p)

/-- The rules for what stands one level deeper give only literals with the property. -/
structure Nested.Spells (p : Literal → Prop) (nested : Nested) : Prop where
  conditional : ∀ scope, Produces (nested.conditional scope) fun t => t.expr.AllLiterals p
  unary : ∀ scope, Produces (nested.unary scope) fun t => t.expr.AllLiterals p

section Chain

variable {ω : Type} {operand : Rule Typed} {operator : Cursor → Option (ω × Cursor)}
variable {combine : ω → Typed → Typed → Except Cause Typed} {cause : Cause}

/-- Every operator joins its operands to one expression. -/
def Joins (combine : ω → Typed → Typed → Except Cause Typed) : Prop :=
  ∀ op lhs rhs result, combine op lhs rhs = .ok result →
    ∃ operation, result.expr = .arith operation lhs.expr rhs.expr

theorem chain_spells (produces : Produces operand fun t => t.expr.AllLiterals p)
    (joins : Joins combine) :
    Produces (chain operand operator combine cause) fun t => t.expr.AllLiterals p := by
  have loop (fuel : Nat) : ∀ {first : Typed}, first.expr.AllLiterals p →
      Produces (chainLoop operand operator combine cause fuel first)
        fun t => t.expr.AllLiterals p := by
    induction fuel with
    | zero => exact fun all => .pure all
    | succ fuel induction =>
        intro first all
        refine .seq fun found => ?_
        cases found with
        | none => exact .pure all
        | some op =>
            refine .bind (.orFail produces) fun rhs right => ?_
            cases combined : combine op first rhs with
            | error mismatch => exact .fail
            | ok result =>
                obtain ⟨operation, same⟩ := joins op first rhs result combined
                exact induction (same ▸ .arith all right)
  exact .close (.bind (.orPass produces) fun _ all => .seq fun _ => loop _ all)

theorem joins_combineLogical (operation : Arithmetic) : Joins (combineLogical operation) := by
  intro op lhs rhs result combined
  simp only [combineLogical] at combined
  split at combined <;> cases combined
  exact ⟨operation, rfl⟩

theorem joins_combineAdditive : Joins combineAdditive := by
  intro op lhs rhs result combined
  simp only [combineAdditive] at combined
  split at combined
  · cases combined
    exact ⟨op, rfl⟩
  · split at combined <;> cases combined
    exact ⟨op, rfl⟩

theorem joins_combineMultiplicative : Joins combineMultiplicative := by
  intro op lhs rhs result combined
  simp only [combineMultiplicative] at combined
  split at combined <;> cases combined
  exact ⟨op, rfl⟩

end Chain

section Operand

variable {conditional : Rule Typed}
variable (produces : Produces conditional fun t => t.expr.AllLiterals p)

include produces

theorem arguments_spell :
    Produces (arguments conditional) fun ts => ∀ e ∈ ts.map Typed.expr, e.AllLiterals p := by
  have loop (fuel : Nat) : Produces (argumentsLoop conditional fuel)
      fun ts => ∀ e ∈ ts.map Typed.expr, e.AllLiterals p := by
    induction fuel with
    | zero => exact .fail
    | succ fuel induction =>
        refine .bind (.orFail produces) fun first all => .seq fun _ => .ite ?_ ?_
        · exact .bind induction fun rest others => .pure (List.forall_mem_cons.mpr ⟨all, others⟩)
        · exact .pure (List.forall_mem_singleton.mpr all)
  exact .close (.seq fun _ => loop _)

theorem callArguments_spell (params : List Ty) :
    Produces (callArguments conditional params)
      fun ts => ∀ e ∈ ts.map Typed.expr, e.AllLiterals p := by
  refine .seq fun c => .ite (.seq fun _ => .seq fun _ => .ite ?_ ?_) .fail
  · exact .pure (List.forall_mem_nil _)
  · exact .bind (.orFail (arguments_spell produces)) fun args all =>
      .seq fun _ => .ite (.pure all) .fail

theorem indexLoop_spells (fuel : Nat) {array : Typed} (all : array.expr.AllLiterals p) :
    Produces (indexLoop conditional fuel array) fun t => t.expr.AllLiterals p := by
  induction fuel generalizing array with
  | zero => exact .pure all
  | succ fuel induction =>
      refine .seq fun c => .ite (.seq fun _ => ?_) (.pure all)
      refine .bind (.attempt (arguments_spell produces)) fun outcome holds => ?_
      cases outcome with
      | error e => exact .fail
      | ok indexes =>
          refine .seq fun _ => .ite ?_ .fail
          cases elementTy? array.ty (indexes.map Typed.ty) with
          | none => exact .fail
          | some ty => exact induction (.element all (holds indexes rfl))

theorem primary_spells (side : Side) (scope : Scope) :
    Produces (primary conditional side scope) fun t => t.expr.AllLiterals p := by
  refine .close (.seq fun found => .seq fun registry => ?_)
  split
  · refine .ite (.ite (.pure (.cell _ _)) ?_) (.seq fun _ => ?_)
    · exact .bind (callArguments_spell produces _) fun args all =>
        .ite (.pure (.call all)) .fail
    · exact indexLoop_spells produces _ (.cell _ _)
  · exact .fail

end Operand

section Levels

variable {nested : Nested} (deeper : nested.Spells p)

include deeper

theorem dotted_spells (side : Side) (scope : Scope) (tried : List Diagnostic) :
    Produces (dotted nested side scope tried) fun t => t.expr.AllLiterals p := by
  refine .seq fun c => .seq fun _ => ?_
  refine .bind (.attempt (primary_spells (deeper.conditional _) side _)) fun outcome holds => ?_
  cases outcome with
  | ok t => exact .seq fun _ => .ite .fail (.pure (holds t rfl))
  | error e => exact .throw

theorem parenthesized_spells (scope : Scope) (tried : List Diagnostic) :
    Produces (parenthesized nested scope tried) fun t => t.expr.AllLiterals p := by
  refine .bind (.attempt (deeper.conditional scope)) fun outcome holds => ?_
  cases outcome with
  | ok t => exact .seq fun _ => .ite (.pure (holds t rfl)) .fail
  | error e => exact .fail

theorem target_spells (scope : Scope) :
    Produces (target nested scope) fun t => t.expr.AllLiterals p :=
  .close (.seq fun _ => dotted_spells deeper .left scope [])

include literals

theorem unary_spells (scope : Scope) :
    Produces (unary nested scope) fun t => t.expr.AllLiterals p := by
  have operand : Produces (operand nested scope) fun t => t.expr.AllLiterals p := by
    refine .close (.seq fun _ => .bind (.attempt literals) fun outcome holds => ?_)
    cases outcome with
    | ok l => exact .pure (.literal (holds l rfl))
    | error e =>
        refine .ite .fail (.seq fun _ => .ite ?_ ?_)
        · exact parenthesized_spells deeper scope e.nodes
        · exact dotted_spells deeper .right scope e.nodes
  have negated {e : Typed} (all : e.expr.AllLiterals p) {c : Prop} [Decidable c] :
      Produces (if c then Pure.pure { e with expr := .negate e.expr }
        else Body.fail .datatypeMismatch [] : Body Typed) fun t => t.expr.AllLiterals p :=
    .ite (.pure (.negate all)) .fail
  refine .close (.seq fun _ => .ite ?_ (.seq fun _ => .ite ?_ (.orPass operand)))
  · exact .bind (.orFail (deeper.unary scope)) fun e all => negated all
  · exact .bind (.orFail (deeper.unary scope)) fun e all => negated all

theorem additive_spells (scope : Scope) :
    Produces (additive nested scope) fun t => t.expr.AllLiterals p :=
  chain_spells (chain_spells (unary_spells literals deeper scope) joins_combineMultiplicative)
    joins_combineAdditive

theorem relational_spells (scope : Scope) :
    Produces (relational nested scope) fun t => t.expr.AllLiterals p := by
  refine .close (.bind (.orPass (additive_spells literals deeper scope)) fun lhs left => ?_)
  refine .seq fun found => ?_
  cases found with
  | none => exact .pure left
  | some relation =>
      exact .bind (.orFail (additive_spells literals deeper scope)) fun rhs right =>
        .ite (.pure (.compare left right)) .fail

theorem conditionalExpression_spells (scope : Scope) :
    Produces (conditionalExpression nested scope) fun t => t.expr.AllLiterals p := by
  have disjunctions : Produces (logicalOr nested scope) fun t => t.expr.AllLiterals p :=
    chain_spells (chain_spells (relational_spells literals deeper scope) (joins_combineLogical _))
      (joins_combineLogical _)
  refine .close (.bind (.orPass disjunctions) fun condition test => ?_)
  refine .seq fun _ => .ite (.ite ?_ .fail) (.pure test)
  refine .bind (.orFail (deeper.conditional scope)) fun whenTrue accepted => ?_
  refine .seq fun _ => .ite ?_ (.seq fun _ => .fail)
  exact .bind (.orFail (deeper.conditional scope)) fun whenFalse refused =>
    .ite (.pure (.choice test accepted refused)) .fail

end Levels

/-! Statements. -/

/-- The rule for the statements of a block gives only literals with the property. -/
def BlockBody.Spells (p : Literal → Prop) (body : BlockBody) : Prop :=
  ∀ lifetime scope, Produces (body lifetime scope) (Stmt.AllLiterals p)

theorem block_spells {body : BlockBody} (inner : body.Spells p) (lifetime : Lifetime)
    (scope : Scope) : Produces (block body lifetime scope) (Stmt.AllLiterals p) := by
  refine .close (.seq fun _ => .ite (.bind (.orFail (inner lifetime scope)) fun stmts all => ?_) ?_)
  · exact .seq fun _ => .ite (.pure all) .fail
  · exact .pass

theorem functionDefinition_spells {body : BlockBody} (inner : body.Spells p) (scope : Scope) :
    Produces (functionDefinition body scope) fun stmt => Stmt.AllLiterals p [stmt] := by
  refine .close (.seq fun start => .seq fun _ => .ite (.seq fun name => .ite .fail ?_) .pass)
  refine .seq fun params => .seq fun _ => .ite (.seq fun ty => .seq fun found => ?_) .fail
  cases found with
  | none => exact .fail
  | some index =>
      refine .bind (.orFail (block_spells inner .dynamic _)) fun stmts all => .pure ?_
      simpa [Stmt.AllLiterals, Stmt.expressionsOf, Stmt.expressions] using all

theorem assignment_spells {nested : Nested} (deeper : nested.Spells p) (scope : Scope) :
    Produces (assignment nested scope) fun stmt => Stmt.AllLiterals p [stmt] := by
  refine .close (.bind (.orPass (target_spells deeper scope)) fun place left =>
    .seq fun found => ?_)
  cases found with
  | none => exact .seq fun _ => .fail
  | some update =>
      refine .bind (.orFail (deeper.conditional scope)) fun value right => .ite (.pure ?_) .fail
      intro l member
      simp only [Stmt.expressionsOf, Stmt.expressions, List.append_nil, List.mem_append] at member
      exact member.elim (left l) (right l)

theorem statementsLoop_spells {next : Nat → Rule Stmt}
    (produces : ∀ opened, Produces (next opened) fun stmt => Stmt.AllLiterals p [stmt])
    (inBlock : Bool) (fuel opened : Nat) :
    Produces (statementsLoop next inBlock fuel opened) (Stmt.AllLiterals p) := by
  have empty : Produces (pure [] : Rule (List Stmt)) (Stmt.AllLiterals p) :=
    .pure fun _ member => absurd member List.not_mem_nil
  induction fuel generalizing opened with
  | zero => exact empty
  | succ fuel induction =>
      refine .seq fun _ => .seq fun start => ?_
      split
      · exact .throw
      · exact empty
      · exact empty
      · refine .bind (.attempt (produces opened)) fun outcome holds => ?_
        cases outcome with
        | error e => exact .seq fun _ => .throw
        | ok stmt =>
            refine .bind (induction _) fun rest others => .pure fun l member => ?_
            have first := holds stmt rfl
            simp only [Stmt.AllLiterals, Stmt.expressionsOf, List.append_nil] at first
            rw [Stmt.expressionsOf, List.mem_append] at member
            exact member.elim (first l) (others l)

theorem statement_spells {nested : Nested} (deeper : nested.Spells p) {body : BlockBody}
    (inner : body.Spells p) (lifetime : Lifetime) (scope : Scope) (opened : Nat) :
    Produces (statement nested body lifetime scope opened)
      fun stmt => Stmt.AllLiterals p [stmt] := by
  refine .or (assignment_spells deeper scope)
    (.or (.map (.any _) fun _ _ => ?_) (.or ?_ (functionDefinition_spells inner scope)))
  · exact fun _ member => absurd member List.not_mem_nil
  · refine .bind (block_spells inner lifetime _) fun stmts all => .seq fun registry => .pure ?_
    simpa [Stmt.AllLiterals, Stmt.expressionsOf, Stmt.expressions] using all

include literals

theorem nestedWithin_spells (levels : Nat) : (nestedWithin levels).Spells p := by
  induction levels with
  | zero => exact ⟨fun _ => .tooDeep, fun _ => .tooDeep⟩
  | succ levels induction =>
      exact ⟨conditionalExpression_spells literals induction, unary_spells literals induction⟩

theorem bodyWithin_spells (levels : Nat) : (bodyWithin levels).Spells p := by
  induction levels with
  | zero => exact fun _ _ => .tooDeep
  | succ levels induction =>
      exact fun lifetime scope => .seq fun _ => statementsLoop_spells (fun opened =>
        statement_spells (nestedWithin_spells literals levels) induction lifetime scope
          opened) _ _ _

/-- A program has only literals that the rule for literals gives. -/
theorem program_spells : Produces program (Stmt.AllLiterals p) :=
  .seq fun _ => statementsLoop_spells (fun opened =>
    statement_spells (nestedWithin_spells literals maxNesting)
      (bodyWithin_spells literals maxNesting) .static .root opened) _ _ _

end Literals

end Grammar

/-- No literal of a program is a NaN. -/
theorem Compiled.literals_numbers {source : String} {r : Registry} {stmts : List Stmt}
    {unit : CodeUnit} (compiled : Compiled source r stmts unit) :
    Stmt.AllLiterals (fun l => l.atom.isNaN = false) stmts := by
  obtain ⟨state, -, run⟩ := compiled.read
  exact (Grammar.program_spells Grammar.literal_number).ok trivial run

end StackScript
