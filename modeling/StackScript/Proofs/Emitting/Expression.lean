import StackScript.Emitting.Expression
import StackScript.Proofs.Emitting.Joining
import StackScript.Proofs.Emitting.Rule

namespace StackScript

namespace Emitting

/-! Rules of expressions write the code of the tree that is read. -/

open Grammar (Typed Side)

namespace Workspace

variable {b c : CodeUnit} {middle back : Listing} {i : Instruction}

theorem write_empty (w : Workspace) : w.write .empty = w := by
  rw [write, CodeUnit.append_empty]
  rfl

theorem write_write (second : b.Holds middle) (third : c.Holds back) (w : Workspace) :
    (w.write b).write c = w.write (b ++ c) :=
  congrArg w.recode (second.append_assoc third w.code)

theorem push_eq (plain : i.target? = none) (w : Workspace) : w.push i = w.write (.single i) := by
  rw [push, CodeUnit.push_eq plain]
  rfl

/-- Code and an instruction behind it. -/
theorem write_push (second : b.Holds middle) (plain : i.target? = none) (w : Workspace) :
    (w.write b).push i = w.write (b ++ .single i) := by
  rw [push_eq plain, write_write second (CodeUnit.holds_single i)]

end Workspace

/-- At a depth, the rule gives the type of the tree and writes its code. -/
def Writes (depth : Nat) (tree : Grammar.Rule Typed) (rule : Rule Ty) : Prop :=
  ∀ w : Workspace, w.depth = depth → Emits w tree rule Typed.ty fun t => w.write t.expr.unit

namespace Writes

variable {depth : Nat} {start w : Workspace} {tree : Grammar.Rule Typed} {rule : Rule Ty}

theorem orPass (writes : Writes depth tree rule) (cause : Cause) (at' : w.depth = depth) :
    Follows w w (tree.orPass cause) (rule.orPass cause) Typed.ty fun t => w.write t.expr.unit :=
  (writes w at').orPass cause

theorem orFail (writes : Writes depth tree rule) (cause : Cause) (from' : start.depth = depth)
    (at' : w.depth = depth) :
    Follows start w (tree.orFail cause) (rule.orFail cause) Typed.ty
      fun t => w.write t.expr.unit :=
  (writes w at').orFail cause (at'.trans from'.symm)

end Writes

structure Nested.Writes (depth : Nat) (tree : Grammar.Nested) (rule : Nested) : Prop where
  conditional : ∀ scope, Emitting.Writes depth (tree.conditional scope) (rule.conditional scope)
  unary : ∀ scope, Emitting.Writes depth (tree.unary scope) (rule.unary scope)

variable {depth : Nat} {start w : Workspace}

section Chains

variable {ω : Type} {operand : Grammar.Rule Typed} {operand' : Rule Ty}
variable {operator : Cursor → Option (ω × Cursor)} {operation : ω → Arithmetic}
variable {combine : ω → Typed → Typed → Except Cause Typed} {result : ω → Ty → Ty → Except Cause Ty}

/-- Combining two trees is an arithmetic operation on them with a type that depends on theirs. -/
def Combines (combine : ω → Typed → Typed → Except Cause Typed) (operation : ω → Arithmetic)
    (result : ω → Ty → Ty → Except Cause Ty) : Prop :=
  ∀ op lhs rhs, combine op lhs rhs =
    (result op lhs.ty rhs.ty).map fun ty => ⟨.arith (operation op) lhs.expr rhs.expr, ty⟩

theorem chainLoop_follows (writes : Writes depth operand operand')
    (combines : Combines combine operation result) (at' : start.depth = depth) (cause : Cause)
    (fuel : Nat) (lhs : Typed) :
    Follows start (start.write lhs.expr.unit)
      (Grammar.chainLoop operand operator combine cause fuel lhs)
      (chainLoop operand' operator operation result cause fuel lhs.ty) Typed.ty
      fun t => start.write t.expr.unit := by
  induction fuel generalizing lhs with
  | zero => exact .pure rfl rfl
  | succ fuel induction =>
      refine .read (.acceptOne operator) fun found => ?_
      cases found with
      | none => exact .pure rfl rfl
      | some op =>
          refine .bind (writes.orFail cause at' at') fun rhs => ?_
          simp only [combines op lhs rhs]
          cases result op lhs.ty rhs.ty with
          | error mismatch => exact .fail rfl
          | ok ty =>
              refine .emit ?_
              rw [Workspace.write_write lhs.expr.holds rhs.expr.holds,
                Workspace.write_push (lhs.expr.holds.append rhs.expr.holds) rfl]
              exact induction ⟨.arith (operation op) lhs.expr rhs.expr, ty⟩

theorem chain_writes (writes : Writes depth operand operand')
    (combines : Combines combine operation result) (cause : Cause) :
    Writes depth (Grammar.chain operand operator combine cause)
      (chain operand' operator operation result cause) := fun _ at' =>
  .close <| .bind (writes.orPass cause at') fun first =>
    .read .remaining fun _ => chainLoop_follows writes combines at' cause _ first

theorem combineLogical_combines (operation : Arithmetic) :
    Combines (Grammar.combineLogical operation) (fun _ => operation) logicalTy := by
  intro op lhs rhs
  unfold Grammar.combineLogical logicalTy
  split <;> rfl

theorem combineAdditive_combines : Combines Grammar.combineAdditive id additiveTy := by
  intro op lhs rhs
  simp only [Grammar.combineAdditive, additiveTy]
  split
  · rfl
  · split <;> rfl

theorem combineMultiplicative_combines :
    Combines Grammar.combineMultiplicative id multiplicativeTy := by
  intro op lhs rhs
  unfold Grammar.combineMultiplicative multiplicativeTy
  split <;> rfl

end Chains

section Arguments

variable {conditional : Grammar.Rule Typed} {conditional' : Rule Ty}

theorem argumentsLoop_follows (writes : Writes depth conditional conditional')
    (from' : start.depth = depth) (fuel : Nat) (at' : w.depth = depth) :
    Follows start w (Grammar.argumentsLoop conditional fuel) (argumentsLoop conditional' fuel)
      (List.map Typed.ty) fun ts => w.write (Expr.units (ts.map Typed.expr)) := by
  induction fuel generalizing w with
  | zero => exact .fail (at'.trans from'.symm)
  | succ fuel induction =>
      refine .bind (writes.orFail _ from' at') fun first => ?_
      refine .read (.acceptSymbol ',') fun found => .ite (fun _ => ?_) fun _ => ?_
      · refine .bind (induction (w := w.write first.expr.unit) at') fun rest => .pure rfl ?_
        exact Workspace.write_write first.expr.holds (Expr.holds_all _) w
      · refine .pure rfl ?_
        simp only [List.map_cons, List.map_nil, Expr.units, CodeUnit.append_empty]

theorem arguments_emit (writes : Writes depth conditional conditional') (at' : w.depth = depth) :
    Emits w (Grammar.arguments conditional) (arguments conditional') (List.map Typed.ty)
      fun ts => w.write (Expr.units (ts.map Typed.expr)) :=
  .close <| .read .remaining fun _ => argumentsLoop_follows writes at' _ at'

theorem indexLoop_follows (writes : Writes depth conditional conditional')
    (from' : start.depth = depth) (fuel : Nat) (array : Typed) :
    Follows start (start.write array.expr.unit) (Grammar.indexLoop conditional fuel array)
      (indexLoop conditional' fuel array.ty) Typed.ty fun t => start.write t.expr.unit := by
  induction fuel generalizing array with
  | zero => exact .pure rfl rfl
  | succ fuel induction =>
      refine .read .cursor fun c => .ite (fun _ => ?_) fun _ => .pure rfl rfl
      refine .read (.moveTo _) fun _ => ?_
      refine .attempt (arguments_emit writes from') (fun indexes => ?_)
        fun _ _ undone => .fail undone.depth
      refine .read (.acceptSymbol ']') fun found => .ite (fun _ => ?_) fun _ => .fail rfl
      cases Grammar.elementTy? array.ty (indexes.map Typed.ty) with
      | none => exact .fail rfl
      | some ty =>
          refine .emit ?_
          rw [Workspace.write_write array.expr.holds (Expr.holds_all _),
            Workspace.write_push (array.expr.holds.append (Expr.holds_all _)) rfl,
            List.length_map, ← List.length_map Typed.expr]
          exact induction ⟨.element array.expr (indexes.map Typed.expr), ty⟩

theorem callArguments_follows (writes : Writes depth conditional conditional')
    (at' : start.depth = depth) (params : List Ty) :
    Follows start start (Grammar.callArguments conditional params)
      (callArguments conditional' params) (List.map Typed.ty)
      fun ts => start.write (Expr.units (ts.map Typed.expr)) := by
  refine .read .cursor fun c => .ite (fun _ => ?_) fun _ => .fail rfl
  refine .read (.moveTo _) fun _ => ?_
  refine .bind (.ite (fun _ => .sure (.acceptSymbol ')')) fun _ => .pure rfl rfl) fun closed => ?_
  refine .ite (fun _ => .pure rfl start.write_empty.symm) fun _ => ?_
  refine .bind ((arguments_emit writes at').orFail _ rfl) fun args => ?_
  exact .read (.acceptSymbol ')') fun _ => .ite (fun _ => .pure rfl rfl) fun _ => .fail rfl

theorem primary_writes (writes : Writes depth conditional conditional') (side : Side)
    (scope : Scope) :
    Writes depth (Grammar.primary conditional side scope) (primary conditional' side scope) := by
  intro w at'
  refine .close <| .bind ((Emits.scan (Grammar.identifier scope .inherited)).orPass _) ?_
  rintro ⟨name, found⟩
  refine .read .registry fun r => ?_
  dsimp only
  cases found with
  | none => exact .fail rfl
  | some index =>
      simp only [Option.bind_some]
      cases r.get? index with
      | none => exact .fail rfl
      | some symbol =>
          refine .ite (fun _ => .ite (fun _ => ?_) fun _ => ?_) fun _ => ?_
          · exact .emit (.pure rfl (w.push_eq rfl))
          · refine .bind (callArguments_follows writes at' symbol.params) fun args => ?_
            refine .ite (fun _ => ?_) fun _ => .fail rfl
            exact .emit (.pure rfl (Workspace.write_push (Expr.holds_all _) rfl w))
          · have cell : (Expr.cell (if symbol.kind = .dynamicVar then .dynamic else .static)
                index).unit =
                .single (if symbol.kind = .dynamicVar then .putDAddr (UInt32.ofNat index)
                  else .putAddr (UInt32.ofNat index)) := by
              split <;> rfl
            refine .emit ?_
            rw [Workspace.push_eq (by split <;> rfl), ← cell]
            exact .read .remaining fun _ => indexLoop_follows writes at' _ ⟨_, symbol.ty⟩

end Arguments

section Rules

variable {tree : Grammar.Nested} {rule : Nested}

theorem dotted_follows (writes : rule.Writes depth tree) (at' : start.depth = depth) (side : Side)
    (scope : Scope) (tried : List Diagnostic) :
    Follows start start (Grammar.dotted tree side scope tried) (dotted rule side scope tried)
      Typed.ty fun t => start.write t.expr.unit := by
  refine .read .cursor fun c => .read (.moveTo _) fun _ => ?_
  refine .attempt (primary_writes (writes.conditional _) side _ start at') (fun t => ?_)
    fun r w' undone => .throw ?_
  · exact .read .cursor fun _ => .ite (fun _ => .fail rfl) fun _ => .pure rfl rfl
  · dsimp only
    split
    · exact undone
    · exact .broken undone.depth

theorem parenthesized_follows (writes : rule.Writes depth tree) (at' : start.depth = depth)
    (scope : Scope) (tried : List Diagnostic) :
    Follows start start (Grammar.parenthesized tree scope tried) (parenthesized rule scope tried)
      Typed.ty fun t => start.write t.expr.unit := by
  refine .attempt (writes.conditional scope start at') (fun t => ?_) fun r w' undone =>
    .fail undone.depth
  exact .read (.acceptSymbol ')') fun _ => .ite (fun _ => .pure rfl rfl) fun _ => .fail rfl

theorem target_writes (writes : rule.Writes depth tree) (scope : Scope) :
    Writes depth (Grammar.target tree scope) (target rule scope) :=
  fun _ at' => .close <| .read .skipSpace fun _ => dotted_follows writes at' .left scope []

theorem literal_emits :
    Emits w Grammar.literal literal Literal.ty fun l => w.write (.single l.instruction) := by
  rw [← bind_pure Grammar.literal]
  refine .bind (Emits.scan Grammar.literal) fun l => .emit (.pure rfl (w.push_eq ?_))
  cases l <;> rfl

theorem operand_writes (writes : rule.Writes depth tree) (scope : Scope) :
    Writes depth (Grammar.operand tree scope) (operand rule scope) := by
  intro w at'
  refine .close <| .read .skipSpace fun _ => ?_
  refine .attempt literal_emits (fun l => .pure rfl rfl) fun r w' undone => ?_
  refine .ite (fun _ => .fail undone.depth) fun room => ?_
  obtain rfl : w' = w := undone.same (by cases h : r.signal <;> simp_all)
  refine .read (.acceptSymbol '(') fun _ => .ite (fun _ => ?_) fun _ => ?_
  · exact parenthesized_follows writes at' scope _
  · exact dotted_follows writes at' .right scope _

theorem unary_writes (writes : rule.Writes depth tree) (scope : Scope) :
    Writes depth (Grammar.unary tree scope) (unary rule scope) := by
  intro w at'
  refine .close <| .read (.acceptSymbol '-') fun _ => .ite (fun _ => ?_) fun _ => ?_
  · refine .bind ((writes.unary scope).orFail _ at' at') fun e =>
      .ite (fun _ => ?_) fun _ => .fail rfl
    exact .emit (.pure rfl (Workspace.write_push e.expr.holds rfl w))
  · refine .read (.acceptKeyword _) fun _ => .ite (fun _ => ?_) fun _ => ?_
    · refine .bind ((writes.unary scope).orFail _ at' at') fun e =>
        .ite (fun _ => ?_) fun _ => .fail rfl
      exact .emit (.pure rfl (Workspace.write_push e.expr.holds rfl w))
    · exact (operand_writes writes scope).orPass _ at'

theorem multiplicative_writes (writes : rule.Writes depth tree) (scope : Scope) :
    Writes depth (Grammar.multiplicative tree scope) (multiplicative rule scope) :=
  chain_writes (unary_writes writes scope) combineMultiplicative_combines _

theorem additive_writes (writes : rule.Writes depth tree) (scope : Scope) :
    Writes depth (Grammar.additive tree scope) (additive rule scope) :=
  chain_writes (multiplicative_writes writes scope) combineAdditive_combines _

theorem relational_writes (writes : rule.Writes depth tree) (scope : Scope) :
    Writes depth (Grammar.relational tree scope) (relational rule scope) := by
  intro w at'
  refine .close <| .bind ((additive_writes writes scope).orPass _ at') fun lhs => ?_
  refine .read (.acceptOne _) fun found => ?_
  cases found with
  | none => exact .pure rfl rfl
  | some relation =>
      refine .bind ((additive_writes writes scope).orFail _ at' at') fun rhs => ?_
      refine .ite (fun _ => .emit (.pure rfl ?_)) fun _ => .fail rfl
      rw [Workspace.write_write lhs.expr.holds rhs.expr.holds]
      exact Workspace.write_push (lhs.expr.holds.append rhs.expr.holds) rfl w

theorem logicalAnd_writes (writes : rule.Writes depth tree) (scope : Scope) :
    Writes depth (Grammar.logicalAnd tree scope) (logicalAnd rule scope) :=
  chain_writes (relational_writes writes scope) (combineLogical_combines .multiply) _

theorem logicalOr_writes (writes : rule.Writes depth tree) (scope : Scope) :
    Writes depth (Grammar.logicalOr tree scope) (logicalOr rule scope) :=
  chain_writes (logicalAnd_writes writes scope) (combineLogical_combines .add) _

/-- The code of a condition with two branches, one part after the other. -/
theorem append_choice (code : CodeUnit) (condition whenTrue whenFalse : Expr) :
    code ++ condition.unit ++
        .single (.jumpIfFalse (UInt32.ofNat (jumpSize + whenTrue.unit.size + jumpSize))) ++
        whenTrue.unit ++ .single (.jump (UInt32.ofNat (jumpSize + whenFalse.unit.size))) ++
        whenFalse.unit =
      code ++ (Expr.choice condition whenTrue whenFalse).unit := by
  have branch := condition.holds.append (CodeUnit.holds_single
    (.jumpIfFalse (UInt32.ofNat (jumpSize + whenTrue.unit.size + jumpSize))))
  have leave := (branch.append whenTrue.holds).append (CodeUnit.holds_single
    (.jump (UInt32.ofNat (jumpSize + whenFalse.unit.size))))
  rw [condition.holds.append_assoc (CodeUnit.holds_single _), branch.append_assoc whenTrue.holds,
    (branch.append whenTrue.holds).append_assoc (CodeUnit.holds_single _),
    leave.append_assoc whenFalse.holds]
  rfl

theorem conditionalExpression_writes (writes : rule.Writes depth tree) (scope : Scope) :
    Writes depth (Grammar.conditionalExpression tree scope) (conditionalExpression rule scope) := by
  intro w at'
  refine .close <| .bind ((logicalOr_writes writes scope).orPass _ at') fun condition => ?_
  refine .read (.acceptSymbol '?') fun _ => .ite (fun _ => ?_) fun _ => .pure rfl rfl
  refine .ite (fun _ => .emit ?_) fun _ => .fail rfl
  refine .bind ((writes.conditional scope).orFail _ at' at') fun whenTrue => .emit ?_
  refine .read (.acceptSymbol ':') fun _ => .ite (fun _ => ?_) fun _ =>
    .read .cursor fun _ => .fail rfl
  refine .land (CodeUnit.landed_branch (w.code ++ condition.expr.unit) whenTrue.expr.unit rfl) ?_
  refine .bind ((writes.conditional scope).orFail _ at' at') fun whenFalse => ?_
  refine .ite (fun _ => ?_) fun _ => .fail rfl
  have leave := CodeUnit.landed_leave
    (w.code ++ condition.expr.unit ++
      .single (.jumpIfFalse (UInt32.ofNat (jumpSize + whenTrue.expr.unit.size + jumpSize))) ++
      whenTrue.expr.unit) whenFalse.expr.unit rfl
  rw [← CodeUnit.size_branch] at leave
  refine .land leave (.pure rfl ?_)
  exact congrArg w.recode (append_choice w.code _ _ _)

theorem nestedWithin_writes (bound depth : Nat) :
    (nestedWithin bound).Writes depth
      (Grammar.nestedWithin (min bound (Grammar.maxNesting - depth))) := by
  induction bound generalizing depth with
  | zero =>
      rw [Nat.zero_min]
      exact ⟨fun _ w _ => .tooDeep fun _ => .refl w _, fun _ w _ => .tooDeep fun _ => .refl w _⟩
  | succ bound induction =>
      by_cases room : depth < Grammar.maxNesting
      · have levels : min (bound + 1) (Grammar.maxNesting - depth) =
            min bound (Grammar.maxNesting - (depth + 1)) + 1 := by omega
        have deeper := induction (depth + 1)
        rw [levels]
        constructor
        · rintro scope w rfl
          exact Emits.deeper room (conditionalExpression_writes deeper scope _ rfl) fun _ => rfl
        · rintro scope w rfl
          exact Emits.deeper room (unary_writes deeper scope _ rfl) fun _ => rfl
      · have full : Grammar.maxNesting ≤ depth := Nat.not_lt.mp room
        rw [Nat.sub_eq_zero_of_le full, Nat.min_zero]
        constructor
        · rintro scope w rfl
          exact .deeper_of_full full fun _ => .refl w _
        · rintro scope w rfl
          exact .deeper_of_full full fun _ => .refl w _

end Rules

end Emitting

end StackScript
