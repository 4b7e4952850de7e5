import Mathlib.Data.List.Forall2
import StackScript.Compilation
import StackScript.Proofs.Value.Operators

namespace StackScript

/-! Trees whose parts have the types that the code for them needs. -/

/-- Symbols were added to the first registry. -/
def Registry.Extends (r r' : Registry) : Prop :=
  r.symbols <+: r'.symbols

namespace Registry

theorem Extends.refl (r : Registry) : r.Extends r :=
  List.prefix_refl r.symbols

theorem Extends.trans {r r' r'' : Registry} (first : r.Extends r') (second : r'.Extends r'') :
    r.Extends r'' :=
  List.IsPrefix.trans first second

theorem Extends.get? {r r' : Registry} {index : Nat} {symbol : Symbol} (grown : r.Extends r')
    (found : r.get? index = some symbol) : r'.get? index = some symbol := by
  obtain ⟨more, whole⟩ := grown
  rw [Registry.get?] at found ⊢
  rw [← whole, List.getElem?_append_left (List.getElem?_eq_some_iff.mp found).1, found]

theorem Extends.size_le {r r' : Registry} (grown : r.Extends r') : r.size ≤ r'.size :=
  List.IsPrefix.length_le grown

end Registry

/-- Whether the cell of a symbol lives for the whole run. -/
def Symbol.Kind.isStatic : Symbol.Kind → Bool
  | .builtinVar | .var => true
  | .dynamicVar | .builtinFn | .fn => false

def Symbol.Kind.isVariable : Symbol.Kind → Bool
  | .var | .dynamicVar => true
  | .builtinVar | .builtinFn | .fn => false

/-- A text without a NUL character, which would end it early in the code. -/
def Literal.NulFree : Literal → Prop
  | .str s => '\x00' ∉ s.toList
  | _ => True

namespace Expr

/-- What an address is pushed for. -/
def isPlace : Expr → Bool
  | .cell _ _ => true
  | .element array _ => array.isPlace
  | _ => false

mutual

def Typed (r : Registry) : Expr → Ty → Prop
  | .literal l, ty => l.ty = ty ∧ l.NulFree
  | .cell .static symbol, ty => ∃ s, r.get? symbol = some s ∧ s.kind.isStatic = true ∧ s.ty = ty
  | .cell .dynamic symbol, ty => ∃ s, r.get? symbol = some s ∧ s.ty = ty
  | .element array indexes, ty =>
      ∃ index, array.isPlace = true ∧ array.Typed r (.array index ty) ∧
        TypedAll r indexes (index.map .scalar)
  | .call function arguments, ty =>
      ∃ s tys, r.get? function = some s ∧ s.kind.isFunction = true ∧ s.ty = ty ∧
        TypedAll r arguments tys ∧ Ty.callable s.params tys = true
  | .negate operand, ty => operand.Typed r ty ∧ (ty.isNumeric = true ∨ ty = .bool)
  | .arith operation lhs rhs, ty =>
      ∃ left right, lhs.Typed r left ∧ rhs.Typed r right ∧
        operation.resultTy? left right = some ty
  | .compare _ lhs rhs, ty =>
      ∃ left right, lhs.Typed r left ∧ rhs.Typed r right ∧ left.consistent right = true ∧
        .bool = ty
  | .choice condition whenTrue whenFalse, ty =>
      ∃ accepted refused, condition.Typed r .bool ∧ whenTrue.Typed r accepted ∧
        whenFalse.Typed r refused ∧ accepted.consistent refused = true ∧
        (accepted.join? refused).getD accepted = ty

def TypedAll (r : Registry) : List Expr → List Ty → Prop
  | [], [] => True
  | e :: rest, ty :: tys => e.Typed r ty ∧ TypedAll r rest tys
  | _, _ => False

end

mutual

theorem Typed.extend {r r' : Registry} (grown : r.Extends r') :
    (e : Expr) → (ty : Ty) → e.Typed r ty → e.Typed r' ty
  | .literal _, _, typed => typed
  | .cell .static _, _, ⟨s, found, rest⟩ => ⟨s, grown.get? found, rest⟩
  | .cell .dynamic _, _, ⟨s, found, rest⟩ => ⟨s, grown.get? found, rest⟩
  | .element array indexes, _, ⟨index, place, typed, all⟩ =>
      ⟨index, place, Typed.extend grown array _ typed, TypedAll.extend grown indexes _ all⟩
  | .call _ arguments, _, ⟨s, tys, found, isFunction, ty, all, callable⟩ =>
      ⟨s, tys, grown.get? found, isFunction, ty, TypedAll.extend grown arguments tys all,
        callable⟩
  | .negate operand, ty, ⟨typed, negatable⟩ => ⟨Typed.extend grown operand ty typed, negatable⟩
  | .arith _ lhs rhs, _, ⟨left, right, typedL, typedR, result⟩ =>
      ⟨left, right, Typed.extend grown lhs left typedL, Typed.extend grown rhs right typedR,
        result⟩
  | .compare _ lhs rhs, _, ⟨left, right, typedL, typedR, rest⟩ =>
      ⟨left, right, Typed.extend grown lhs left typedL, Typed.extend grown rhs right typedR,
        rest⟩
  | .choice condition whenTrue whenFalse, _, ⟨accepted, refused, typedC, typedT, typedF, rest⟩ =>
      ⟨accepted, refused, Typed.extend grown condition _ typedC,
        Typed.extend grown whenTrue accepted typedT,
        Typed.extend grown whenFalse refused typedF, rest⟩

theorem TypedAll.extend {r r' : Registry} (grown : r.Extends r') :
    (es : List Expr) → (tys : List Ty) → TypedAll r es tys → TypedAll r' es tys
  | [], [], typed => typed
  | e :: rest, ty :: tys, ⟨first, others⟩ =>
      ⟨Typed.extend grown e ty first, TypedAll.extend grown rest tys others⟩

end

theorem TypedAll.length {r : Registry} :
    (es : List Expr) → (tys : List Ty) → TypedAll r es tys → es.length = tys.length
  | [], [], _ => rfl
  | _ :: rest, _ :: tys, ⟨_, others⟩ => congrArg Nat.succ (TypedAll.length rest tys others)

theorem Typed.unique {r : Registry} :
    (e : Expr) → {ty ty' : Ty} → e.Typed r ty → e.Typed r ty' → ty = ty'
  | .literal _, _, _, ⟨same, _⟩, ⟨same', _⟩ => same.symm.trans same'
  | .cell .static _, _, _, ⟨_, found, _, same⟩, ⟨_, found', _, same'⟩ => by
      rw [found] at found'
      rw [← same, ← same', Option.some.inj found']
  | .cell .dynamic _, _, _, ⟨_, found, same⟩, ⟨_, found', same'⟩ => by
      rw [found] at found'
      rw [← same, ← same', Option.some.inj found']
  | .element array _, _, _, ⟨_, _, typed, _⟩, ⟨_, _, typed', _⟩ => by
      cases Typed.unique array typed typed'
      rfl
  | .call _ _, _, _, ⟨_, _, found, _, same, _⟩, ⟨_, _, found', _, same', _⟩ => by
      rw [found] at found'
      rw [← same, ← same', Option.some.inj found']
  | .negate operand, _, _, ⟨typed, _⟩, ⟨typed', _⟩ => Typed.unique operand typed typed'
  | .arith _ lhs rhs, _, _, ⟨_, _, typedL, typedR, result⟩, ⟨_, _, typedL', typedR', result'⟩ => by
      cases Typed.unique lhs typedL typedL'
      cases Typed.unique rhs typedR typedR'
      rw [result] at result'
      exact Option.some.inj result'
  | .compare _ _ _, _, _, ⟨_, _, _, _, _, bool⟩, ⟨_, _, _, _, _, bool'⟩ => bool.symm.trans bool'
  | .choice _ whenTrue whenFalse, _, _, ⟨_, _, _, typedT, typedF, _, joined⟩,
      ⟨_, _, _, typedT', typedF', _, joined'⟩ => by
      cases Typed.unique whenTrue typedT typedT'
      cases Typed.unique whenFalse typedF typedF'
      exact joined.symm.trans joined'

end Expr

namespace Stmt

/-- The variables that some statements declare themselves, not inside of other statements. -/
def direct : List Stmt → List Nat
  | [] => []
  | .declare symbol :: rest => symbol :: direct rest
  | _ :: rest => direct rest

mutual

/-- All symbols that a statement declares. -/
def declares : Stmt → List Nat
  | .assign _ _ _ => []
  | .declare symbol => [symbol]
  | .block _ _ body => declaresOf body
  | .function _ symbol params body => symbol :: params ++ declaresOf body

def declaresOf : List Stmt → List Nat
  | [] => []
  | stmt :: rest => stmt.declares ++ declaresOf rest

end

/-- The parameters of a function are cells of the types that callers rely on. -/
def ParamsTyped (r : Registry) (params : List Nat) (tys : List Ty) : Prop :=
  List.Forall₂ (fun param ty => ∃ s, r.get? param = some s ∧ s.kind = .dynamicVar ∧ s.ty = ty)
    params tys

mutual

/-- What a statement in a scope refers to has the types that it relies on, what it declares is in
that scope, and a block resets what is declared in it. -/
def Typed (r : Registry) (scope : Scope) : Stmt → Prop
  | .assign target update value =>
      ∃ ty ty', target.isPlace = true ∧ target.Typed r ty ∧ value.Typed r ty' ∧
        Grammar.updateAllowed update ty ty' = true
  | .declare symbol =>
      ∃ s, r.get? symbol = some s ∧ s.kind.isVariable = true ∧ s.scope = scope
  | .block inside declared body =>
      (∀ cell ∈ declared, ∃ s, r.get? cell = some s ∧ s.kind.isVariable = true) ∧
        direct body ⊆ declared ∧ TypedAll r inside body
  | .function inside symbol params body =>
      ∃ s, r.get? symbol = some s ∧ s.kind = .fn ∧ ParamsTyped r params s.params ∧
        TypedAll r inside body

def TypedAll (r : Registry) (scope : Scope) : List Stmt → Prop
  | [] => True
  | stmt :: rest => stmt.Typed r scope ∧ TypedAll r scope rest

end

theorem ParamsTyped.extend {r r' : Registry} (grown : r.Extends r') {params : List Nat}
    {tys : List Ty} (typed : ParamsTyped r params tys) : ParamsTyped r' params tys :=
  typed.imp fun _ _ ⟨s, found, rest⟩ => ⟨s, grown.get? found, rest⟩

mutual

theorem Typed.extend {r r' : Registry} (grown : r.Extends r') (scope : Scope) :
    (stmt : Stmt) → stmt.Typed r scope → stmt.Typed r' scope
  | .assign target _ value, ⟨ty, ty', place, typed, typed', allowed⟩ =>
      ⟨ty, ty', place, Expr.Typed.extend grown target ty typed,
        Expr.Typed.extend grown value ty' typed', allowed⟩
  | .declare _, ⟨s, found, rest⟩ => ⟨s, grown.get? found, rest⟩
  | .block inside _ body, ⟨cells, reset, all⟩ =>
      ⟨fun cell member =>
          let ⟨s, found, isVariable⟩ := cells cell member
          ⟨s, grown.get? found, isVariable⟩,
        reset, TypedAll.extend grown inside body all⟩
  | .function inside _ _ body, ⟨s, found, kind, params, all⟩ =>
      ⟨s, grown.get? found, kind, params.extend grown, TypedAll.extend grown inside body all⟩

theorem TypedAll.extend {r r' : Registry} (grown : r.Extends r') (scope : Scope) :
    (stmts : List Stmt) → TypedAll r scope stmts → TypedAll r' scope stmts
  | [], typed => typed
  | stmt :: rest, ⟨first, others⟩ =>
      ⟨Typed.extend grown scope stmt first, TypedAll.extend grown scope rest others⟩

end

mutual

theorem Typed.locals {r : Registry} {scope : Scope} :
    (stmt : Stmt) → stmt.Typed r scope →
      ∀ cell ∈ stmt.locals, ∃ s, r.get? cell = some s ∧ s.kind.isVariable = true
  | .assign _ _ _, _, _, member => absurd member List.not_mem_nil
  | .declare _, ⟨s, found, isVariable, _⟩, _, member =>
      List.mem_singleton.mp member ▸ ⟨s, found, isVariable⟩
  | .block _ _ body, ⟨_, _, all⟩, cell, member => TypedAll.locals body all cell member
  | .function _ _ _ _, _, _, member => absurd member List.not_mem_nil

theorem TypedAll.locals {r : Registry} {scope : Scope} :
    (stmts : List Stmt) → TypedAll r scope stmts →
      ∀ cell ∈ localsOf stmts, ∃ s, r.get? cell = some s ∧ s.kind.isVariable = true
  | [], _, _, member => absurd member List.not_mem_nil
  | stmt :: rest, ⟨first, others⟩, cell, member =>
      (List.mem_append.mp member).elim (Typed.locals stmt first cell)
        (TypedAll.locals rest others cell)

end

theorem typedAll_append {r : Registry} {scope : Scope} {front back : List Stmt} :
    TypedAll r scope (front ++ back) ↔ TypedAll r scope front ∧ TypedAll r scope back := by
  induction front with
  | nil => simp [TypedAll]
  | cons stmt front induction => simp [TypedAll, induction, and_assoc]

end Stmt

end StackScript
