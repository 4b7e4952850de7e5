import StackScript.Proofs.Formula.Parsing
import StackScript.Proofs.SingleVariable

namespace StackScript

/-! The source text for a formula and the program it compiles to. -/

open Compilation Grammar

variable {gap : List Char} {e : Formula} {s : Scalar} {place : Position}

/-- Declares a variable for the value of a formula and assigns the formula to it. -/
def Formula.source (gap : List Char) (s : Scalar) (e : Formula) : List Char :=
  scalarWord s ++ ' ' :: 'r' :: ' ' :: 'r' :: ' ' :: '=' :: ' ' :: e.text gap

def Formula.symbols (s : Scalar) (place : Position) : Registry :=
  withVariable initialRegistry .root "r" (.scalar s) place

def Formula.statements (e : Formula) : List Stmt :=
  [.declare 6, .assign (.cell .static 6) .set e.expr]

theorem isNew_r : SingleVariable.IsNew ['r'] where
  named := rfl
  free := by decide
  other := by decide

theorem Formula.compile_source (blank : ∀ c ∈ gap, c = ' ') (typed : e.ty? = some (.scalar s)) :
    match compile (String.ofList (e.source gap s)) with
    | .failure d => d.deepest.cause = .nestingTooDeep ∧ maxNesting ≤ e.nesting
    | .success unit => e.nesting < maxNesting ∧
        ∃ place, unit = assemble (symbols s place) e.statements := by
  have whole : e.textAt gap 0 = e.text gap := Formula.textAt_of_le (Nat.zero_le _)
  have ahead : (' ' :: e.text gap).dropWhile Cursor.isSpace = e.textAt gap 0 ++ [] := by
    have spaced : (' ' :: (e.textAt gap 0 ++ [])).dropWhile Cursor.isSpace =
        e.textAt gap 0 ++ [] := e.ahead_space 0 []
    rwa [List.append_nil, whole] at spaced ⊢
  have valued (place : Position) : Gives Rejection.IsDeep (symbols s place)
      ((nestedWithin maxNesting).conditional .root) (' ' :: e.text gap) []
      { expr := e.expr, ty := .scalar s } (e.nestingAt 0 < maxNesting) :=
    (nestedWithin_reads blank maxNesting).1 e _ _ [] typed ahead .nil
  rw [Formula.nestingAt_of_le (Nat.zero_le _)] at valued
  have compiled := SingleVariable.compile_source isNew_r valued
  rw [show SingleVariable.source s ['r'] (e.text gap) = e.source gap s from rfl] at compiled
  cases outcome : compile (String.ofList (e.source gap s)) with
  | failure d =>
      rw [outcome] at compiled
      exact ⟨compiled.1, Nat.not_lt.mp compiled.2⟩
  | success unit =>
      rw [outcome] at compiled
      exact compiled

end StackScript
