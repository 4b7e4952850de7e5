import StackScript.Proofs.Formula.Parsing
import StackScript.Proofs.Grammar.Assignment

namespace StackScript.Grammar

/-! Elements of arrays under formulas, in front of a known text. -/

open Source (blank_space)

variable {r : Registry} {scope : Scope} {nested : Nested} {conditional : Rule Typed}
variable {gap text rest word : List Char} {es : List Formula} {tys : List Ty} {fits : Nat → Prop}
variable {fuel : Nat} {array : Typed} {args : List Typed} {ty : Ty}

/-- Formulas between commas, with a blank behind each of them. -/
def argumentsText (gap : List Char) : List Formula → List Char
  | [] => []
  | [e] => e.text gap ++ [' ']
  | e :: e' :: es => e.text gap ++ ' ' :: ',' :: argumentsText gap (e' :: es)

/-- Formulas as they are read. -/
def typedFormulas (es : List Formula) (tys : List Ty) : List Typed :=
  List.zipWith (fun e ty => { expr := e.expr, ty }) es tys

def WellTyped (es : List Formula) (tys : List Ty) : Prop :=
  List.Forall₂ (fun e ty => Formula.ty? e = some ty) es tys

theorem WellTyped.exprs (typed : WellTyped es tys) :
    (typedFormulas es tys).map Typed.expr = es.map Formula.expr := by
  induction typed with
  | nil => rfl
  | cons _ _ induction => exact congrArg (_ :: ·) induction

theorem WellTyped.types (typed : WellTyped es tys) : (typedFormulas es tys).map Typed.ty = tys := by
  induction typed with
  | nil => rfl
  | cons _ _ induction => exact congrArg (_ :: ·) induction

theorem length_le_argumentsText (gap : List Char) (es : List Formula) :
    es.length ≤ (argumentsText gap es).length := by
  induction es with
  | nil => exact Nat.le_refl 0
  | cons e es induction =>
      cases es with
      | nil => simp [argumentsText]
      | cons e' es =>
          simp only [argumentsText, List.length_append, List.length_cons] at induction ⊢
          omega

theorem ReadsFormulas.argument {e : Formula} {cause : Cause}
    (reads : ReadsFormulas r gap conditional 0 fits) (typed : e.ty? = some ty) (fit : fits e.nesting)
    (quiet : Quiet 0 rest) (fail : Failure → ParseState → Prop) :
    Meets (At r (e.text gap ++ rest)) (conditional.orFail cause)
      (fun t s => t = { expr := e.expr, ty } ∧ At r rest s) fail := by
  have whole : e.textAt gap 0 = e.text gap := Formula.textAt_of_le (Nat.zero_le _)
  have unspaced : (e.text gap ++ rest).dropWhile Cursor.isSpace = e.textAt gap 0 ++ rest := by
    rw [← whole]
    exact @Formula.ahead gap [] (List.forall_mem_nil _) 0 e rest
  have given := reads e ty _ rest typed unspaced quiet
  rw [Formula.nestingAt_of_le (Nat.zero_le _)] at given
  exact (given.of_iff (iff_true_intro fit)).orFail.certain fail

theorem argumentsLoop_gives (reads : ReadsFormulas r gap conditional 0 fits)
    (typed : WellTyped es tys) (fit : ∀ e ∈ es, fits e.nesting) (nonempty : es ≠ [])
    (enough : es.length ≤ fuel) :
    Gives Failure.IsDeep r (argumentsLoop conditional fuel) (argumentsText gap es ++ ']' :: rest)
      (' ' :: ']' :: rest) (typedFormulas es tys) True := by
  induction typed generalizing fuel with
  | nil => exact absurd rfl nonempty
  | @cons e ty es tys typed others induction =>
      obtain ⟨fits, fits'⟩ := List.forall_mem_cons.mp fit
      obtain ⟨fuel, rfl⟩ := Nat.exists_eq_succ_of_ne_zero (Nat.ne_zero_of_lt enough)
      cases others with
      | nil =>
          rw [argumentsText, List.append_assoc]
          refine .after (reads.argument typed fits (.space rfl (by decide) _)) ?_
          exact .after (acceptSymbol_misses blank_space rfl (by decide)) .pure
      | @cons e' ty' es tys typed' others =>
          rw [argumentsText, List.append_assoc]
          refine .after (reads.argument typed fits (.space rfl (by decide) _)) ?_
          refine .after (acceptSymbol_takes blank_space rfl) ?_
          have rest := induction fits' (List.cons_ne_nil _ _) (Nat.le_of_succ_le_succ enough)
          exact .after (fun _ => rest.certain _) .pure

theorem arguments_gives (reads : ReadsFormulas r gap conditional 0 fits)
    (typed : WellTyped es tys) (fit : ∀ e ∈ es, fits e.nesting) (nonempty : es ≠ []) :
    Gives Rejection.IsDeep r (arguments conditional) (argumentsText gap es ++ ']' :: rest)
      (' ' :: ']' :: rest) (typedFormulas es tys) True := by
  refine .close (after_remaining (argumentsLoop_gives reads typed fit nonempty ?_))
  have short := length_le_argumentsText gap es
  rw [List.length_append]
  omega

theorem indexLoop_gives
    (given : Gives Rejection.IsDeep r (arguments conditional) text (' ' :: ']' :: rest) args True)
    (element : elementTy? array.ty (args.map Typed.ty) = some ty) (last : rest.head? ≠ some '[') :
    Gives Failure.IsDeep r (indexLoop conditional (fuel + 1) array) ('[' :: text) rest
      { expr := .element array.expr (args.map Typed.expr), ty } True := by
  unfold indexLoop
  refine .after_cursor fun c ahead => ?_
  rw [if_pos (by simp [Cursor.isAt, Cursor.peek?, ahead])]
  have behind : c.advance.rest = text := by rw [Cursor.rest_advance, ahead, List.tail_cons]
  refine .after_move behind ?_
  refine .after (fun _ => given.attempt _) ?_
  refine .after (acceptSymbol_takes blank_space rfl) ?_
  rw [if_pos rfl, element]
  exact indexLoop_ends last

/-- An element of a variable with one list of indexes. -/
theorem target_gives_element {index : Nat} {symbol : Symbol} (named : isName word = true)
    (free : reservedWords.contains (String.ofList (word.map Char.toLower)) = false)
    (listed : r.find? (String.ofList word) scope .inherited = some index)
    (found : r.get? index = some symbol) (kind : symbol.kind = .var)
    (given : Gives Rejection.IsDeep r (arguments (nested.conditional scope)) text
      (' ' :: ']' :: ' ' :: rest) args True)
    (element : elementTy? symbol.ty (args.map Typed.ty) = some ty) :
    Gives Rejection.IsDeep r (target nested scope) (word ++ '[' :: text) (' ' :: rest)
      { expr := .element (.cell .static index) (args.map Typed.expr), ty } True := by
  have unspaced := (name_plain named ('[' :: text)).1
  have name : Gives Rejection.IsDeep r (identifier scope .inherited) (word ++ '[' :: text)
      ('[' :: text) (String.ofList word, some index) True := by
    rw [← listed]
    exact identifier_gives unspaced named free rfl
  refine target_gives_named unspaced named ?_ (by simp)
  refine primary_gives_indexed name found kind fun fuel enough => ?_
  obtain ⟨fuel, rfl⟩ := Nat.exists_eq_succ_of_ne_zero (Nat.ne_zero_of_lt enough)
  exact indexLoop_gives given element (by simp)

end StackScript.Grammar
