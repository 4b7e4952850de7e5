import StackScript.Proofs.Formula.Chains
import StackScript.Proofs.SingleVariable
import StackScript.Proofs.Soundness

namespace StackScript

/-! A string literal is stored as it is written: neither the scanner, nor the code, nor the machine
changes a character of it. A backslash stays in the text with what it protects. -/

open Compilation Grammar

namespace Grammar

variable {r : Registry} {scope : Scope} {nested : Nested} {text rest body : List Char}
variable {typed : Typed} {levels : Nat}

/-- A body that the scanner reads up to the closing quote, and no further. -/
def IsLiteralBody (body : List Char) : Prop :=
  quotedText? (body ++ ['"']) = some body

instance (body : List Char) : Decidable (IsLiteralBody body) :=
  inferInstanceAs (Decidable (_ = _))

theorem stringLiteral_gives (whole : IsLiteralBody body) :
    Gives Rejection.IsDeep r stringLiteral ('"' :: (body ++ ['"'])) [] (String.ofList body)
      True := by
  have unspaced : ('"' :: (body ++ ['"'])).dropWhile Cursor.isSpace = '"' :: (body ++ ['"']) := rfl
  refine .close (.after_skip unspaced (.after_cursor fun c same => ?_))
  have opens : c.isAt '"' = true := by simp [Cursor.isAt, Cursor.peek?, same]
  have inside : c.advance.rest = body ++ ['"'] := by rw [Cursor.rest_advance, same, List.tail_cons]
  have behind : (c.advanceBy (body.length + 2)).rest = [] := by
    rw [Cursor.rest_advanceBy, same]
    simp
  rw [if_pos opens, inside, whole]
  refine .after_move behind (.after_cursor fun c' same' => ?_)
  have ends : Cursor.isTerminal [] = true := rfl
  rw [same', if_pos ends]
  exact .pure

theorem literal_gives_text (whole : IsLiteralBody body) :
    Gives Rejection.IsDeep r literal ('"' :: (body ++ ['"'])) [] (.str (String.ofList body))
      True :=
  .close (.orPass (.or_left (.map (stringLiteral_gives whole))))

/-! A single operand is read at every level of the operators, if none of them follows. -/

theorem chain_gives_operand {ω : Type} {operand : Rule Typed}
    {operator : Cursor → Option (ω × Cursor)} {combine : ω → Typed → Typed → Except Cause Typed}
    {cause : Cause} (gives : Gives Rejection.IsDeep r operand text rest typed True)
    (none : Misses operator rest) :
    Gives Rejection.IsDeep r (chain operand operator combine cause) text rest typed True := by
  apply Gives.close
  refine .after (fun _ => gives.orPass.certain _) (.after (fun _ => remaining_at) ?_)
  unfold chainLoop
  exact .after (fun _ => acceptOne_misses none) .pure

theorem conditionalExpression_gives_operand
    (gives : Gives Rejection.IsDeep r (unary nested scope) text rest typed True)
    (quiet : Quiet 0 rest) :
    Gives Rejection.IsDeep r (conditionalExpression nested scope) text rest typed True := by
  have products : Gives Rejection.IsDeep r (multiplicative nested scope) text rest typed True :=
    chain_gives_operand gives (multiplicative_chained.misses rest (quiet.mono (by decide)))
  have sums : Gives Rejection.IsDeep r (additive nested scope) text rest typed True :=
    chain_gives_operand products (additive_chained.misses rest (quiet.mono (by decide)))
  have relations : Gives Rejection.IsDeep r (relational nested scope) text rest typed True := by
    apply Gives.close
    refine .after (fun _ => sums.orPass.certain _) ?_
    exact .after (fun _ => acceptOne_misses (quiet.mono (by decide)).relation_misses) .pure
  have conjunctions : Gives Rejection.IsDeep r (logicalAnd nested scope) text rest typed True :=
    chain_gives_operand relations (logicalAnd_chained.misses rest (quiet.mono (by decide)))
  have disjunctions : Gives Rejection.IsDeep r (logicalOr nested scope) text rest typed True :=
    chain_gives_operand conjunctions (logicalOr_chained.misses rest (quiet.mono (by decide)))
  apply Gives.close
  refine .after (fun _ => disjunctions.orPass.certain _) ?_
  exact .after (fun _ => accept_misses (quiet.symbol?_misses (by decide))) .pure

theorem unary_gives_text (whole : IsLiteralBody body) :
    Gives Rejection.IsDeep r (unary nested scope) (' ' :: '"' :: (body ++ ['"'])) []
      { expr := .literal (.str (String.ofList body)), ty := .str } True := by
  have operand : Gives Rejection.IsDeep r (operand nested scope) (' ' :: '"' :: (body ++ ['"'])) []
      { expr := .literal (.str (String.ofList body)), ty := .str } True :=
    .close (.after_skip rfl (.after (fun _ => (literal_gives_text whole).attempt _) .pure))
  refine .close (.after (fun _ => accept_misses (symbol?_misses (by simp [Cursor.isSpace]))) ?_)
  rw [if_neg Bool.false_ne_true]
  have missing : Misses (Cursor.keyword? ['n', 'o', 't']) (' ' :: '"' :: (body ++ ['"'])) := by
    apply keyword?_misses
    rintro char same
    obtain rfl : '"' = char := Option.some.inj same
    decide
  refine .after (fun _ => accept_misses missing) ?_
  rw [if_neg Bool.false_ne_true]
  exact operand.orPass

theorem conditional_gives_text (whole : IsLiteralBody body) :
    Gives Rejection.IsDeep r ((nestedWithin (levels + 1)).conditional scope)
      (' ' :: '"' :: (body ++ ['"'])) []
      { expr := .literal (.str (String.ofList body)), ty := .str } True :=
  conditionalExpression_gives_operand (unary_gives_text whole) .nil

end Grammar

namespace StringLiteral

theorem isNew_s : SingleVariable.IsNew ['s'] where
  named := rfl
  free := by decide +kernel
  other := by decide +kernel

/-- The code of a text is read back as the text, and its run takes one step, however long it is. -/
theorem text_computes {unit : CodeUnit} {m : Machine} {text : String}
    (clean : '\x00' ∉ text.toList) (size : m.stack.size = 1)
    (stands : Stands unit.code m.ip (Expr.literal (.str text)).listing) :
    Machine.Computes unit 1 m (m.pushed (Expr.literal (.str text)).listing.width)
      (some (.str text)) := by
  refine @Formula.literal_reaches unit m (.putString text) _ stands clean rfl ?_ fun _ => rfl
  rw [size]
  decide

theorem source_eq (text : String) :
    String.ofList (SingleVariable.source .str ['s'] ('"' :: (text.toList ++ ['"']))) =
      "string s s = \"" ++ text ++ "\"" := by
  apply String.toList_inj.mp
  rw [String.toList_ofList, String.toList_append, String.toList_append]
  rfl

/-- A program that assigns a literal without NUL characters to a variable compiles, stops, and
leaves exactly the text between the quotes in the variable. -/
theorem stored_verbatim {text : String} (whole : IsLiteralBody text.toList)
    (clean : '\x00' ∉ text.toList) :
    ∃ unit, compile ("string s s = \"" ++ text ++ "\"") = .success unit ∧
      (Execution.of unit).status = .stopped ∧
      (Execution.of unit).value? "0.s" = some (.str text) := by
  have compiled := SingleVariable.compile_source (s := .str) isNew_s fun place =>
    @conditional_gives_text _ _ _ 63 whole
  rw [source_eq, String.ofList_toList] at compiled
  cases outcome : compile ("string s s = \"" ++ text ++ "\"") with
  | failure d =>
      rw [outcome] at compiled
      exact absurd trivial compiled.2
  | success unit =>
      rw [outcome] at compiled
      obtain ⟨-, place, rfl⟩ := compiled
      obtain ⟨m, run, held⟩ := @SingleVariable.run_statements "s" .str place
        (.literal (.str text)) 1 (some (.str text))
        (fun m size stands => text_computes clean size stands) (by rintro a ⟨⟩; rfl) (by decide)
      refine ⟨_, rfl, ?_⟩
      unfold Execution.of Execution.within
      change Machine.runFor (assemble (SingleVariable.symbols (String.ofList ['s']) .str place)
        (SingleVariable.statements (.literal (.str text)))) _ _ = _ at run
      rw [run]
      exact ⟨rfl, @SingleVariable.value?_finish "s" _ _ _ _ _ _ _ (by decide +kernel)
        (by decide +kernel) held⟩

/-- Quotes and backslashes behind a backslash, control characters and others. -/
theorem protected_quote_stored :
    IsLiteralBody "a\\\"b\\\\\n\x01é€😀".toList ∧ '\x00' ∉ "a\\\"b\\\\\n\x01é€😀".toList ∧
      (Execution.of (compile "string s s = \"a\\\"b\\\\\n\x01é€😀\"").unit).value? "0.s" =
        some (.str "a\\\"b\\\\\n\x01é€😀") := by
  have whole : IsLiteralBody "a\\\"b\\\\\n\x01é€😀".toList := by decide +kernel
  have clean : '\x00' ∉ "a\\\"b\\\\\n\x01é€😀".toList := by decide +kernel
  obtain ⟨unit, compiled, -, value⟩ := stored_verbatim whole clean
  have same : compile "string s s = \"a\\\"b\\\\\n\x01é€😀\"" = .success unit := compiled
  rw [same]
  exact ⟨whole, clean, value⟩

/-- A NUL character ends the text in the code early, and the rest of it is run as code. -/
theorem nul_breaks_literal :
    IsLiteralBody "a\x00b".toList ∧
      ∃ unit, compile "string s s = \"a\x00b\"" = .success unit ∧
        (Execution.of unit).status = .failed .invalidInstruction := by
  generalize same : (compile "string s s = \"a\x00b\"").unit = unit
  have compiled : compile "string s s = \"a\x00b\"" = .success unit :=
    same ▸ Compilation.eq_success (by decide +kernel)
  have run : (Machine.runFor unit 10 (.initial unit.table)).1 = .failed .invalidInstruction := by
    subst same
    decide +kernel
  have enough : 10 ≤ Execution.stepLimit := by decide
  have ended := Machine.runFor_ended (Machine.runFor_later run) Status.noConfusion enough
  refine ⟨by decide +kernel, unit, compiled, ?_⟩
  unfold Execution.of Execution.within
  rw [ended]
  rfl

end StringLiteral

end StackScript
