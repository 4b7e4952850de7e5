import StackScript.Proofs.Progress.Round

namespace StackScript.Grammar

/-! How far names, literals and types get. -/

variable {α : Type} {c c' : Cursor} {moved : Bool}

theorem not_isEmpty_wordOf (begins : (c.peek?.map isNameStart).getD false = true) :
    (!(c.wordOf isNameChar).isEmpty) = true := by
  have named : isName (c.wordOf isNameChar) = true := isName_takeWhile begins
  cases word : c.wordOf isNameChar with
  | nil =>
      rw [word] at named
      cases named
  | cons first others => rfl

theorem identifier_advances (scope : Scope) (lookup : Lookup) :
    Advances c moved (identifier scope lookup) (identifier scope lookup) := by
  refine .close fun _ _ => .after_cursor fun _ _ => .bind .skipSpace fun _ => ?_
  refine .after_cursor fun here ahead => .ite (fun begins => ?_) fun _ => .pass
  have behind := here.reaches_skipWhile_wordOf isNameChar
  rw [not_isEmpty_wordOf begins] at behind
  refine .bind (.moveTo (ahead.further behind)) fun _ => ?_
  refine .after_cursor fun _ _ => .ite (fun _ => ?_) fun _ => .pass
  exact .ite (fun _ => .pass) fun _ => .bind .registry fun _ => .pure rfl

theorem stringLiteral_advances : Advances c moved stringLiteral stringLiteral := by
  refine .close fun _ _ => .bind .skipSpace fun _ => .after_cursor fun here ahead => ?_
  refine .ite (fun begins => ?_) fun _ => .pass
  split
  · exact .fail
  · refine .bind (.moveTo (ahead.further (Cursor.reaches_advanceBy_of_pos
      (Cursor.rest_ne_nil_of_isAt begins) (Nat.succ_pos _)))) fun _ => ?_
    exact .after_cursor fun _ _ => .ite (fun _ => .pure rfl) fun _ => .fail

theorem floatLiteral_advances : Advances c moved floatLiteral floatLiteral := by
  refine .close fun _ _ => .bind .skipSpace fun _ => .after_cursor fun here ahead => ?_
  refine .ite (fun _ => .pass) fun begins => ?_
  have point : (here.skipWhile Char.isDigit).isAt '.' = true := by
    rw [Bool.or_eq_true, not_or, Bool.not_eq_true, Bool.not_eq_true, Bool.not_eq_false'] at begins
    exact begins.2
  have whole := ahead.trans (here.reaches_skipWhile Char.isDigit)
  have behind := whole.further (Cursor.reaches_advance (Cursor.rest_ne_nil_of_isAt point))
  refine .bind (.moveTo (behind.onward (Cursor.reaches_skipWhile _ _))) fun _ => ?_
  refine .ite (fun _ => .fail) fun _ => ?_
  split
  · exact .pure rfl
  · exact .fail

theorem integerLiteral_advances : Advances c moved integerLiteral integerLiteral := by
  refine .close fun _ _ => .bind .skipSpace fun _ => .after_cursor fun here ahead => ?_
  have behind := ahead.trans (here.reaches_skipWhile_wordOf Char.isDigit)
  refine .bind (.moveTo behind) fun _ => .after_cursor fun _ _ => ?_
  refine .ite (fun _ => .pass) fun digits => ?_
  rw [Bool.or_eq_true, not_or, Bool.not_eq_true] at digits
  split
  · exact .pure (by rw [digits.1]; rfl)
  · exact .fail

theorem booleanLiteral_advances : Advances c moved booleanLiteral booleanLiteral := by
  refine .of_steps (fun _ _ => .after_cursor fun _ _ => ?_) booleanLiteral_returns
  exact .acceptKeywords _ (by decide) (fun _ => .pure rfl) .throw

theorem literal_advances : Advances c moved literal literal := by
  refine .close fun _ _ => .orPass (Advances.steps ?_)
  refine .or stringLiteral_advances.map ?_
  exact .or floatLiteral_advances.map (.or integerLiteral_advances.map booleanLiteral_advances.map)

/-- One index type, and whether another one follows. -/
def indexTypesRound (_ : Unit) : Body (Turn Unit (List Scalar)) := do
  match ← acceptScalar with
  | none => Body.fail .indexTypeDeclaration []
  | some s =>
      if ← acceptSymbol ',' then pure (.again () (s :: ·)) else pure (.last [s])

theorem indexTypesLoop_repeats : Repeats (fun fuel _ => indexTypesLoop fuel) indexTypesRound := by
  intro fuel b
  simp only [indexTypesLoop, indexTypesRound, bind_assoc]
  refine bind_congr fun found => ?_
  cases found with
  | none => rfl
  | some s =>
      simp only [bind_assoc]
      refine bind_congr fun more => ?_
      cases more with
      | true => rfl
      | false => rfl

theorem indexTypesRound_steps (stopped : Bool) :
    Steps c moved (indexTypesRound ()) (indexTypesRound ()) (Turn.moved stopped) :=
  .acceptKeywords scalarWords (by decide) (fun _ => .acceptSymbol (.pure rfl) (.pure rfl)) .fail

theorem indexTypes_advances : Advances c moved indexTypes indexTypes := by
  refine .close fun _ _ => .bind .remaining fun left => ?_
  exact indexTypesLoop_repeats.steps indexTypesLoop_repeats (fun _ => .fail)
    (fun _ => indexTypesRound_steps true) (left + 1) ()

/-- A type, with a rule for the type of the elements of an array. -/
def typeStep (inner : Rule Ty) : Rule Ty :=
  Body.close do
    match ← acceptScalar with
    | some s => pure (.scalar s)
    | none =>
        if ← acceptKeyword "array".toList then
          if ← acceptSymbol '[' then
            let index ← indexTypes.orFail .typeDeclaration
            if ← acceptSymbol ']' then
              if ← acceptKeyword "of".toList then
                let element ← inner.orFail .typeDeclaration
                pure (.array index element)
              else Body.fail .typeDeclarationMissingOf []
            else Body.fail .typeDeclarationMissingClosingBracket []
          else Body.fail .typeDeclarationMissingOpeningBracket []
        else Body.pass .typeDeclaration []

/-- The type of the elements is behind the start of the array type. -/
theorem typeStep_advances {inner other : Rule Ty} (deeper : Advances c true inner other) :
    Advances c moved (typeStep inner) (typeStep other) := by
  refine .close fun c' behind => .acceptKeywords scalarWords (by decide) (fun s => .pure rfl) ?_
  refine .acceptKeyword (by decide) (.acceptSymbol ?_ .fail) .pass
  refine .bind (.orFail indexTypes_advances.steps) fun index => .acceptSymbol ?_ .fail
  refine .acceptKeyword (by decide) ?_ .fail
  exact .bind (.orFail (deeper.later behind).steps) fun _ => .pure rfl

theorem typeWithin_advances (fuel : Nat) :
    Advances c moved (typeWithin fuel) (typeWithin fuel) := by
  induction fuel generalizing c moved with
  | zero => exact .close fun _ _ => .pass
  | succ fuel induction => exact typeStep_advances induction

/-- Levels of arrays beyond the characters that are left make no difference. -/
theorem typeWithin_eq {fuel fuel' : Nat} {s : ParseState} (enough : s.cursor.rest.length < fuel)
    (enough' : s.cursor.rest.length < fuel') : typeWithin fuel s = typeWithin fuel' s := by
  induction fuel generalizing fuel' s with
  | zero => exact absurd enough (Nat.not_lt_zero _)
  | succ fuel induction =>
      obtain ⟨fuel', rfl⟩ := Nat.exists_eq_add_one_of_ne_zero (Nat.ne_zero_of_lt enough')
      have inner : Advances s.cursor true (typeWithin fuel) (typeWithin fuel') := by
        refine (typeWithin_advances fuel).replaced fun s' behind => induction ?_ ?_
        · exact Nat.lt_of_lt_of_le behind.length_lt (Nat.le_of_lt_succ enough)
        · exact Nat.lt_of_lt_of_le behind.length_lt (Nat.le_of_lt_succ enough')
      exact (typeStep_advances inner).same (.refl s.cursor)

theorem typeName_advances : Advances c moved typeName typeName :=
  fun s start => typeWithin_advances _ s start

/-- A type is read as if there were no bound on the levels of arrays: by one level, with a type for
the elements that is only looked for behind the start. -/
theorem typeName_eq {inner : Rule Ty} {s : ParseState}
    (same : ∀ s', s.cursor.Reaches true s'.cursor → typeName s' = inner s') :
    typeName s = typeStep inner s := by
  have deeper : Advances s.cursor true (typeWithin s.cursor.rest.length) inner := by
    refine (typeWithin_advances _).replaced fun s' behind => ?_
    rw [← same s' behind]
    exact typeWithin_eq behind.length_lt (Nat.lt_succ_self _)
  exact (typeStep_advances deeper).same (.refl s.cursor)

end StackScript.Grammar
