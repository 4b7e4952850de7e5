import StackScript.Proofs.Grammar.Rule

namespace StackScript.Grammar

/-! Names, literals and types read a text without declaring anything. -/

variable {r : Registry}

open Cursor in
theorem identifier_parses (scope : Scope) (lookup : Lookup) :
    Parses r (identifier scope lookup) fun _ => True := by
  refine .close (.bind .cursor fun _ _ => .seq .skipSpace fun _ => .bind .cursor fun c clean => ?_)
  refine .ite (fun _ => ?_) fun _ => .pass
  refine .seq (.moveTo ((c.follows_skipWhile isNameChar).notMem clean)) fun _ => ?_
  refine .bind .cursor fun _ _ => .ite (fun _ => ?_) fun _ => .pass
  exact .ite (fun _ => .pass) fun _ => .bind .registry fun _ _ => .pure trivial

theorem mem_quotedText? {source text : List Char} (read : quotedText? source = some text)
    {c : Char} (member : c ∈ text) : c ∈ source := by
  induction source using quotedText?.induct generalizing text with
  | case1 => cases read
  | case2 rest =>
      cases read
      cases member
  | case3 rest induction =>
      simp only [quotedText?, Option.map_eq_some_iff] at read
      obtain ⟨tail, inside, rfl⟩ := read
      simp only [List.mem_cons] at member ⊢
      rcases member with rfl | rfl | member
      · exact .inl rfl
      · exact .inr (.inl rfl)
      · exact .inr (.inr (induction inside member))
  | case4 rest induction =>
      simp only [quotedText?, Option.map_eq_some_iff] at read
      obtain ⟨tail, inside, rfl⟩ := read
      simp only [List.mem_cons] at member ⊢
      rcases member with rfl | rfl | member
      · exact .inl rfl
      · exact .inr (.inl rfl)
      · exact .inr (.inr (induction inside member))
  | case5 first rest quote escapedQuote escapedBackslash induction =>
      rw [quotedText?, Option.map_eq_some_iff] at read
      · obtain ⟨tail, inside, rfl⟩ := read
        simp only [List.mem_cons] at member ⊢
        rcases member with rfl | member
        · exact .inl rfl
        · exact .inr (induction inside member)
      all_goals assumption

theorem stringLiteral_parses : Parses r stringLiteral fun s => '\x00' ∉ s.toList := by
  refine .close (.seq .skipSpace fun _ => .bind .cursor fun c clean => ?_)
  refine .ite (fun _ => ?_) fun _ => .pass
  split
  · exact .fail
  · rename_i text read
    have inside : '\x00' ∉ text := fun member =>
      c.follows_advance.notMem clean (mem_quotedText? read member)
    refine .seq (.moveTo ((c.follows_advanceBy _).notMem clean)) fun _ => ?_
    refine .bind .cursor fun _ _ => .ite (fun _ => .pure ?_) fun _ => .fail
    simpa using inside

theorem floatLiteral_parses : Parses r floatLiteral fun _ => True := by
  refine .close (.seq .skipSpace fun _ => .bind .cursor fun c clean => ?_)
  refine .ite (fun _ => .pass) fun _ => ?_
  have follows : c.Follows ((c.skipWhile Char.isDigit).advance.skipWhile Char.isDigit) :=
    ((c.follows_skipWhile _).trans (Cursor.follows_advance _)).trans (Cursor.follows_skipWhile _ _)
  refine .seq (.moveTo (follows.notMem clean)) fun _ => .ite (fun _ => .fail) fun _ => ?_
  split
  · exact .pure trivial
  · exact .fail

theorem integerLiteral_parses : Parses r integerLiteral fun _ => True := by
  refine .close (.seq .skipSpace fun _ => .bind .cursor fun c clean => ?_)
  refine .seq (.moveTo ((c.follows_skipWhile Char.isDigit).notMem clean)) fun _ => ?_
  refine .bind .cursor fun _ _ => .ite (fun _ => .pass) fun _ => ?_
  split
  · exact .pure trivial
  · exact .fail

theorem acceptFirst_looks {ε α : Type} {fails : ε → ParseState → Prop}
    {read : List Char → Cursor → Option Cursor}
    (follows : ∀ text c c', read text c = some c' → c.Follows c') (choices : List (List Char × α)) :
    Looks r (acceptOne (fun c => c.firstOf? read choices) : EStateM ε ParseState (Option α))
      (fun _ => True) fails := by
  have reads : ∀ (c : Cursor) (a : α) (c' : Cursor), c.firstOf? read choices = some (a, c') →
      c.Follows c' ∧ True :=
    fun _ _ _ found => ⟨Cursor.follows_firstOf? follows found, trivial⟩
  exact (Looks.acceptOne reads).mono fun _ _ => trivial

theorem follows_keyword (text : List Char) (c c' : Cursor) :
    c.keyword? text = some c' → c.Follows c' :=
  Cursor.follows_keyword?

theorem booleanLiteral_parses : Parses r booleanLiteral fun _ => True := by
  refine .bind .cursor fun _ _ => .seq (acceptFirst_looks follows_keyword _) fun found => ?_
  cases found with
  | none => exact .throw
  | some b => exact .pure trivial

theorem literal_parses : Parses r literal fun l => l.NulFree := by
  refine .close (.orPass (.or ?_ (.or ?_ (.or ?_ ?_))))
  · exact .map stringLiteral_parses fun _ clean => clean
  · exact .map floatLiteral_parses fun _ _ => trivial
  · exact .map integerLiteral_parses fun _ _ => trivial
  · exact .map booleanLiteral_parses fun _ _ => trivial

theorem indexTypesLoop_parses (fuel : Nat) : Parses r (indexTypesLoop fuel) fun _ => True := by
  induction fuel with
  | zero => exact .fail
  | succ fuel induction =>
      refine .seq (acceptFirst_looks follows_keyword _) fun found => ?_
      cases found with
      | none => exact .fail
      | some s =>
          refine .seq (.acceptSymbol ',') fun more => .ite (fun _ => ?_) fun _ => .pure trivial
          exact .seq induction fun _ => .pure trivial

theorem typeWithin_parses (fuel : Nat) : Parses r (typeWithin fuel) fun _ => True := by
  induction fuel with
  | zero => exact .close .pass
  | succ fuel induction =>
      refine .close (.seq (acceptFirst_looks follows_keyword _) fun found => ?_)
      cases found with
      | some s => exact .pure trivial
      | none =>
          refine .seq (.acceptKeyword _) fun _ => .ite (fun _ => ?_) fun _ => .pass
          refine .seq (.acceptSymbol '[') fun _ => .ite (fun _ => ?_) fun _ => .fail
          refine .seq (.orFail (.close (.seq .remaining fun n => indexTypesLoop_parses _)))
            fun _ => ?_
          refine .seq (.acceptSymbol ']') fun _ => .ite (fun _ => ?_) fun _ => .fail
          refine .seq (.acceptKeyword _) fun _ => .ite (fun _ => ?_) fun _ => .fail
          exact .seq (.orFail induction) fun _ => .pure trivial

theorem typeName_parses : Parses r typeName fun _ => True :=
  .seq .remaining fun _ => typeWithin_parses _

end StackScript.Grammar
