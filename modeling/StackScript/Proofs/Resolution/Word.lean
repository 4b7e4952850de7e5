import StackScript.Proofs.Resolution.Rule

namespace StackScript.Grammar

/-! What names, literals and types are read from. -/

open Source

variable {r : Registry} {text : List Char} {marks : List Char} {words : List String}

theorem isNameChar_of_isNameStart {c : Char} (start : isNameStart c = true) :
    isNameChar c = true := by
  simp only [isNameStart, isNameChar, Char.isAlphanum, Bool.or_eq_true] at start ⊢
  exact start.imp_left .inl

theorem isName_takeWhile (start : (text.head?.map isNameStart).getD false = true) :
    isName (text.takeWhile isNameChar) = true := by
  cases text with
  | nil => cases start
  | cons c rest =>
      have first : isNameStart c = true := start
      rw [List.takeWhile_cons_of_pos (isNameChar_of_isNameStart first), isName, Bool.and_eq_true,
        List.all_cons, isNameChar_of_isNameStart first, Bool.true_and]
      exact ⟨first, List.all_takeWhile⟩

/-- A name that is read, with the symbol that it stands for. -/
structure ReadName (r : Registry) (scope : Scope) (lookup : Lookup) (text : List Char)
    (found : String × Option Nat) (gap word rest : List Char) : Prop where
  blank : Blank gap
  named : Names word rest
  whole : text = gap ++ (word ++ rest)
  found_eq : found = (String.ofList word, r.find? (String.ofList word) scope lookup)

theorem identifier_takes (scope : Scope) (lookup : Lookup) :
    Scans r text (identifier scope lookup)
      (fun found rest => ∃ gap word, ReadName r scope lookup text found gap word rest)
      (Rejection.Restores r text) := by
  refine .close (.after_cursor fun start _ => .after_skip fun gap mid blank whole => ?_)
  refine .after_cursor fun c same => .ite (fun begins => ?_) fun _ => .pass
  rw [Cursor.peek?, same] at begins
  refine .after_move (.after_cursor fun c' same' => .ite (fun ends => ?_) fun _ => .pass)
  refine .ite (fun _ => .pass) fun free => .after_registry ?_
  refine .pure ⟨rfl, gap, c.wordOf isNameChar, ?_⟩
  have behind : (c.skipWhile isNameChar).rest = mid.dropWhile isNameChar := by
    rw [Cursor.rest_skipWhile, same]
  have word : c.wordOf isNameChar = mid.takeWhile isNameChar := by rw [Cursor.wordOf, same]
  rw [same'] at ends
  rw [word] at free ⊢
  refine ⟨blank, ⟨isName_takeWhile begins, free, ends⟩, ?_, rfl⟩
  rw [behind, List.takeWhile_append_dropWhile]
  exact whole

/-! Literals. -/

theorem quotedText?_split {source body : List Char} (read : quotedText? source = some body) :
    (∃ rest, source = body ++ '"' :: rest) ∧ quotedText? (body ++ ['"']) = some body := by
  induction source using quotedText?.induct generalizing body with
  | case1 => cases read
  | case2 rest =>
      cases read
      exact ⟨⟨rest, rfl⟩, rfl⟩
  | case3 rest induction =>
      simp only [quotedText?, Option.map_eq_some_iff] at read
      obtain ⟨tail, inside, rfl⟩ := read
      obtain ⟨⟨more, rfl⟩, whole⟩ := induction inside
      exact ⟨⟨more, rfl⟩, by simp [quotedText?, whole]⟩
  | case4 rest induction =>
      simp only [quotedText?, Option.map_eq_some_iff] at read
      obtain ⟨tail, inside, rfl⟩ := read
      obtain ⟨⟨more, rfl⟩, whole⟩ := induction inside
      exact ⟨⟨more, rfl⟩, by simp [quotedText?, whole]⟩
  | case5 first rest quote escapedQuote escapedBackslash induction =>
      rw [quotedText?, Option.map_eq_some_iff] at read
      · obtain ⟨tail, inside, rfl⟩ := read
        obtain ⟨⟨more, rfl⟩, whole⟩ := induction inside
        -- The text goes on with the same character as before, so nothing new is escaped.
        have head {char : Char} {rest : List Char} (same : tail ++ ['"'] = char :: rest) :
            ∃ rest', tail ++ '"' :: more = char :: rest' := by
          cases tail with
          | nil =>
              cases same
              exact ⟨more, rfl⟩
          | cons c tail =>
              cases same
              exact ⟨tail ++ '"' :: more, rfl⟩
        refine ⟨⟨more, rfl⟩, ?_⟩
        rw [List.cons_append, quotedText?, whole, Option.map_some]
        · exact quote
        · intro rest escape same
          obtain ⟨rest', same'⟩ := head same
          exact escapedQuote rest' escape same'
        · intro rest escape same
          obtain ⟨rest', same'⟩ := head same
          exact escapedBackslash rest' escape same'
      all_goals assumption

/-- A literal behind spaces. -/
def ReadsLiteral (text rest : List Char) : Prop :=
  ∃ gap mid, Blank gap ∧ text = gap ++ mid ∧ Constant mid rest

theorem stringLiteral_takes :
    Scans r text stringLiteral (fun _ rest => ReadsLiteral text rest)
      (Rejection.Restores r text) := by
  refine .close (.after_skip fun gap mid blank whole => .after_cursor fun c same => ?_)
  refine .ite (fun opens => ?_) fun _ => .pass
  split
  · exact .fail
  · rename_i body read
    refine .after_move (.after_cursor fun c' same' => .ite (fun ends => ?_) fun _ => .fail)
    obtain ⟨⟨rest, split⟩, quoted⟩ := quotedText?_split read
    rw [Cursor.isAt, Cursor.peek?, decide_eq_true_eq, List.head?_eq_some_iff] at opens
    obtain ⟨inner, opens⟩ := opens
    rw [Cursor.rest_advance, opens, List.tail_cons] at split
    have behind : (c.advanceBy (body.length + 2)).rest = rest := by
      rw [Cursor.rest_advanceBy, opens, split]
      simp
    rw [same', behind] at ends
    refine .pure ⟨rfl, gap, mid, blank, whole, ?_⟩
    rw [behind, ← same, opens, split]
    exact .quoted quoted ends

theorem digits_all (text : List Char) : ∀ c ∈ text.takeWhile Char.isDigit, c.isDigit = true :=
  List.all_eq_true.mp List.all_takeWhile

theorem ne_nil_of_takeWhile {p : Char → Bool} (nonempty : (text.takeWhile p).isEmpty = false) :
    text.takeWhile p ≠ [] := by
  intro none
  rw [none] at nonempty
  cases nonempty

theorem floatLiteral_takes :
    Scans r text floatLiteral (fun _ rest => ReadsLiteral text rest)
      (Rejection.Restores r text) := by
  refine .close (.after_skip fun gap mid blank whole => .after_cursor fun c same => ?_)
  refine .ite (fun _ => .pass) fun point => .after_move (.ite (fun _ => .fail) fun closed => ?_)
  simp only [Bool.or_eq_true, not_or, Bool.not_eq_true, Bool.not_eq_false'] at point closed
  have dot := point.2
  rw [Cursor.isAt, Cursor.peek?, decide_eq_true_eq, List.head?_eq_some_iff] at dot
  obtain ⟨fraction, ahead⟩ := dot
  have digits := ne_nil_of_takeWhile closed.1
  rw [Cursor.rest_advance, ahead, List.tail_cons] at digits
  have ends := closed.2
  have behind : ((c.skipWhile Char.isDigit).advance.skipWhile Char.isDigit).rest =
      fraction.dropWhile Char.isDigit := by
    rw [Cursor.rest_skipWhile, Cursor.rest_advance, ahead, List.tail_cons]
  rw [behind] at ends ⊢
  have token : ReadsLiteral text (fraction.dropWhile Char.isDigit) := by
    have split : mid = mid.takeWhile Char.isDigit ++ '.' :: (fraction.takeWhile Char.isDigit ++
        fraction.dropWhile Char.isDigit) := by
      rw [List.takeWhile_append_dropWhile, ← ahead, Cursor.rest_skipWhile, same,
        List.takeWhile_append_dropWhile]
    refine ⟨gap, mid, blank, whole, ?_⟩
    have digits' := ne_nil_of_takeWhile point.1
    rw [same] at digits'
    rw [split]
    exact .decimal digits' (digits_all mid) digits (digits_all fraction) ends
  split
  · exact .pure ⟨rfl, token⟩
  · exact .fail

theorem integerLiteral_takes :
    Scans r text integerLiteral (fun _ rest => ReadsLiteral text rest)
      (Rejection.Restores r text) := by
  refine .close (.after_skip fun gap mid blank whole => .after_cursor fun c same => ?_)
  refine .after_move (.after_cursor fun c' same' => .ite (fun _ => .pass) fun closed => ?_)
  have behind : (c.skipWhile Char.isDigit).rest = mid.dropWhile Char.isDigit := by
    rw [Cursor.rest_skipWhile, same]
  simp only [Bool.or_eq_true, not_or, Bool.not_eq_true, Bool.not_eq_false', same', behind]
    at closed
  rw [behind]
  have token : ReadsLiteral text (mid.dropWhile Char.isDigit) := by
    have digits := ne_nil_of_takeWhile closed.1
    rw [same] at digits
    refine ⟨gap, mid, blank, whole, ?_⟩
    have number : Constant (mid.takeWhile Char.isDigit ++ mid.dropWhile Char.isDigit) _ :=
      .integer digits (digits_all mid) closed.2
    rwa [List.takeWhile_append_dropWhile] at number
  split
  · exact .pure ⟨rfl, token⟩
  · exact .fail

theorem keyword_of_word {front rest : List Char} {word : String}
    (spelled : front.map Char.toLower = word.toList) (member : word ∈ words)
    (ends : Cursor.isTerminal rest = true) : Keyword words (front ++ rest) rest := by
  refine .word ?_ ends
  rwa [spelled, String.ofList_toList]

theorem booleanLiteral_takes :
    Scans r text booleanLiteral (fun _ rest => ReadsLiteral text rest)
      (Rejection.Restores r text) := by
  refine .after_cursor fun start _ => .after_one (fun c b c' same found => .pure ⟨rfl, ?_⟩) ?_
  · obtain ⟨word, member, read⟩ := firstOf?_eq found
    obtain ⟨gap, front, blank, whole, spelled, ends⟩ := keyword?_eq read
    refine ⟨gap, front ++ c'.rest, blank, same.symm.trans whole, .truth ?_⟩
    simp only [List.mem_cons, Prod.mk.injEq, List.not_mem_nil, or_false] at member
    rcases member with ⟨rfl, -⟩ | ⟨rfl, -⟩ <;> exact keyword_of_word spelled (by decide) ends
  · exact .throw fun _ start _ => start

theorem literal_takes :
    Scans r text literal (fun _ rest => ReadsLiteral text rest) (Rejection.Restores r text) := by
  refine .close (.orPass (.or ?_ (.or ?_ (.or ?_ ?_))))
  · exact .map stringLiteral_takes fun _ _ _ read => read
  · exact .map floatLiteral_takes fun _ _ _ read => read
  · exact .map integerLiteral_takes fun _ _ _ read => read
  · exact .map booleanLiteral_takes fun _ _ _ read => read

/-! Types. -/

theorem tokens_of_blank {gap rest : List Char} (blank : Blank gap) :
    Relation.ReflTransGen (Token marks words) (gap ++ rest) rest := by
  induction gap with
  | nil => exact .refl
  | cons c gap induction =>
      exact .head (.space (blank c List.mem_cons_self))
        (induction fun c' member => blank c' (List.mem_cons_of_mem c member))

theorem tokens_of_mark {gap rest : List Char} {char : Char} (blank : Blank gap)
    (member : char ∈ marks) :
    Relation.ReflTransGen (Token marks words) (gap ++ char :: rest) rest :=
  (tokens_of_blank blank).trans (.single (.mark member))

theorem tokens_of_word {gap front rest : List Char} {word : String} (blank : Blank gap)
    (spelled : front.map Char.toLower = word.toList) (member : word ∈ words)
    (ends : Cursor.isTerminal rest = true) :
    Relation.ReflTransGen (Token marks words) (gap ++ (front ++ rest)) rest :=
  (tokens_of_blank blank).trans (.single (.keyword (keyword_of_word spelled member ends)))

/-- A type is read up to the scalar type at its end. -/
def ReadsType (text rest : List Char) : Prop :=
  ∃ mid, Heading text mid ∧ Keyword scalarNames mid rest

theorem ReadsType.heading {text rest : List Char} (type : ReadsType text rest) :
    Heading text rest := by
  obtain ⟨mid, heading, keyword⟩ := type
  refine heading.trans (.single (.keyword ?_))
  obtain ⟨member, ends⟩ := keyword
  refine .word ?_ ends
  have all : ∀ word ∈ scalarNames, word ∈ ["int", "float", "string", "boolean", "array", "of"] := by
    decide
  exact all _ member

theorem acceptScalar_reads {c c' : Cursor} {s : Scalar}
    (found : c.firstOf? Cursor.keyword? scalarWords = some (s, c')) : ReadsType c.rest c'.rest := by
  obtain ⟨word, member, read⟩ := firstOf?_eq found
  obtain ⟨gap, front, blank, whole, spelled, ends⟩ := keyword?_eq read
  rw [whole]
  refine ⟨front ++ c'.rest, tokens_of_blank blank, ?_⟩
  simp only [scalarWords, List.mem_cons, Prod.mk.injEq, List.not_mem_nil, or_false] at member
  rcases member with ⟨rfl, -⟩ | ⟨rfl, -⟩ | ⟨rfl, -⟩ | ⟨rfl, -⟩ <;>
    exact keyword_of_word spelled (by decide) ends

theorem indexTypesLoop_takes (fuel : Nat) :
    Scans r text (indexTypesLoop fuel) (fun _ rest => Heading text rest) (Failure.Keeps r) := by
  induction fuel generalizing text with
  | zero => exact .fail
  | succ fuel induction =>
      refine .after_one (fun c s c' same found => ?_) .fail
      have scalar := (acceptScalar_reads found).heading
      rw [same] at scalar
      refine .symbol (fun gap rest blank whole => ?_) (.pure ⟨rfl, scalar⟩)
      refine .scan induction fun more rest' others => .pure ⟨rfl, ?_⟩
      rw [whole] at scalar
      exact (scalar.trans (tokens_of_mark blank (by decide))).trans others

theorem typeWithin_takes (fuel : Nat) :
    Scans r text (typeWithin fuel) (fun _ rest => ReadsType text rest)
      (Rejection.Restores r text) := by
  induction fuel generalizing text with
  | zero => exact .close .pass
  | succ fuel induction =>
      refine .close (.after_one (fun c s c' same found => .pure ⟨rfl, ?_⟩) ?_)
      · rw [← same]
        exact acceptScalar_reads found
      · refine .keyword (fun gap front rest blank whole spelled ends => ?_) .pass
        have array : Heading text rest :=
          whole ▸ tokens_of_word blank spelled (by decide) ends
        refine .symbol (fun gap rest blank whole => ?_) .fail
        have bracket : Heading text rest := array.trans (whole ▸ tokens_of_mark blank (by decide))
        refine .scan (.orFail (.close (.after_remaining (indexTypesLoop_takes _))))
          fun index rest' scalars => .symbol (fun gap rest blank whole => ?_) .fail
        have closed : Heading text rest :=
          (bracket.trans scalars).trans (whole ▸ tokens_of_mark blank (by decide))
        refine .keyword (fun gap front rest blank whole spelled ends => ?_) .fail
        have elements : Heading text rest :=
          closed.trans (whole ▸ tokens_of_word blank spelled (by decide) ends)
        refine .scan (.orFail induction) fun element rest inner => .pure ⟨rfl, ?_⟩
        obtain ⟨mid, heading, scalar⟩ := inner
        exact ⟨mid, elements.trans heading, scalar⟩

theorem typeName_takes :
    Scans r text typeName (fun _ rest => ReadsType text rest) (Rejection.Restores r text) :=
  .after_remaining (typeWithin_takes _)

end StackScript.Grammar
