import StackScript.Proofs.Resolution.Text

namespace StackScript

/-! Types as they may be written. The rule for types reads each of them, of any depth. -/

namespace Source

open Grammar

/-- A keyword in any case of letters, behind blanks. -/
inductive Spelled (word : List Char) : List Char → Prop
  | behind {gap front : List Char} (blank : Blank gap)
      (letters : front.map Char.toLower = word) : Spelled word (gap ++ front)

/-- Scalar types between commas. -/
inductive IndexText : List Scalar → List Char → Prop
  | last {s : Scalar} {text : List Char} (spelled : Spelled (scalarWord s) text) :
      IndexText [s] text
  | more {s : Scalar} {index : List Scalar} {text gap others : List Char}
      (spelled : Spelled (scalarWord s) text) (blank : Blank gap)
      (indexes : IndexText index others) : IndexText (s :: index) (text ++ (gap ++ ',' :: others))

/-- A type, of which `of` is followed by a blank so that it is a word of its own. -/
inductive TypeText : Ty → List Char → Prop
  | scalar {s : Scalar} {text : List Char} (spelled : Spelled (scalarWord s) text) :
      TypeText (.scalar s) text
  | array {index : List Scalar} {element : Ty} {array gap inner gap' of text : List Char} {c : Char}
      (keyword : Spelled "array".toList array) (opening : Blank gap)
      (indexes : IndexText index inner) (closing : Blank gap')
      (preposition : Spelled "of".toList of)
      (space : Cursor.isSpace c = true) (elements : TypeText element (c :: text)) :
      TypeText (.array index element)
        (array ++ (gap ++ '[' :: (inner ++ (gap' ++ ']' :: (of ++ c :: text)))))

/-! Blanks in front. -/

theorem blank_nil : Blank [] :=
  List.forall_mem_nil _

theorem blank_space : Blank [' '] :=
  List.forall_mem_singleton.mpr rfl

theorem Blank.append {gap gap' : List Char} (blank : Blank gap) (blank' : Blank gap') :
    Blank (gap ++ gap') := by
  intro c member
  exact (List.mem_append.mp member).elim (blank c) (blank' c)

theorem Spelled.behind_blank {word text gap : List Char} (spelled : Spelled word text)
    (blank : Blank gap) : Spelled word (gap ++ text) := by
  obtain ⟨blank', letters⟩ := spelled
  rw [← List.append_assoc]
  exact .behind (blank.append blank') letters

theorem TypeText.behind_blank {ty : Ty} {text gap : List Char} (written : TypeText ty text)
    (blank : Blank gap) : TypeText ty (gap ++ text) := by
  cases written with
  | scalar spelled => exact .scalar (spelled.behind_blank blank)
  | array keyword opening indexes closing preposition space elements =>
      rw [← List.append_assoc]
      exact .array (keyword.behind_blank blank) opening indexes closing preposition space elements

/-- Arrays have indexes, at every depth. -/
def Indexed : Ty → Prop
  | .scalar _ => True
  | .array index element => index ≠ [] ∧ Indexed element

theorem Spelled.of_letters {word front : List Char} (letters : front.map Char.toLower = word) :
    Spelled word front :=
  .behind blank_nil letters

theorem spelled_scalarWord (s : Scalar) : Spelled (scalarWord s) (scalarWord s) :=
  .of_letters (by cases s <;> rfl)

theorem exists_indexText {index : List Scalar} (nonempty : index ≠ []) :
    ∃ text, IndexText index text := by
  induction index with
  | nil => contradiction
  | cons s index induction =>
      cases index with
      | nil => exact ⟨_, .last (spelled_scalarWord s)⟩
      | cons s' index =>
          obtain ⟨text, others⟩ := induction (List.cons_ne_nil _ _)
          exact ⟨_, .more (spelled_scalarWord s) blank_nil others⟩

/-- These are the types that can be written. -/
theorem exists_typeText_iff {ty : Ty} : (∃ text, TypeText ty text) ↔ Indexed ty := by
  constructor
  · rintro ⟨text, written⟩
    induction written with
    | scalar _ => trivial
    | array _ _ indexes _ _ _ _ induction =>
        refine ⟨?_, induction⟩
        cases indexes <;> exact List.cons_ne_nil _ _
  · intro indexed
    induction ty with
    | scalar s => exact ⟨_, .scalar (spelled_scalarWord s)⟩
    | array index element induction =>
        obtain ⟨inner, indexes⟩ := exists_indexText indexed.1
        obtain ⟨text, elements⟩ := induction indexed.2
        have keyword : Spelled "array".toList "array".toList := .of_letters rfl
        have preposition : Spelled "of".toList "of".toList := .of_letters rfl
        exact ⟨_, .array keyword blank_nil indexes blank_nil preposition rfl
          (elements.behind_blank blank_space)⟩

variable {word text rest gap : List Char} {c : Char}

/-! What is ahead behind blanks. -/

theorem Blank.dropWhile_append (blank : Blank gap) (rest : List Char) :
    (gap ++ rest).dropWhile Cursor.isSpace = rest.dropWhile Cursor.isSpace :=
  List.dropWhile_append_of_pos blank

theorem Blank.ahead (blank : Blank gap) (solid : Cursor.isSpace c = false) (rest : List Char) :
    (gap ++ c :: rest).dropWhile Cursor.isSpace = c :: rest := by
  rw [blank.dropWhile_append, List.dropWhile_cons, solid, if_neg Bool.false_ne_true]

theorem isTerminal_of_isSpace (space : Cursor.isSpace c = true) (rest : List Char) :
    Cursor.isTerminal (c :: rest) = true := by
  rw [Cursor.isTerminal, Cursor.isTerminalChar, space, Bool.true_or]

theorem Blank.isTerminal (blank : Blank gap) (mark : Cursor.isTerminalChar c = true)
    (rest : List Char) : Cursor.isTerminal (gap ++ c :: rest) = true := by
  cases gap with
  | nil => exact mark
  | cons first gap => exact isTerminal_of_isSpace (blank first List.mem_cons_self) _

theorem isNameStart_of_isSpace (space : Cursor.isSpace c = true) :
    isNameStart c.toLower = false := by
  simp only [Cursor.isSpace, Bool.or_eq_true, decide_eq_true_eq] at space
  rcases space with ((rfl | rfl) | rfl) | rfl <;> decide

theorem Spelled.ahead (spelled : Spelled word text) (named : isName word = true)
    (rest : List Char) : ∃ front, front.map Char.toLower = word ∧
      (text ++ rest).dropWhile Cursor.isSpace = front ++ rest := by
  obtain ⟨blank, letters⟩ := spelled
  rename_i gap front
  refine ⟨front, letters, ?_⟩
  rw [List.append_assoc, blank.dropWhile_append]
  cases front with
  | nil =>
      subst letters
      cases named
  | cons first more =>
      subst letters
      rw [isName, Bool.and_eq_true] at named
      have start : isNameStart first.toLower = true := named.1
      cases space : Cursor.isSpace first with
      | false => rw [List.cons_append, List.dropWhile_cons, space, if_neg Bool.false_ne_true]
      | true =>
          rw [isNameStart_of_isSpace space] at start
          cases start

theorem Spelled.exists_first {word text : List Char} (spelled : Spelled word text)
    (named : isName word = true) (rest : List Char) :
    ∃ first more, (text ++ rest).dropWhile Cursor.isSpace = first :: more ∧
      isNameStart first.toLower = true := by
  obtain ⟨front, rfl, ahead⟩ := spelled.ahead named rest
  cases front with
  | nil => cases named
  | cons first front =>
      rw [isName, Bool.and_eq_true] at named
      exact ⟨first, front ++ rest, ahead, named.1⟩

theorem TypeText.exists_first {ty : Ty} {text : List Char} (written : TypeText ty text)
    (rest : List Char) : ∃ first more, (text ++ rest).dropWhile Cursor.isSpace = first :: more ∧
      isNameStart first.toLower = true := by
  cases written with
  | @scalar s text spelled => exact spelled.exists_first (isName_scalarWord s) rest
  | array keyword opening indexes closing preposition space elements =>
      rw [List.append_assoc]
      exact keyword.exists_first rfl _

end Source

namespace Grammar

open Source

variable {ε : Type} {r : Registry} {word text rest gap : List Char} {index : List Scalar} {ty : Ty}
variable {fuel : Nat}

theorem acceptSymbol_takes {c : Char} (blank : Blank gap) (solid : Cursor.isSpace c = false)
    (fail : ε → ParseState → Prop) :
    Meets (At r (gap ++ c :: rest)) (acceptSymbol c : EStateM ε ParseState Bool)
      (fun b s => b = true ∧ At r rest s) fail :=
  accept_takes (symbol?_takes (blank.ahead solid rest))

theorem acceptSymbol_misses {c other : Char} (blank : Blank gap)
    (solid : Cursor.isSpace other = false) (differs : other ≠ c) (fail : ε → ParseState → Prop) :
    Meets (At r (gap ++ other :: rest)) (acceptSymbol c : EStateM ε ParseState Bool)
      (fun b s => b = false ∧ At r (gap ++ other :: rest) s) fail := by
  refine accept_misses (symbol?_misses ?_)
  rw [blank.ahead solid, List.head?_cons]
  exact fun same => differs (Option.some.inj same)

theorem acceptKeyword_takes (spelled : Spelled word text) (named : isName word = true)
    (ends : Cursor.isTerminal rest = true) (fail : ε → ParseState → Prop) :
    Meets (At r (text ++ rest)) (acceptKeyword word : EStateM ε ParseState Bool)
      (fun b s => b = true ∧ At r rest s) fail := by
  obtain ⟨front, letters, ahead⟩ := spelled.ahead named rest
  exact accept_takes (keyword?_takes ahead letters ends)

theorem acceptScalar_takes {s : Scalar} (spelled : Spelled (scalarWord s) text)
    (ends : Cursor.isTerminal rest = true) (fail : ε → ParseState → Prop) :
    Meets (At r (text ++ rest)) (acceptScalar : EStateM ε ParseState (Option Scalar))
      (fun found state => found = some s ∧ At r rest state) fail := by
  obtain ⟨front, letters, ahead⟩ := spelled.ahead (isName_scalarWord s) rest
  exact acceptOne_finds (scalar_finds ahead letters ends)

/-- No other type starts with the first letter of `array`. -/
theorem acceptScalar_misses (spelled : Spelled "array".toList text)
    (fail : ε → ParseState → Prop) :
    Meets (At r (text ++ rest)) (acceptScalar : EStateM ε ParseState (Option Scalar))
      (fun found state => found = none ∧ At r (text ++ rest) state) fail := by
  obtain ⟨front, letters, ahead⟩ := spelled.ahead rfl rest
  obtain ⟨first, more, rfl, letter, -⟩ := List.map_eq_cons_iff.mp letters
  refine acceptOne_misses (firstOf?_misses fun entry member => ?_)
  obtain ⟨s, rfl⟩ := mem_scalarWords.mp member
  refine scalar_misses fun c same => ?_
  rw [ahead] at same
  obtain rfl : first = c := Option.some.inj same
  rw [letter]
  cases s <;> decide

theorem indexTypesLoop_gives (written : IndexText index text) (blank : Blank gap)
    (enough : text.length < fuel) :
    Gives Failure.IsDeep r (indexTypesLoop fuel) (text ++ (gap ++ ']' :: rest))
      (gap ++ ']' :: rest) index True := by
  induction written generalizing fuel with
  | @last s text spelled =>
      obtain ⟨fuel, rfl⟩ := Nat.exists_eq_succ_of_ne_zero (Nat.ne_zero_of_lt enough)
      refine .after (acceptScalar_takes spelled (blank.isTerminal rfl rest)) ?_
      refine .after (acceptSymbol_misses blank rfl (by decide)) ?_
      exact .pure
  | @more s index text gap' others spelled blank' indexes induction =>
      obtain ⟨fuel, rfl⟩ := Nat.exists_eq_succ_of_ne_zero (Nat.ne_zero_of_lt enough)
      rw [List.append_assoc, List.append_assoc, List.cons_append]
      refine .after (acceptScalar_takes spelled (blank'.isTerminal rfl _)) ?_
      refine .after (acceptSymbol_takes blank' rfl) ?_
      simp only [List.length_append, List.length_cons] at enough
      refine .after (fun _ => (induction (by omega)).certain _) ?_
      exact .pure

theorem indexTypes_gives (written : IndexText index text) (blank : Blank gap) :
    Gives Rejection.IsDeep r indexTypes (text ++ (gap ++ ']' :: rest)) (gap ++ ']' :: rest) index
      True := by
  refine .close (after_remaining (indexTypesLoop_gives written blank ?_))
  rw [List.length_append]
  omega

theorem typeWithin_gives (written : TypeText ty text) (ends : Cursor.isTerminal rest = true)
    (enough : text.length < fuel) :
    Gives Rejection.IsDeep r (typeWithin fuel) (text ++ rest) rest ty True := by
  induction written generalizing fuel with
  | @scalar s text spelled =>
      obtain ⟨fuel, rfl⟩ := Nat.exists_eq_succ_of_ne_zero (Nat.ne_zero_of_lt enough)
      exact .close (.after (acceptScalar_takes spelled ends) .pure)
  | @array index element array gap inner gap' of text c keyword opening indexes closing preposition
      space elements induction =>
      obtain ⟨fuel, rfl⟩ := Nat.exists_eq_succ_of_ne_zero (Nat.ne_zero_of_lt enough)
      simp only [List.append_assoc, List.cons_append, List.length_append, List.length_cons]
        at enough ⊢
      refine .close (.after (acceptScalar_misses keyword) ?_)
      refine .after (acceptKeyword_takes keyword rfl (opening.isTerminal rfl _)) ?_
      refine .after (acceptSymbol_takes opening rfl) ?_
      refine .after (fun _ => (indexTypes_gives indexes closing).orFail.certain _) ?_
      refine .after (acceptSymbol_takes closing rfl) ?_
      refine .after (acceptKeyword_takes preposition rfl (isTerminal_of_isSpace space _)) ?_
      refine .after (fun _ => (induction (by rw [List.length_cons]; omega)).orFail.certain _) ?_
      exact .pure

theorem typeName_reads (written : TypeText ty text) (ends : Cursor.isTerminal rest = true) :
    Gives Rejection.IsDeep r typeName (text ++ rest) rest ty True := by
  refine after_remaining (typeWithin_gives written ends ?_)
  rw [List.length_append]
  omega

end Grammar

end StackScript
