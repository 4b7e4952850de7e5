import StackScript.Proofs.Decimal.Digits
import StackScript.Proofs.Grammar.Reading

namespace StackScript

/-! Literals in front of a known text. -/

theorem Cursor.isSpace_of_isDigit {char : Char} (digit : char.isDigit = true) :
    isSpace char = false := by
  cases space : isSpace char with
  | false => rfl
  | true =>
      simp only [isSpace, Bool.or_eq_true, decide_eq_true_eq] at space
      rcases space with ((rfl | rfl) | rfl) | rfl <;> cases digit

namespace Grammar

variable {r : Registry} {text rest : List Char}

/-- What may stand behind a literal. -/
def closes : List Char → Bool
  | [] => true
  | c :: _ => c = ' ' || c = ')'

theorem isTerminal_of_closes (closed : closes rest = true) : Cursor.isTerminal rest = true := by
  cases rest with
  | nil => rfl
  | cons c more =>
      simp only [closes, Bool.or_eq_true, decide_eq_true_eq] at closed
      rcases closed with rfl | rfl <;> rfl

theorem takeWhile_digits {front : List Char} (all : ∀ c ∈ front, c.isDigit = true)
    (closed : closes rest = true) :
    (front ++ rest).takeWhile Char.isDigit = front ∧
      (front ++ rest).dropWhile Char.isDigit = rest := by
  refine Decimal.span_digits all fun c first => ?_
  cases rest with
  | nil => cases first
  | cons c more =>
      cases first
      simp only [closes, Bool.or_eq_true, decide_eq_true_eq] at closed
      rcases closed with rfl | rfl <;> rfl

theorem stringLiteral_passes (unspaced : text.dropWhile Cursor.isSpace = text)
    (other : text.head? ≠ some '"') : Passes r stringLiteral text := by
  refine .close (.after_skip unspaced (.after_cursor fun c same => ?_))
  have missing : c.isAt '"' = false := by
    simp [Cursor.isAt, Cursor.peek?, same, other]
  rw [missing, if_neg Bool.false_ne_true]
  exact .pass

theorem floatLiteral_passes (unspaced : text.dropWhile Cursor.isSpace = text)
    (other : (text.dropWhile Char.isDigit).head? ≠ some '.' ∨ text.takeWhile Char.isDigit = []) :
    Passes r floatLiteral text := by
  refine .close (.after_skip unspaced (.after_cursor fun c same => ?_))
  have missing : ((c.wordOf Char.isDigit).isEmpty ||
      !(c.skipWhile Char.isDigit).isAt '.') = true := by
    rw [Cursor.isAt, Cursor.peek?, Cursor.rest_skipWhile, Cursor.wordOf, same]
    rcases other with other | other <;> simp [other]
  simp only [missing, if_true]
  exact .pass

theorem integerLiteral_passes (unspaced : text.dropWhile Cursor.isSpace = text)
    (none : text.takeWhile Char.isDigit = []) : Passes r integerLiteral text := by
  refine .close (.after_skip unspaced (.after_cursor fun c same => ?_))
  refine .after_move rfl (.after_cursor fun c' _ => ?_)
  have missing : (c.wordOf Char.isDigit).isEmpty = true := by rw [Cursor.wordOf, same, none]; rfl
  simp only [missing, Bool.true_or, if_true]
  exact .pass

theorem integerLiteral_gives {n : Nat} (inRange : n < 2 ^ 63)
    (unspaced : (Nat.toDigits 10 n ++ rest).dropWhile Cursor.isSpace = Nat.toDigits 10 n ++ rest)
    (closed : closes rest = true) :
    Gives Rejection.IsDeep r integerLiteral (Nat.toDigits 10 n ++ rest) rest (Int64.ofNat n)
      True := by
  have all : ∀ c ∈ Nat.toDigits 10 n, c.isDigit = true := fun _ => Decimal.isDigit_of_mem
  obtain ⟨word, behind⟩ := takeWhile_digits all closed
  refine .close (.after_skip unspaced (.after_cursor fun c same => ?_))
  have rest_eq : (c.skipWhile Char.isDigit).rest = rest := by
    rw [Cursor.rest_skipWhile, same, behind]
  refine .after_move rest_eq (.after_cursor fun c' same' => ?_)
  have present : ((c.wordOf Char.isDigit).isEmpty || !Cursor.isTerminal c'.rest) = false := by
    simp [Cursor.wordOf, same, word, same', isTerminal_of_closes closed, Nat.toDigits_ne_nil]
  simp only [present, Bool.false_eq_true, if_false]
  simp only [Cursor.wordOf, same, word, Decimal.readInteger_toDigits inRange]
  exact .pure

def truthWord : Bool → List Char
  | true => ['t', 'r', 'u', 'e']
  | false => ['f', 'a', 'l', 's', 'e']

theorem truth_finds {b : Bool} (closed : closes rest = true) :
    Finds (fun c : Cursor => c.firstOf? Cursor.keyword?
      [("true".toList, true), ("false".toList, false)]) (truthWord b ++ rest) b rest := by
  intro c same
  have terminal := isTerminal_of_closes closed
  have unspaced : (truthWord b ++ rest).dropWhile Cursor.isSpace = truthWord b ++ rest := by
    cases b <;> rfl
  have spelled : (truthWord b).map Char.toLower = truthWord b := by cases b <;> rfl
  obtain ⟨c', found, behind⟩ := keyword?_takes unspaced spelled terminal c same
  refine ⟨c', ?_, behind⟩
  cases b with
  | true => simp only [Cursor.firstOf?, show "true".toList = truthWord true from rfl, found]
  | false =>
      have noTrue : c.keyword? ['t', 'r', 'u', 'e'] = none := by
        refine keyword?_misses (fun char first => ?_) c same
        obtain rfl : 'f' = char := Option.some.inj (by rw [← first, unspaced]; rfl)
        decide
      simp only [Cursor.firstOf?, show "true".toList = ['t', 'r', 'u', 'e'] from rfl,
        show "false".toList = truthWord false from rfl, noTrue, found]

theorem booleanLiteral_gives {b : Bool} (closed : closes rest = true) :
    Gives Rejection.IsDeep r booleanLiteral (truthWord b ++ rest) rest b True := by
  refine .after_cursor fun c _ => .after (fun _ => acceptOne_finds (truth_finds closed)) ?_
  exact .pure

theorem booleanLiteral_passes (other : ∀ char, (text.dropWhile Cursor.isSpace).head? = some char →
    char.toLower ≠ 't' ∧ char.toLower ≠ 'f') : Passes r booleanLiteral text := by
  refine after_cursor fun c same => ?_
  have misses : Misses (fun c : Cursor => c.firstOf? Cursor.keyword?
      [("true".toList, true), ("false".toList, false)]) text := by
    apply firstOf?_misses
    intro entry member
    simp only [List.mem_cons, List.not_mem_nil, or_false] at member
    rcases member with rfl | rfl
    · exact keyword?_misses fun char first => (other char first).1
    · exact keyword?_misses fun char first => (other char first).2
  refine .bind (acceptOne_misses misses) fun found => .of_start (fun _ start => start.1) ?_
  rintro rfl
  exact .throw fun _ start => ⟨rfl, start.2⟩

theorem literal_gives_number {n : Nat} (inRange : n < 2 ^ 63) (closed : closes rest = true) :
    Gives Rejection.IsDeep r literal (Nat.toDigits 10 n ++ rest) rest (.int (Int64.ofNat n))
      True := by
  have all : ∀ c ∈ Nat.toDigits 10 n, c.isDigit = true := fun _ => Decimal.isDigit_of_mem
  obtain ⟨-, behind⟩ := takeWhile_digits all closed
  obtain ⟨first, digits, split, digit⟩ := Decimal.exists_digit n
  have unspaced : (Nat.toDigits 10 n ++ rest).dropWhile Cursor.isSpace =
      Nat.toDigits 10 n ++ rest := by
    simp [split, Cursor.isSpace_of_isDigit digit]
  have notQuote : (Nat.toDigits 10 n ++ rest).head? ≠ some '"' := by
    rw [split]
    rintro same
    obtain rfl := Option.some.inj same
    cases digit
  have notPoint : ((Nat.toDigits 10 n ++ rest).dropWhile Char.isDigit).head? ≠ some '.' := by
    rw [behind]
    rintro same
    cases rest with
    | nil => cases same
    | cons c more =>
        obtain rfl := Option.some.inj same
        cases closed
  exact .close (.orPass (.or_right (.map (stringLiteral_passes unspaced notQuote))
    (.or_right (.map (floatLiteral_passes unspaced (.inl notPoint)))
      (.or_left (.map (integerLiteral_gives inRange unspaced closed))))))

theorem literal_passes_to_boolean (unspaced : text.dropWhile Cursor.isSpace = text)
    (quote : text.head? ≠ some '"') (digit : text.takeWhile Char.isDigit = []) :
    Passes r (Literal.str <$> stringLiteral) text ∧ Passes r (Literal.float <$> floatLiteral) text ∧
      Passes r (Literal.int <$> integerLiteral) text :=
  ⟨.map (stringLiteral_passes unspaced quote),
    .map (floatLiteral_passes unspaced (.inr digit)),
    .map (integerLiteral_passes unspaced digit)⟩

theorem literal_gives_truth {b : Bool} (closed : closes rest = true) :
    Gives Rejection.IsDeep r literal (truthWord b ++ rest) rest (.bool b) True := by
  have unspaced : (truthWord b ++ rest).dropWhile Cursor.isSpace = truthWord b ++ rest := by
    cases b <;> rfl
  obtain ⟨string, float, integer⟩ := literal_passes_to_boolean (r := r) unspaced
    (by cases b <;> simp [truthWord]) (by cases b <;> rfl)
  exact .close (.orPass (.or_right string (.or_right float (.or_right integer
    (.map (booleanLiteral_gives closed))))))

theorem literal_passes {first : Char} {more : List Char} (noSpace : Cursor.isSpace first = false)
    (noQuote : first ≠ '"') (noDigit : first.isDigit = false)
    (noTruth : first.toLower ≠ 't' ∧ first.toLower ≠ 'f') :
    Passes r literal (first :: more) := by
  have unspaced : (first :: more).dropWhile Cursor.isSpace = first :: more := by simp [noSpace]
  obtain ⟨string, float, integer⟩ := literal_passes_to_boolean (r := r) unspaced
    (by simpa using noQuote) (by simp [noDigit])
  refine Passes.close (Passes.orPass (.or string (.or float (.or integer
    (.map (booleanLiteral_passes ?_))))))
  intro char same
  rw [unspaced] at same
  obtain rfl := Option.some.inj same
  exact noTruth

end Grammar

end StackScript
