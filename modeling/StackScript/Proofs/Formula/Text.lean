import StackScript.Proofs.Formula.Evaluation
import StackScript.Proofs.Grammar.Literal

namespace StackScript

/-! What the texts of formulas start with, and what may follow them. -/

namespace Formula

variable {gap rest : List Char}

/-- The text of a formula where one of some level is needed. -/
def textAt (gap : List Char) (least : Nat) (e : Formula) : List Char :=
  within gap least e.level (e.text gap)

/-- One more level of nesting for parentheses. -/
def deepen (least level nesting : Nat) : Nat :=
  if level < least then nesting + 1 else nesting

/-- How many rules are nested in each other where the formula is read: one for each pair of
parentheses, sign, and branch of a choice. -/
def nesting : Formula → Nat
  | .number _ _ | .truth _ => 0
  | .signed _ operand => deepen signLevel operand.level operand.nesting + 1
  | .binary connective lhs rhs =>
      max (deepen connective.leftLevel lhs.level lhs.nesting)
        (deepen (connective.level + 1) rhs.level rhs.nesting)
  | .choice condition whenTrue whenFalse =>
      max (deepen 1 condition.level condition.nesting)
        (max (whenTrue.nesting + 1) (whenFalse.nesting + 1))

/-- The nesting where a formula of some level is needed. -/
def nestingAt (least : Nat) (e : Formula) : Nat :=
  deepen least e.level e.nesting

variable {least : Nat} {e : Formula}

theorem textAt_of_lt (low : e.level < least) : e.textAt gap least = enclosed gap (e.text gap) :=
  if_pos low

theorem textAt_of_le (high : least ≤ e.level) : e.textAt gap least = e.text gap :=
  if_neg (Nat.not_lt.mpr high)

theorem nestingAt_of_lt (low : e.level < least) : e.nestingAt least = e.nesting + 1 :=
  if_pos low

theorem nestingAt_of_le (high : least ≤ e.level) : e.nestingAt least = e.nesting :=
  if_neg (Nat.not_lt.mpr high)

theorem textAt_succ (other : e.level ≠ least) : e.textAt gap (least + 1) = e.textAt gap least := by
  rcases Nat.lt_or_gt_of_ne other with low | high
  · rw [textAt_of_lt low, textAt_of_lt (Nat.lt_succ_of_lt low)]
  · rw [textAt_of_le (Nat.le_of_lt high), textAt_of_le high]

theorem nestingAt_succ (other : e.level ≠ least) :
    e.nestingAt (least + 1) = e.nestingAt least := by
  rcases Nat.lt_or_gt_of_ne other with low | high
  · rw [nestingAt_of_lt low, nestingAt_of_lt (Nat.lt_succ_of_lt low)]
  · rw [nestingAt_of_le (Nat.le_of_lt high), nestingAt_of_le high]

/-! Which formulas have a level. -/

theorem connective_level_pos (connective : Connective) : 0 < connective.level := by
  cases connective with
  | or | and | relation => exact Nat.succ_pos _
  | arith operation => cases operation <;> exact Nat.succ_pos _

theorem connective_level_lt (connective : Connective) : connective.level < signLevel := by
  cases connective with
  | or | and => decide
  | relation => exact (by decide : 3 < 6)
  | arith operation => cases operation <;> decide

theorem level_le (e : Formula) : e.level ≤ literalLevel := by
  cases e with
  | number | truth => exact Nat.le_refl _
  | signed => exact (by decide : 6 ≤ 7)
  | binary connective => exact Nat.le_of_lt (Nat.lt_succ_of_lt (connective_level_lt connective))
  | choice => exact Nat.zero_le _

theorem nesting_eq_zero (same : e.level = literalLevel) : e.nesting = 0 := by
  cases e with
  | number | truth => rfl
  | signed | choice => cases same
  | binary connective =>
      exact absurd same (Nat.ne_of_lt (Nat.lt_succ_of_lt (connective_level_lt connective)))

theorem eq_choice (same : e.level = 0) :
    ∃ condition whenTrue whenFalse, e = choice condition whenTrue whenFalse := by
  cases e with
  | number | truth | signed => cases same
  | binary connective => exact absurd same (Nat.ne_of_gt (connective_level_pos connective))
  | choice condition whenTrue whenFalse => exact ⟨condition, whenTrue, whenFalse, rfl⟩

theorem eq_signed (same : e.level = signLevel) : ∃ sign operand, e = signed sign operand := by
  cases e with
  | number | truth | choice => cases same
  | binary connective => exact absurd same (Nat.ne_of_lt (connective_level_lt connective))
  | signed sign operand => exact ⟨sign, operand, rfl⟩

theorem eq_binary (e : Formula) (low : 0 < e.level) (high : e.level < signLevel) :
    ∃ connective lhs rhs, e = binary connective lhs rhs := by
  cases e with
  | number | truth => exact absurd high (by decide : ¬ 7 < 6)
  | signed => exact absurd high (Nat.lt_irrefl _)
  | choice => exact absurd low (Nat.lt_irrefl _)
  | binary connective lhs rhs => exact ⟨connective, lhs, rhs, rfl⟩

theorem eq_relation {connective : Connective} (same : connective.level = 3) :
    ∃ test, connective = .relation test := by
  cases connective with
  | or | and => cases same
  | relation test => exact ⟨test, rfl⟩
  | arith operation => cases operation <;> cases same

theorem leftLevel_eq {connective : Connective} (other : connective.level ≠ 3) :
    connective.leftLevel = connective.level := by
  cases connective with
  | or | and | arith => rfl
  | relation => exact absurd rfl other

/-! What nesting bounds, and what bounds it. -/

def height : Formula → Nat
  | .number _ _ | .truth _ => 0
  | .signed _ operand => operand.height + 1
  | .binary _ lhs rhs => max lhs.height rhs.height + 1
  | .choice condition whenTrue whenFalse =>
      max condition.height (max whenTrue.height whenFalse.height) + 1

theorem deepen_le (least level nesting : Nat) : deepen least level nesting ≤ nesting + 1 := by
  unfold deepen
  split <;> omega

/-- Each step up the tree adds at most a pair of parentheses and a rule of its own. -/
theorem nesting_le (e : Formula) : e.nesting ≤ 2 * e.height := by
  induction e with
  | number | truth => exact Nat.le_refl 0
  | signed sign operand induction =>
      have parentheses := deepen_le signLevel operand.level operand.nesting
      simp only [nesting, height]
      omega
  | binary connective lhs rhs left right =>
      have front := deepen_le connective.leftLevel lhs.level lhs.nesting
      have back := deepen_le (connective.level + 1) rhs.level rhs.nesting
      simp only [nesting, height]
      omega
  | choice condition whenTrue whenFalse test accepted refused =>
      have front := deepen_le 1 condition.level condition.nesting
      simp only [nesting, height]
      omega

theorem room_deepen {room least level nesting : Nat} (bound : room + level ≤ 8 * (nesting + 1))
    (small : least ≤ 8) : room + least ≤ 8 * (deepen least level nesting + 1) := by
  unfold deepen
  split <;> omega

/-- Between two levels of nesting there wait no more operands than there are levels of operators. -/
theorem room_le (e : Formula) : e.room + e.level ≤ 8 * (e.nesting + 1) := by
  induction e with
  | number | truth => exact Nat.le_refl 8
  | signed sign operand induction =>
      have inside := room_deepen induction (by decide : signLevel ≤ 8)
      change operand.room + signLevel ≤ 8 * (deepen signLevel operand.level operand.nesting + 1 + 1)
      omega
  | binary connective lhs rhs left right =>
      have high : connective.level < 6 := connective_level_lt connective
      have least : connective.level ≤ connective.leftLevel ∧ connective.leftLevel ≤ 8 := by
        cases connective with
        | or | and => decide
        | arith operation => cases operation <;> decide
        | relation => exact ⟨Nat.le_succ 3, (by decide : 4 ≤ 8)⟩
      have front := room_deepen left least.2
      have back := room_deepen right (by omega : connective.level + 1 ≤ 8)
      simp only [nesting, room]
      change _ + connective.level ≤ _
      omega
  | choice condition whenTrue whenFalse test accepted refused =>
      have front := room_deepen test (by decide : 1 ≤ 8)
      simp only [nesting, room]
      change _ + 0 ≤ _
      omega

/-! First characters. -/

/-- A text that starts with something other than a space. -/
def Starts (text : List Char) : Prop :=
  ∃ first more, text = first :: more ∧ Cursor.isSpace first = false

theorem Starts.unspaced {text : List Char} (starts : Starts text) (rest : List Char) :
    (text ++ rest).dropWhile Cursor.isSpace = text ++ rest := by
  obtain ⟨first, more, rfl, plain⟩ := starts
  rw [List.cons_append, List.dropWhile_cons, plain]
  rfl

theorem Starts.append {text : List Char} (starts : Starts text) (rest : List Char) :
    Starts (text ++ rest) := by
  obtain ⟨first, more, rfl, plain⟩ := starts
  exact ⟨first, more ++ rest, rfl, plain⟩

theorem starts_within (least level : Nat) {text : List Char} (starts : Starts text) :
    Starts (within gap least level text) := by
  unfold within
  split
  · exact ⟨'(', _, rfl, rfl⟩
  · exact starts

theorem starts_text (e : Formula) : Starts (e.text gap) := by
  induction e with
  | number n =>
      obtain ⟨first, more, split, digit⟩ := Decimal.exists_digit n
      exact ⟨first, more, split, Cursor.isSpace_of_isDigit digit⟩
  | truth b => cases b <;> exact ⟨_, _, rfl, rfl⟩
  | signed sign operand => cases sign <;> exact ⟨_, _, rfl, rfl⟩
  | binary connective lhs rhs left _ => exact (starts_within _ _ left).append _
  | choice condition whenTrue whenFalse test _ _ => exact (starts_within _ _ test).append _

theorem starts_textAt (least : Nat) (e : Formula) : Starts (e.textAt gap least) :=
  starts_within least e.level e.starts_text

theorem first_of_operand (gap : List Char) (e : Formula) :
    ∃ first more, e.textAt gap literalLevel = first :: more ∧ first ≠ '-' ∧
      first.toLower ≠ 'n' := by
  by_cases low : e.level < literalLevel
  · rw [textAt_of_lt low]
    exact ⟨'(', _, rfl, by decide, by decide⟩
  · rw [textAt_of_le (Nat.not_lt.mp low)]
    cases e with
    | number n =>
        obtain ⟨first, more, split, digit⟩ := Decimal.exists_digit n
        refine ⟨first, more, split, ?_, ?_⟩
        · rintro rfl
          cases digit
        · rw [Decimal.toLower_of_isDigit digit]
          rintro rfl
          cases digit
    | truth b => cases b <;> exact ⟨_, _, rfl, by decide, by decide⟩
    | signed => exact absurd (by decide : 6 < 7) low
    | choice => exact absurd (by decide : 0 < 7) low
    | binary connective =>
        exact absurd (Nat.lt_succ_of_lt (connective_level_lt connective)) low

theorem ahead {spaces : List Char} (blank : ∀ c ∈ spaces, Cursor.isSpace c = true) (least : Nat)
    (e : Formula) (rest : List Char) :
    (spaces ++ (e.textAt gap least ++ rest)).dropWhile Cursor.isSpace =
      e.textAt gap least ++ rest := by
  rw [List.dropWhile_append_of_pos blank, (e.starts_textAt least).unspaced]

theorem ahead_space (least : Nat) (e : Formula) (rest : List Char) :
    (' ' :: (e.textAt gap least ++ rest)).dropWhile Cursor.isSpace = e.textAt gap least ++ rest :=
  @ahead gap [' '] (by simp [Cursor.isSpace]) least e rest

end Formula

namespace Grammar

variable {gap rest : List Char}

/-- The levels of what operators start with, and one more. -/
def ranks : List (Char × Nat) :=
  [('*', 6), ('/', 6), ('+', 5), ('-', 5), ('=', 4), ('!', 4), ('<', 4), ('>', 4), ('a', 3),
    ('o', 2), ('?', 1)]

def rank (char : Char) : Nat :=
  (ranks.lookup char.toLower).getD 0

/-- What may follow a formula of some level: a literal ends there, and no operator that binds as
tightly comes next. -/
structure Quiet (level : Nat) (rest : List Char) : Prop where
  closed : closes rest = true
  low : ∀ char, (rest.dropWhile Cursor.isSpace).head? = some char → rank char ≤ level

namespace Quiet

variable {level higher : Nat}

theorem mono (quiet : Quiet level rest) (le : level ≤ higher) : Quiet higher rest where
  closed := quiet.closed
  low := fun char first => Nat.le_trans (quiet.low char first) le

theorem nil : Quiet level [] where
  closed := rfl
  low := fun _ first => nomatch first

theorem space {first : Char} (plain : Cursor.isSpace first = false) (low : rank first ≤ level)
    (rest : List Char) : Quiet level (' ' :: first :: rest) where
  closed := rfl
  low := by
    intro char same
    rw [List.dropWhile_cons, if_pos (by rfl), List.dropWhile_cons, plain] at same
    cases same
    exact low

theorem closing (blank : ∀ c ∈ gap, c = ' ') (rest : List Char) :
    Quiet level (gap ++ ')' :: rest) where
  closed := by
    cases gap with
    | nil => rfl
    | cons c more =>
        obtain rfl := blank c List.mem_cons_self
        rfl
  low := by
    intro char same
    rw [List.dropWhile_append_of_pos fun c member => blank c member ▸ rfl] at same
    cases same
    exact Nat.zero_le level

theorem connective (connective : Connective) (rest : List Char) :
    Quiet (connective.level + 1) (' ' :: (connective.text ++ rest)) := by
  cases connective with
  | or | and => exact space rfl (by decide) _
  | relation test => cases test <;> exact space rfl (by decide) _
  | arith operation => cases operation <;> exact space rfl (by decide) _

theorem head?_ne {char : Char} (quiet : Quiet level rest) (high : level < rank char) :
    (rest.dropWhile Cursor.isSpace).head? ≠ some char :=
  fun first => Nat.not_le_of_lt high (quiet.low char first)

theorem symbol?_misses {char : Char} (quiet : Quiet level rest) (high : level < rank char) :
    Misses (Cursor.symbol? char) rest :=
  Grammar.symbol?_misses (quiet.head?_ne high)

theorem signOperator_misses {ω : Type} {signs : List (Char × ω)} (quiet : Quiet level rest)
    (high : ∀ sign ∈ signs, level < rank sign.1) : Misses (signOperator signs) rest := by
  intro c same
  unfold signOperator
  simp only [c.rest_skipSpace, same]
  cases ahead : rest.dropWhile Cursor.isSpace with
  | nil => rfl
  | cons char more =>
      have missing : signs.lookup char = none := by
        rw [List.lookup_eq_none_iff]
        intro sign member
        have other := quiet.head?_ne (high sign member)
        rw [ahead] at other
        simpa using fun equal : char = sign.1 => other (by rw [equal]; rfl)
      simp only [missing]

theorem relation_misses (quiet : Quiet 3 rest) :
    Misses (fun c : Cursor => c.firstOf? Cursor.operator? relationWords) rest := by
  apply firstOf?_misses
  have missing (first : Char) (word : List Char) (high : 3 < rank first) :
      Misses (Cursor.operator? (first :: word)) rest :=
    operator?_misses (quiet.head?_ne high)
  intro entry member
  simp only [relationWords, List.mem_cons, List.not_mem_nil, or_false] at member
  rcases member with rfl | rfl | rfl | rfl | rfl | rfl
  all_goals exact missing _ _ (by decide)

theorem wordOperator_misses {word : String} {first : Char} {more : List Char}
    (quiet : Quiet level rest) (spelled : word.toList = first :: more)
    (high : ∀ char : Char, char.toLower = first → level < rank char) :
    Misses (wordOperator word) rest := by
  intro c same
  unfold wordOperator
  rw [spelled, keyword?_misses (fun char ahead equal => ?_) c same]
  · rfl
  · exact quiet.head?_ne (high char equal) ahead

end Quiet

end Grammar

end StackScript
