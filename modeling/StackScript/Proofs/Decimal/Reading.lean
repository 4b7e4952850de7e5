import StackScript.Proofs.Decimal.Digits
import StackScript.Proofs.Decimal.Rounding

namespace StackScript.Decimal

/-! Reading a decimal: what the parts of its text come to, and which binary64 number it gives. -/

variable {m c : ℕ} {q e : ℤ}

/-! ### The nearest number -/

theorem length_toDigits_pos (c : ℕ) : 0 < (Nat.toDigits 10 c).length :=
  List.length_pos_of_ne_nil Nat.toDigits_ne_nil

/-- The number of digits tells between which powers of ten a number lies. -/
theorem zpow_size_le_lt (positive : 0 < c) (e : ℤ) :
    (10 : ℚ) ^ ((Nat.toDigits 10 c).length + e - 1) ≤ c * 10 ^ e ∧
      (c : ℚ) * 10 ^ e < 10 ^ ((Nat.toDigits 10 c).length + e) := by
  obtain ⟨more, size⟩ := Nat.exists_eq_succ_of_ne_zero (length_toDigits_pos c).ne'
  have greatest : c < 10 ^ (more + 1) :=
    (Nat.length_toDigits_le_iff (by decide) more.succ_pos).mp size.le
  have least : 10 ^ more ≤ c := by
    rcases Nat.eq_zero_or_pos more with rfl | several
    · exact positive
    · rw [← Nat.not_lt, ← Nat.length_toDigits_le_iff (by decide) several]
      omega
  have ten : (10 : ℚ) ≠ 0 := by norm_num
  rw [size, Nat.succ_eq_add_one, Nat.cast_add, Nat.cast_one, add_right_comm, add_sub_cancel_right,
    zpow_add_one₀ ten, zpow_add₀ ten, zpow_natCast, mul_right_comm, ← pow_succ]
  constructor
  · gcongr
    exact_mod_cast least
  · gcongr
    exact_mod_cast greatest

/-- The interval of a finite number lies between the powers of ten that are read exactly. -/
theorem Fits.between {x : ℚ} (fits : Fits m q) (holds : (Rounding.of m q).Holds x) :
    (10 : ℚ) ^ (-325 : ℤ) ≤ x ∧ x < 10 ^ (310 : ℤ) := by
  have ends := holds.between
  rw [Rounding.of_low fits.positive, Rounding.of_high] at ends
  have least := fits.least
  have greatest := fits.greatest
  rw [leastExponent] at least
  have reach := reachBelow_le m q
  have positive := fits.one_le_cast
  have below := fits.cast_add_one_le
  have low : (1 : ℚ) / 2 ≤ m - reachBelow m q := by linarith
  have high : (m : ℚ) + 1 / 2 < 2 ^ 53 := by linarith
  constructor
  · calc (10 : ℚ) ^ (-325 : ℤ) ≤ 2 ^ (-1075 : ℤ) :=
          ten_zpow_neg_le_two_zpow_neg (by decide) (by decide)
      _ ≤ 2 ^ (q - 1) := zpow_le_zpow_right₀ (by norm_num) (by omega)
      _ = 1 / 2 * 2 ^ q := by rw [zpow_sub_one₀ two_ne_zero]; ring
      _ ≤ (m - reachBelow m q) * 2 ^ q := by gcongr
      _ ≤ x := ends.1
  · calc x ≤ (m + 1 / 2) * 2 ^ q := ends.2
      _ < 2 ^ 53 * 2 ^ q := by gcongr
      _ = 2 ^ (53 + q) := by rw [zpow_add₀ two_ne_zero]; rfl
      _ ≤ 2 ^ (1024 : ℤ) := zpow_le_zpow_right₀ (by norm_num) (by omega)
      _ ≤ 10 ^ (310 : ℤ) := two_zpow_le_ten_zpow (by decide) (by decide)

theorem scientificBits_of_holds (fits : Fits m q)
    (holds : (Rounding.of m q).Holds (c * 10 ^ e)) : scientificBits c e = magnitudeBits m q := by
  obtain ⟨least, greatest⟩ := fits.between holds
  have nonzero : c ≠ 0 := by
    rintro rfl
    rw [Nat.cast_zero, zero_mul] at least
    exact absurd least (not_le.mpr (by positivity))
  have positive := Nat.pos_of_ne_zero nonzero
  obtain ⟨small, large⟩ := zpow_size_le_lt positive e
  have below := (zpow_lt_zpow_iff_right₀ (by norm_num : (1 : ℚ) < 10)).mp (small.trans_lt greatest)
  have above := (zpow_lt_zpow_iff_right₀ (by norm_num : (1 : ℚ) < 10)).mp (least.trans_lt large)
  rw [scientificBits, if_neg nonzero]
  simp only [Nat.pow_eq]
  rw [if_neg (by omega), if_neg (by omega)]
  split
  · rename_i upward
    have power := zpow_of_nonneg (by decide : 0 < 10) upward
    refine nearestBits_of_holds fits (by positivity) Nat.one_pos ?_
    rw [Nat.cast_one, div_one, Nat.cast_mul, ← power]
    exact holds
  · rename_i downward
    have power := zpow_of_neg (by decide : 0 < 10) downward
    refine nearestBits_of_holds fits positive (by positivity) ?_
    rw [← mul_one_div, ← power]
    exact holds

/-! ### The text of a number -/

/-- The digits behind a point, if there is one, and what follows them. -/
def splitFraction : List Char → List Char × List Char
  | '.' :: rest => (rest.takeWhile Char.isDigit, rest.dropWhile Char.isDigit)
  | rest => ([], rest)

/-- What stands behind the digits: nothing, or a mark with an exponent. -/
def readTail? : List Char → Option ℤ
  | [] => some 0
  | c :: rest => if c = 'e' || c = 'E' then readExponent rest else none

theorem bindTail_eq {α : Type} (build : ℤ → Option α) (tail : List Char) :
    (match tail with
      | [] => (some 0).bind build
      | c :: rest =>
        if c = 'e' || c = 'E' then (readExponent rest).bind build else none.bind build) =
      (readTail? tail).bind build := by
  cases tail with
  | nil => rfl
  | cons c rest =>
      simp only [readTail?]
      split <;> rfl

/-- A text of digits, perhaps with a point and an exponent, for `coefficient * 10 ^ exponent`. -/
inductive Numeral : List Char → ℕ → ℤ → Prop where
  | mk {whole rest fraction tail : List Char} {e : ℤ} (nonempty : whole ≠ [])
      (all : ∀ c ∈ whole, c.isDigit = true) (stop : ∀ c ∈ rest.head?, c.isDigit = false)
      (parts : splitFraction rest = (fraction, tail)) (shift : readTail? tail = some e) :
      Numeral (whole ++ rest) (digitsValue (whole ++ fraction)) (e - fraction.length)

theorem Numeral.readMagnitude {text : List Char} (numeral : Numeral text c e) :
    readMagnitude text = some (scientificBits c e) := by
  obtain @⟨whole, rest, fraction, tail, e, nonempty, all, stop, parts, shift⟩ := numeral
  obtain ⟨front, back⟩ := span_digits all stop
  have isWhole : (whole.isEmpty && fraction.isEmpty) = false := by
    rw [List.isEmpty_eq_false_iff.mpr nonempty, Bool.false_and]
  have bound := bindTail_eq
    (fun e => some (scientificBits (digitsValue (whole ++ fraction)) (e - fraction.length))) tail
  rw [shift] at bound
  rw [Decimal.readMagnitude, front, back]
  unfold splitFraction at parts
  split at parts <;> obtain ⟨rfl, behind⟩ := Prod.mk.inj parts
  · simp only [isWhole, behind, Bool.false_eq_true, if_false]
    exact bound
  · subst rest
    simp only [isWhole, Bool.false_eq_true, if_false]
    exact bound

theorem Numeral.exists_first {text : List Char} (numeral : Numeral text c e) :
    ∃ first more, text = first :: more ∧ first.isDigit = true := by
  obtain ⟨nonempty, all, -, -, -⟩ := numeral
  obtain ⟨first, more, rfl⟩ := List.exists_cons_of_ne_nil nonempty
  exact ⟨first, _, rfl, all first List.mem_cons_self⟩

theorem Numeral.pointed {whole fraction tail : List Char} (nonempty : whole ≠ [])
    (all : ∀ c ∈ whole, c.isDigit = true) (all' : ∀ c ∈ fraction, c.isDigit = true)
    (stop : ∀ c ∈ tail.head?, c.isDigit = false) (shift : readTail? tail = some e) :
    Numeral (whole ++ '.' :: (fraction ++ tail)) (digitsValue (whole ++ fraction))
      (e - fraction.length) := by
  obtain ⟨front, back⟩ := span_digits all' stop
  refine .mk nonempty all ?_ ?_ shift
  · rintro char ⟨⟩
    rfl
  · rw [splitFraction, front, back]

theorem readExponent_toDigits (leading : ℤ) (plus : Bool) :
    readExponent ((if leading < 0 then ['-'] else if plus then ['+'] else []) ++
      Nat.toDigits 10 leading.natAbs) = some leading := by
  have value := digitsValue_toDigits leading.natAbs
  have all : (Nat.toDigits 10 leading.natAbs).all Char.isDigit = true :=
    List.all_eq_true.mpr fun _ => isDigit_of_mem
  obtain ⟨first, more, split, digit⟩ := exists_digit leading.natAbs
  rw [split] at value all ⊢
  have digits : ((first :: more).isEmpty || !(first :: more).all Char.isDigit) = false := by
    rw [all]
    rfl
  split
  · rename_i downward
    rw [List.singleton_append, readExponent, digits, if_neg Bool.false_ne_true, value]
    exact congrArg some (show -(leading.natAbs : ℤ) = leading by omega)
  · rename_i upward
    have nonneg : some (leading.natAbs : ℤ) = some leading := congrArg some (by omega)
    split
    · rw [List.singleton_append, readExponent, digits, if_neg Bool.false_ne_true, value]
      exact nonneg
    · rw [List.nil_append, readExponent]
      · rw [digits, if_neg Bool.false_ne_true, value]
        exact nonneg
      · exact fun _ same => ne_of_isDigit digit rfl (List.cons.inj same).1
      · exact fun _ same => ne_of_isDigit digit rfl (List.cons.inj same).1

theorem Numeral.readUnsigned {text : List Char} (numeral : Numeral text c e) :
    readUnsigned text = some (scientificBits c e) := by
  obtain ⟨first, more, rfl, digit⟩ := numeral.exists_first
  have noName {c : Char} (word : List Char) (letter : c.isDigit = false) :
      String.ofList ((first :: more).map Char.toLower) ≠ String.ofList (c :: word) := by
    intro same
    have head := (List.cons.inj (String.ofList_injective same)).1
    rw [toLower_of_isDigit digit] at head
    exact ne_of_isDigit digit letter head
  rw [Decimal.readUnsigned]
  split
  · rename_i same
    exact absurd same (noName (c := 'i') ['n', 'f'] rfl)
  · rename_i same
    exact absurd same (noName (c := 'i') ['n', 'f', 'i', 'n', 'i', 't', 'y'] rfl)
  · rename_i same
    exact absurd same (noName (c := 'n') ['a', 'n'] rfl)
  · exact numeral.readMagnitude

end StackScript.Decimal
