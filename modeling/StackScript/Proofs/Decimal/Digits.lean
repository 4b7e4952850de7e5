import Mathlib.Algebra.Group.Nat.Defs
import StackScript.Decimal.Reader

namespace StackScript.Decimal

/-! Runs of digits: what they are worth, and the whole numbers that are read from them. -/

variable {limit n : Nat} {digits : List Char}

theorem isDigit_of_mem {c : Char} (member : c ∈ Nat.toDigits 10 n) : c.isDigit = true :=
  Nat.isDigit_of_mem_toDigits (by decide) (by decide) member

theorem ne_of_isDigit {c mark : Char} (digit : c.isDigit = true) (other : mark.isDigit = false) :
    c ≠ mark := by
  rintro rfl
  rw [other] at digit
  cases digit

theorem exists_digit (n : Nat) :
    ∃ first more, Nat.toDigits 10 n = first :: more ∧ first.isDigit = true := by
  obtain ⟨first, more, split⟩ :=
    List.exists_cons_of_ne_nil (Nat.toDigits_ne_nil : Nat.toDigits 10 n ≠ [])
  exact ⟨first, more, split, isDigit_of_mem (by rw [split]; exact List.mem_cons_self)⟩

theorem span_digits {front rest : List Char} (all : ∀ c ∈ front, c.isDigit = true)
    (stop : ∀ c ∈ rest.head?, c.isDigit = false) :
    (front ++ rest).takeWhile Char.isDigit = front ∧
      (front ++ rest).dropWhile Char.isDigit = rest := by
  rw [List.takeWhile_append_of_pos all, List.dropWhile_append_of_pos all]
  cases rest with
  | nil => exact ⟨List.append_nil front, rfl⟩
  | cons c more =>
      have noDigit := stop c rfl
      rw [List.takeWhile_cons_of_neg (by simp [noDigit]), List.append_nil,
        List.dropWhile_cons_of_neg (by simp [noDigit])]
      exact ⟨rfl, rfl⟩

theorem toLower_of_isDigit {c : Char} (digit : c.isDigit = true) : c.toLower = c := by
  simp only [Char.isDigit, Bool.and_eq_true, decide_eq_true_eq] at digit
  unfold Char.toLower
  rw [dif_neg]
  intro upper
  exact absurd (UInt32.le_trans upper.1 digit.2) (by decide)

/-! ### The worth of digits -/

theorem digitsValue_eq (digits : List Char) :
    digitsValue digits = Nat.ofDigitChars 10 digits 0 := by
  rw [digitsValue, Nat.ofDigitChars]
  congr 1
  funext value c
  rw [Nat.mul_comm]

theorem digitsValue_append (front back : List Char) :
    digitsValue (front ++ back) = digitsValue front * 10 ^ back.length + digitsValue back := by
  rw [digitsValue_eq, digitsValue_eq, digitsValue_eq, Nat.ofDigitChars_append,
    Nat.ofDigitChars_eq_ofDigitChars_zero, Nat.mul_comm]

theorem digitsValue_zeros (count : Nat) : digitsValue (List.replicate count '0') = 0 := by
  induction count with
  | zero => rfl
  | succ count induction =>
      rw [List.replicate_succ']
      rw [digitsValue_append, induction]
      rfl

theorem digitsValue_toDigits (n : Nat) : digitsValue (Nat.toDigits 10 n) = n := by
  rw [digitsValue_eq, Nat.ofDigitChars_ten_toDigits]

theorem le_ofDigitChars (digits : List Char) (value : Nat) :
    value ≤ Nat.ofDigitChars 10 digits value := by
  induction digits generalizing value with
  | nil => exact Nat.le_refl value
  | cons c rest induction =>
      rw [Nat.ofDigitChars_cons]
      exact Nat.le_trans (by omega) (induction _)

/-! ### Whole numbers -/

theorem readDigits_eq {overflow : IntegerError} {value : Nat}
    (all : ∀ c ∈ digits, c.isDigit = true) (bound : Nat.ofDigitChars 10 digits value ≤ limit) :
    readDigits limit overflow value digits = .ok (Nat.ofDigitChars 10 digits value) := by
  induction digits generalizing value with
  | nil => rfl
  | cons c rest induction =>
      have first : c.isDigit = true := all c List.mem_cons_self
      rw [Nat.ofDigitChars_cons, Nat.mul_comm] at bound ⊢
      have below := Nat.le_trans (le_ofDigitChars rest _) bound
      simp only [readDigits, digit?, first, if_true]
      rw [if_neg (Nat.not_lt_of_le below)]
      exact induction (fun d member => all d (List.mem_cons_of_mem c member)) bound

theorem readDigits_toDigits (overflow : IntegerError) (inRange : n ≤ limit) :
    readDigits limit overflow 0 (Nat.toDigits 10 n) = .ok n := by
  rw [readDigits_eq (fun _ => isDigit_of_mem), Nat.ofDigitChars_ten_toDigits]
  rw [Nat.ofDigitChars_ten_toDigits]
  exact inRange

theorem readNatural_toDigits (inRange : n ≤ limit) :
    readNatural limit (Nat.toDigits 10 n) = .ok n := by
  have read := readDigits_toDigits .tooLarge inRange
  obtain ⟨first, more, split, digit⟩ := exists_digit n
  have notPlus : first ≠ '+' := ne_of_isDigit digit rfl
  rw [split] at read ⊢
  rw [readNatural, read]
  all_goals simp [notPlus]

theorem readWord_toDigits (word : UInt32) : readWord (Nat.toDigits 10 word.toNat) = .ok word := by
  have inRange : word.toNat ≤ UInt32.size - 1 := Nat.le_sub_one_of_lt word.toNat_lt_size
  rw [readWord, readNatural_toDigits inRange]
  exact congrArg Except.ok (UInt32.ofNat_toNat (x := word))

theorem readByte_toDigits (byte : UInt8) : readByte (Nat.toDigits 10 byte.toNat) = .ok byte := by
  have inRange : byte.toNat ≤ UInt8.size - 1 := Nat.le_sub_one_of_lt byte.toNat_lt_size
  rw [readByte, readNatural_toDigits inRange]
  exact congrArg Except.ok (UInt8.ofNat_toNat (x := byte))

theorem readInteger_toDigits (inRange : n < 2 ^ 63) :
    readInteger (Nat.toDigits 10 n) = .ok (Int64.ofNat n) := by
  have read : readNatural ((1 <<< 63) - 1) (Nat.toDigits 10 n) = .ok n :=
    readNatural_toDigits (Nat.le_sub_one_of_lt inRange)
  obtain ⟨first, more, split, digit⟩ := exists_digit n
  have notMinus : first ≠ '-' := ne_of_isDigit digit rfl
  rw [split] at read ⊢
  rw [readInteger]
  · rw [read]
    exact congrArg Except.ok (Int64.ofInt_eq_ofNat (n := n))
  · simp [notMinus]
  · simp [notMinus]

/-- The least integer has a magnitude that only a negative number may have. -/
theorem readInteger_minus_toDigits (inRange : n ≤ 2 ^ 63) :
    readInteger ('-' :: Nat.toDigits 10 n) = .ok (Int64.ofInt (-n)) := by
  have read : readDigits (1 <<< 63) .tooSmall 0 (Nat.toDigits 10 n) = .ok n :=
    readDigits_toDigits .tooSmall inRange
  obtain ⟨first, more, split, -⟩ := exists_digit n
  rw [split] at read ⊢
  rw [readInteger, read]
  · rfl
  · exact fun none => nomatch none

theorem readInteger_toString (value : Int64) :
    readInteger (toString value.toInt).toList = .ok value := by
  have least := value.le_toInt
  have greatest := value.toInt_lt
  rw [Int.toString_eq_repr, Int.repr_eq_if]
  split
  · rename_i upward
    rw [Nat.toList_repr, readInteger_toDigits (by omega), ← Int64.ofInt_eq_ofNat,
      Int.toNat_of_nonneg upward, Int64.ofInt_toInt]
  · rename_i downward
    rw [String.toList_append, Nat.toList_repr]
    have read := readInteger_minus_toDigits (n := (-value.toInt).toNat) (by omega)
    rw [Int.toNat_of_nonneg (by omega), Int.neg_neg, Int64.ofInt_toInt] at read
    exact read

end StackScript.Decimal
