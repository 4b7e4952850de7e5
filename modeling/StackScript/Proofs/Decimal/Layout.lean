import StackScript.Decimal.Layout
import StackScript.Proofs.Decimal.Reading
import StackScript.Proofs.Decimal.Shortest
import StackScript.Proofs.Text.Blank

namespace StackScript.Decimal

/-! What a layout writes for a number reads back as the number. -/

variable {m : ℕ} {q : ℤ} {layout : Layout}

/-! ### Digits with a point or an exponent -/

theorem digitsValue_padded (zeros c : ℕ) :
    digitsValue (List.replicate zeros '0' ++ Nat.toDigits 10 c) = c := by
  rw [digitsValue_append, digitsValue_zeros, digitsValue_toDigits, Nat.zero_mul, Nat.zero_add]

theorem isDigit_of_mem_padded {zeros c : ℕ} {char : Char}
    (member : char ∈ List.replicate zeros '0' ++ Nat.toDigits 10 c) : char.isDigit = true := by
  rcases List.mem_append.mp member with zero | digit
  · rw [List.eq_of_mem_replicate zero]
    rfl
  · exact isDigit_of_mem digit

/-- A whole number gets the zeros that its exponent stands for, and one more behind the point. -/
theorem whole_numeral (c : ℕ) {e : ℤ} (upward : 0 ≤ e) :
    Numeral (positional (Nat.toDigits 10 c) e) (c * 10 ^ (e.toNat + 1)) (-1) := by
  have all : ∀ char ∈ Nat.toDigits 10 c ++ List.replicate e.toNat '0', char.isDigit = true := by
    intro char member
    rcases List.mem_append.mp member with digit | zero
    · exact isDigit_of_mem digit
    · rw [List.eq_of_mem_replicate zero]
      rfl
  have nonempty : Nat.toDigits 10 c ++ List.replicate e.toNat '0' ≠ [] :=
    List.append_ne_nil_of_left_ne_nil Nat.toDigits_ne_nil _
  have worth : digitsValue (Nat.toDigits 10 c ++ List.replicate e.toNat '0' ++ ['0']) =
      c * 10 ^ (e.toNat + 1) := by
    rw [List.append_assoc, ← List.replicate_succ', digitsValue_append, digitsValue_zeros,
      digitsValue_toDigits, List.length_replicate, Nat.add_zero]
  have numeral : Numeral (Nat.toDigits 10 c ++ List.replicate e.toNat '0' ++ '.' :: (['0'] ++ []))
      (digitsValue (Nat.toDigits 10 c ++ List.replicate e.toNat '0' ++ ['0'])) (0 - 1) :=
    .pointed nonempty all (List.forall_mem_singleton.mpr rfl) (fun _ none => nomatch none) rfl
  rw [worth] at numeral
  rw [positional, if_pos upward]
  exact numeral

theorem fraction_numeral (c : ℕ) {e : ℤ} (downward : ¬ 0 ≤ e) :
    Numeral (positional (Nat.toDigits 10 c) e) c e := by
  have worth := digitsValue_padded ((-e).toNat + 1 - (Nat.toDigits 10 c).length) c
  have all : ∀ char ∈ List.replicate ((-e).toNat + 1 - (Nat.toDigits 10 c).length) '0' ++
      Nat.toDigits 10 c, char.isDigit = true := fun _ => isDigit_of_mem_padded
  have size : (-e).toNat < (List.replicate ((-e).toNat + 1 - (Nat.toDigits 10 c).length) '0' ++
      Nat.toDigits 10 c).length := by
    rw [List.length_append, List.length_replicate]
    omega
  rw [positional, if_neg downward]
  dsimp only
  generalize List.replicate ((-e).toNat + 1 - (Nat.toDigits 10 c).length) '0' ++
    Nat.toDigits 10 c = padded at *
  have nonempty : padded.take (padded.length - (-e).toNat) ≠ [] := by
    intro none
    have := congrArg List.length none
    rw [List.length_take, List.length_nil] at this
    omega
  have numeral : Numeral (padded.take (padded.length - (-e).toNat) ++
      '.' :: (padded.drop (padded.length - (-e).toNat) ++ [])) _ (0 - _) :=
    .pointed nonempty (fun char member => all char (List.mem_of_mem_take member))
      (fun char member => all char (List.mem_of_mem_drop member)) (fun _ none => nomatch none) rfl
  have places : (0 : ℤ) - (padded.length - (padded.length - (-e).toNat) : ℕ) = e := by omega
  rw [List.append_nil, List.take_append_drop, worth, List.length_drop, places] at numeral
  exact numeral

theorem positional_numeral (c : ℕ) (e : ℤ) :
    ∃ c' e', Numeral (positional (Nat.toDigits 10 c) e) c' e' ∧
      (c' : ℚ) * 10 ^ e' = c * 10 ^ e := by
  rcases Classical.em (0 ≤ e) with upward | downward
  · refine ⟨_, _, whole_numeral c upward, ?_⟩
    obtain ⟨n, rfl⟩ := Int.eq_ofNat_of_zero_le upward
    rw [Int.toNat_natCast, zpow_natCast, zpow_neg_one, pow_succ]
    push_cast
    ring
  · exact ⟨c, e, fraction_numeral c downward, rfl⟩

theorem exponential_numeral (layout : Layout) (c : ℕ) (leading : ℤ) :
    Numeral (exponential layout (Nat.toDigits 10 c) leading) c
      (leading + 1 - (Nat.toDigits 10 c).length) := by
  have worth := digitsValue_toDigits c
  have all : ∀ char ∈ Nat.toDigits 10 c, char.isDigit = true := fun _ => isDigit_of_mem
  have shift : readTail? ('e' :: ((if leading < 0 then ['-'] else if layout.plusSign then ['+']
      else []) ++ Nat.toDigits 10 leading.natAbs)) = some leading :=
    readExponent_toDigits leading layout.plusSign
  obtain ⟨first, more, split, digit⟩ := exists_digit c
  have one : ∀ char ∈ [first], char.isDigit = true := by
    rintro char (_ | ⟨_, ⟨⟩⟩)
    exact digit
  rw [split] at worth all ⊢
  cases more with
  | nil =>
      have numeral : Numeral ([first] ++ 'e' :: _) (digitsValue ([first] ++ [])) (leading - 0) :=
        .mk (List.cons_ne_nil first []) one (by rintro char ⟨⟩; rfl) rfl shift
      rw [List.append_nil, worth] at numeral
      simp only [exponential, List.append_assoc, List.cons_append]
      rw [List.length_singleton, Nat.cast_one, add_sub_cancel_right]
      rw [sub_zero] at numeral
      exact numeral
  | cons second more =>
      have numeral : Numeral ([first] ++ '.' :: (second :: more ++ 'e' :: _)) _ (leading - _) :=
        .pointed (List.cons_ne_nil first []) one
          (fun char member => all char (List.mem_cons_of_mem first member))
          (by rintro char ⟨⟩; rfl) shift
      have places : leading + 1 - (first :: second :: more).length =
          leading - (second :: more).length := by
        rw [List.length_cons]
        omega
      rw [List.singleton_append, List.singleton_append, worth] at numeral
      simp only [exponential, List.append_assoc, List.cons_append]
      rw [places]
      exact numeral

theorem magnitude_numeral (layout : Layout) (fits : Fits m q) :
    ∃ c e, Numeral (layout.magnitude m q) c e ∧ (Rounding.of m q).Holds (c * 10 ^ e) := by
  have holds := shortest_holds layout.tie fits
  rw [Layout.magnitude, if_neg fits.positive.ne']
  dsimp only
  rw [Scientific.value] at holds
  generalize shortest layout.tie m q = decimal at holds
  split
  · obtain ⟨c, e, numeral, same⟩ := positional_numeral decimal.coefficient decimal.exponent
    exact ⟨c, e, numeral, same ▸ holds⟩
  · have numeral := exponential_numeral layout decimal.coefficient
      (decimal.exponent + (Nat.toDigits 10 decimal.coefficient).length - 1)
    rw [sub_add_cancel, add_sub_cancel_right] at numeral
    exact ⟨_, _, numeral, holds⟩

/-! ### All numbers -/

theorem readFloat_minus {text : List Char} {bits : ℕ} (read : readUnsigned text = some bits) :
    readFloat ('-' :: text) = .ok (withSign true bits) := by
  rw [readFloat, read]
  rfl

theorem readFloat_unsigned {first : Char} {more : List Char} {bits : ℕ}
    (digit : first.isDigit = true) (read : readUnsigned (first :: more) = some bits) :
    readFloat (first :: more) = .ok (withSign false bits) := by
  rw [readFloat]
  · rw [read]
    rfl
  · exact fun _ same => ne_of_isDigit digit rfl (List.cons.inj same).1
  · exact fun _ same => ne_of_isDigit digit rfl (List.cons.inj same).1

/-- The magnitude starts with a digit, so that no sign is read where none was written. -/
theorem exists_first_magnitude (layout : Layout) (finite : m = 0 ∧ q = leastExponent ∨ Fits m q) :
    ∃ first more, layout.magnitude m q = first :: more ∧ first.isDigit = true ∧
      readUnsigned (first :: more) = some (magnitudeBits m q) := by
  rcases finite with ⟨rfl, rfl⟩ | fits
  · exact ⟨'0', ['.', '0'], rfl, rfl, by decide⟩
  · obtain ⟨c, e, numeral, holds⟩ := magnitude_numeral layout fits
    obtain ⟨first, more, split, digit⟩ := numeral.exists_first
    refine ⟨first, more, split, digit, ?_⟩
    rw [← split, numeral.readUnsigned, scientificBits_of_holds fits holds]

theorem readFloat_render {bits : UInt64} (infinity : layout.infinity = "inf")
    (negativeInfinity : layout.negativeInfinity = "-inf")
    (number : Binary64.ofBits bits ≠ .nan) : readFloat (layout.render bits).toList = .ok bits := by
  rw [Layout.render]
  cases value : Binary64.ofBits bits with
  | nan => exact absurd value number
  | infinity negative =>
      rw [← ofBits_infinity value]
      cases negative with
      | false => simp only; rw [infinity]; decide
      | true => simp only; rw [negativeInfinity]; decide
  | finite negative m q =>
      obtain ⟨same, finite⟩ := ofBits_finite value
      obtain ⟨first, more, split, digit, read⟩ := exists_first_magnitude layout finite
      simp only
      rw [String.toList_ofList, split, ← same]
      cases negative with
      | false => exact readFloat_unsigned digit read
      | true => exact readFloat_minus read

/-! ### The characters of a number -/

theorem positional_solid (c : ℕ) (e : ℤ) :
    ∀ char ∈ positional (Nat.toDigits 10 c) e, Text.isBlank char = false := by
  intro char member
  rw [positional] at member
  split at member
  · simp only [List.mem_append, List.mem_replicate, List.mem_cons, List.not_mem_nil, or_false]
      at member
    rcases member with (digit | ⟨-, rfl⟩) | rfl | rfl
    · exact Text.isBlank_of_isDigit (isDigit_of_mem digit)
    · rfl
    · rfl
    · rfl
  · rcases List.mem_append.mp member with whole | point
    · exact Text.isBlank_of_isDigit (isDigit_of_mem_padded (List.mem_of_mem_take whole))
    · rcases List.mem_cons.mp point with rfl | fraction
      · rfl
      · exact Text.isBlank_of_isDigit (isDigit_of_mem_padded (List.mem_of_mem_drop fraction))

theorem exponential_solid (layout : Layout) (c : ℕ) (leading : ℤ) :
    ∀ char ∈ exponential layout (Nat.toDigits 10 c) leading, Text.isBlank char = false := by
  have digits (n : ℕ) : ∀ char ∈ Nat.toDigits 10 n, Text.isBlank char = false :=
    fun _ member => Text.isBlank_of_isDigit (isDigit_of_mem member)
  have sign : ∀ char ∈ if leading < 0 then ['-'] else if layout.plusSign then ['+'] else [],
      Text.isBlank char = false := by
    split
    · exact Text.isBlank_of_all rfl
    · split <;> exact Text.isBlank_of_all rfl
  have behind : ∀ char ∈ 'e' :: ((if leading < 0 then ['-'] else if layout.plusSign then ['+']
      else []) ++ Nat.toDigits 10 leading.natAbs), Text.isBlank char = false :=
    List.forall_mem_cons.mpr ⟨rfl, List.forall_mem_append.mpr ⟨sign, digits _⟩⟩
  have front := digits c
  obtain ⟨first, more, split, -⟩ := exists_digit c
  rw [split] at front ⊢
  cases more with
  | nil =>
      simp only [exponential, List.append_assoc, List.cons_append]
      exact List.forall_mem_append.mpr ⟨front, behind⟩
  | cons second more =>
      have pointed : ∀ char ∈ first :: '.' :: second :: more, Text.isBlank char = false :=
        List.forall_mem_cons.mpr ⟨front first List.mem_cons_self, List.forall_mem_cons.mpr
          ⟨rfl, (List.forall_mem_cons.mp front).2⟩⟩
      simp only [exponential, List.append_assoc, List.cons_append]
      exact List.forall_mem_append.mpr ⟨pointed, behind⟩

theorem magnitude_solid (layout : Layout) (m : ℕ) (q : ℤ) :
    ∀ char ∈ layout.magnitude m q, Text.isBlank char = false := by
  rw [Layout.magnitude]
  split
  · exact Text.isBlank_of_all rfl
  · dsimp only
    split
    · exact positional_solid _ _
    · exact exponential_solid _ _ _

theorem render_solid (nan : ∀ char ∈ layout.nan.toList, Text.isBlank char = false)
    (infinity : ∀ char ∈ layout.infinity.toList, Text.isBlank char = false)
    (negativeInfinity : ∀ char ∈ layout.negativeInfinity.toList, Text.isBlank char = false)
    (bits : UInt64) : ∀ char ∈ (layout.render bits).toList, Text.isBlank char = false := by
  rw [Layout.render]
  cases Binary64.ofBits bits with
  | nan => exact nan
  | infinity negative =>
      cases negative with
      | false => exact infinity
      | true => exact negativeInfinity
  | finite negative m q =>
      simp only
      rw [String.toList_ofList]
      cases negative with
      | false => exact magnitude_solid layout m q
      | true => exact List.forall_mem_cons.mpr ⟨rfl, magnitude_solid layout m q⟩

end StackScript.Decimal
