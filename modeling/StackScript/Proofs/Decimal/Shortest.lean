import StackScript.Proofs.Decimal.Rounding

namespace StackScript.Decimal

/-! The shortest decimal of a number lies in the interval of the number. -/

variable {r : Rounding} {tie : Tie} {m c : ℕ} {q e : ℤ}

/-! ### Points of a decimal grid -/

def Scientific.value (s : Scientific) : ℚ :=
  s.coefficient * 10 ^ s.exponent

/-- The whole number `n / den` against a point of the grid, cleared of all fractions. -/
theorem end_le_iff {den : ℕ} (nonzero : 0 < den) (n c : ℕ) (e : ℤ) :
    (n * 10 ^ (-e).toNat ≤ c * 10 ^ e.toNat * den ↔ (n : ℚ) / den ≤ c * 10 ^ e) ∧
      (c * 10 ^ e.toNat * den ≤ n * 10 ^ (-e).toNat ↔ c * 10 ^ e ≤ (n : ℚ) / den) := by
  have den_pos : (0 : ℚ) < den := by positivity
  have unit : (0 : ℚ) < (10 ^ (-e).toNat : ℕ) := by positivity
  have power := zpow_eq_div (by decide : 0 < 10) e
  rw [Nat.cast_ofNat] at power
  rw [power, mul_div_assoc', div_le_div_iff₀ den_pos unit, div_le_div_iff₀ unit den_pos]
  exact ⟨by exact_mod_cast Iff.rfl, by exact_mod_cast Iff.rfl⟩

theorem Rounding.contains_iff (nonzero : 0 < r.den) (c : ℕ) (e : ℤ) :
    r.contains c e = true ↔ r.Holds (c * 10 ^ e) := by
  have low := end_le_iff nonzero r.low c e
  have high := end_le_iff nonzero r.high c e
  rw [Rounding.contains, Rounding.Holds]
  simp only [Nat.pow_eq]
  split
  · rw [Bool.and_eq_true, decide_eq_true_eq, decide_eq_true_eq, low.1, high.2]
  · rw [Bool.and_eq_true, decide_eq_true_eq, decide_eq_true_eq, ← not_le, ← not_le, low.2, high.1,
      not_le, not_le]

theorem Rounding.neighbour?_holds (nonzero : 0 < r.den) (found : r.neighbour? tie e = some c) :
    r.Holds (c * 10 ^ e) := by
  rw [← contains_iff nonzero]
  rw [neighbour?] at found
  split at found
  · split at found <;> (cases found; assumption)
  · cases found; assumption
  · cases found; assumption
  · cases found

theorem Rounding.not_holds {x : ℚ} (outside : ¬ r.Holds x) :
    x ≤ (r.low : ℚ) / r.den ∨ (r.high : ℚ) / r.den ≤ x := by
  by_contra! between
  refine outside ?_
  rw [Holds]
  split
  · exact ⟨between.1.le, between.2.le⟩
  · exact between

/-- The number lies between the two neighbours of a grid. -/
theorem floor_le_lt {den : ℕ} (nonzero : 0 < den) (n : ℕ) (e : ℤ) :
    ((n * 10 ^ (-e).toNat / (den * 10 ^ e.toNat) : ℕ) : ℚ) * 10 ^ e ≤ n / den ∧
      (n : ℚ) / den < ((n * 10 ^ (-e).toNat / (den * 10 ^ e.toNat) + 1 : ℕ) : ℚ) * 10 ^ e := by
  have grid : 0 < den * 10 ^ e.toNat := by positivity
  rw [← (end_le_iff nonzero n _ e).2, ← not_le, ← (end_le_iff nonzero n _ e).2, not_le,
    mul_assoc, mul_assoc, mul_comm _ den]
  exact ⟨Nat.div_mul_le_self _ _, (Nat.div_lt_iff_lt_mul grid).mp (Nat.lt_succ_self _)⟩

/-- A grid that has no point in the interval is as wide as the interval. -/
theorem Rounding.le_of_neighbour?_none (nonzero : 0 < r.den)
    (inside : (r.low : ℚ) / r.den < r.value / r.den ∧ (r.value : ℚ) / r.den < r.high / r.den)
    (none : r.neighbour? tie e = none) :
    (r.high : ℚ) / r.den - r.low / r.den ≤ 10 ^ e := by
  obtain ⟨down, up⟩ := floor_le_lt nonzero r.value e
  rw [neighbour?] at none
  simp only [Nat.pow_eq] at none
  generalize r.value * 10 ^ (-e).toNat / (r.den * 10 ^ e.toNat) = floor at none down up
  split at none
  · cases none
  · cases none
  · cases none
  · rename_i under above
    rw [← Bool.not_eq_true, contains_iff nonzero] at under above
    rcases not_holds under with under | beyond
    · rcases not_holds above with before | above
      · linarith
      · rw [Nat.cast_add, Nat.cast_one, add_mul, one_mul] at above
        linarith
    · linarith

/-! ### The search -/

/-- The search ends in the interval if the last grid is narrower than the interval. -/
theorem Rounding.search_holds (nonzero : 0 < r.den)
    (inside : (r.low : ℚ) / r.den < r.value / r.den ∧ (r.value : ℚ) / r.den < r.high / r.den)
    (more : ℕ) (narrow : (10 : ℚ) ^ (e - more) < r.high / r.den - r.low / r.den) :
    r.Holds (r.search tie (more + 1) e).value := by
  induction more generalizing e with
  | zero =>
      cases found : r.neighbour? tie e with
      | some c =>
          rw [search, found]
          exact neighbour?_holds nonzero found
      | none =>
          have wide := le_of_neighbour?_none nonzero inside found
          rw [Nat.cast_zero, sub_zero] at narrow
          linarith
  | succ more induction =>
      rw [search]
      cases found : r.neighbour? tie e with
      | some c => exact neighbour?_holds nonzero found
      | none =>
          refine induction ?_
          rw [sub_sub, add_comm 1 (more : ℤ)]
          exact_mod_cast narrow

theorem Scientific.value_normalize (fuel : ℕ) (s : Scientific) :
    (s.normalize fuel).value = s.value := by
  induction fuel generalizing s with
  | zero => rfl
  | succ fuel induction =>
      rw [normalize]
      split
      · rename_i trailing
        rw [Bool.and_eq_true, decide_eq_true_eq, decide_eq_true_eq] at trailing
        obtain ⟨tens, same⟩ := Nat.dvd_of_mod_eq_zero trailing.2
        rw [induction, value, value, same, Nat.mul_div_cancel_left _ (by decide),
          zpow_add_one₀ (by norm_num), Nat.cast_mul, Nat.cast_ofNat]
        ring
      · rfl

theorem zpow_floorLog10From_le {num den : ℕ} (nonzero : 0 < den) (fuel : ℕ) (e : ℤ)
    (last : (10 : ℚ) ^ (e - fuel) ≤ num / den) :
    (10 : ℚ) ^ floorLog10From num den fuel e ≤ num / den := by
  induction fuel generalizing e with
  | zero =>
      rw [Nat.cast_zero, sub_zero] at last
      exact last
  | succ fuel induction =>
      have reached := reached_iff num (by decide : 0 < 10) nonzero e
      rw [Nat.cast_ofNat] at reached
      rw [floorLog10From]
      simp only [Nat.pow_eq, reached]
      split
      · assumption
      · refine induction _ ?_
        rw [sub_sub, add_comm 1 (fuel : ℤ)]
        exact_mod_cast last

/-! ### Seventeen digits -/

/-- The estimate of the decimal logarithm is at most three less one too high. -/
theorem zpow_estimate_le {k : ℤ} (least : -1074 ≤ k) (greatest : k ≤ 1023) :
    (10 : ℚ) ^ ((k + 1) * 30103 / 100000 + 1 - 4) ≤ 2 ^ k := by
  rcases Int.le_total 0 k with upward | downward
  · exact ten_zpow_le_two_zpow upward (by omega)
  · have powers := ten_zpow_neg_le_two_zpow_neg
      (a := -((k + 1) * 30103 / 100000 + 1 - 4)) (n := -k) (by omega) (by omega)
    rw [neg_neg, neg_neg] at powers
    exact powers

theorem zpow_floorLog10_le {num den : ℕ} (positive : 0 < num) (nonzero : 0 < den)
    (least : -1074 ≤ Int.log 2 ((num : ℚ) / den)) (greatest : Int.log 2 ((num : ℚ) / den) ≤ 1023) :
    (10 : ℚ) ^ floorLog10 num den ≤ num / den := by
  have fraction : (0 : ℚ) < num / den := by positivity
  rw [floorLog10, floorLog2_eq positive nonzero]
  refine zpow_floorLog10From_le nonzero 4 _ ((zpow_estimate_le least greatest).trans ?_)
  exact_mod_cast Int.zpow_log_le_self Nat.one_lt_two fraction

theorem Fits.log_value (fits : Fits m q) :
    -1074 ≤ Int.log 2 ((m : ℚ) * 2 ^ q) ∧ Int.log 2 ((m : ℚ) * 2 ^ q) ≤ 1023 := by
  have positive : (0 : ℚ) < m := by exact_mod_cast fits.positive
  have value : (0 : ℚ) < m * 2 ^ q := by positivity
  have least := fits.least
  have greatest := fits.greatest
  have low : q ≤ Int.log 2 ((m : ℚ) * 2 ^ q) := by
    rw [← Int.zpow_le_iff_le_log Nat.one_lt_two value, Nat.cast_two]
    exact le_mul_of_one_le_left (by positivity) (by exact_mod_cast fits.positive)
  have high : Int.log 2 ((m : ℚ) * 2 ^ q) < 53 + q := by
    rw [← Int.lt_zpow_iff_log_lt Nat.one_lt_two value, Nat.cast_two, zpow_add₀ two_ne_zero]
    have := fits.below
    gcongr
    exact_mod_cast this
  rw [leastExponent] at least
  omega

theorem Rounding.of_inside (positive : 0 < m) (q : ℤ) :
    ((Rounding.of m q).low : ℚ) / (Rounding.of m q).den <
        (Rounding.of m q).value / (Rounding.of m q).den ∧
      ((Rounding.of m q).value : ℚ) / (Rounding.of m q).den <
        (Rounding.of m q).high / (Rounding.of m q).den := by
  have reach := reachBelow_pos m q
  rw [of_low positive, of_value, of_high]
  constructor <;> gcongr <;> linarith

/-- A mantissa has sixteen digits, and the interval is wider than a unit in the seventeenth. -/
theorem Fits.mantissa_lt (fits : Fits m q) : (m : ℚ) < (1 / 2 + reachBelow m q) * 10 ^ 16 := by
  have below := fits.cast_add_one_le
  rw [reachBelow]
  split
  · rename_i power
    rw [power.1, cast_hiddenBit]
    norm_num
  · linarith

theorem shortest_holds (tie : Tie) (fits : Fits m q) :
    (Rounding.of m q).Holds (shortest tie m q).value := by
  have nonzero := Rounding.of_den_pos m q
  have value := Rounding.of_value m q
  have positive : 0 < (Rounding.of m q).value := by
    have := fits.positive
    rw [Rounding.of, Nat.one_shiftLeft]
    positivity
  obtain ⟨least, greatest⟩ := fits.log_value
  rw [← value] at least greatest
  have leading := zpow_floorLog10_le positive nonzero least greatest
  rw [shortest, Scientific.value_normalize]
  refine Rounding.search_holds nonzero (Rounding.of_inside fits.positive q) 16 ?_
  rw [Rounding.of_low fits.positive, Rounding.of_high]
  rw [value] at leading
  have unit : (0 : ℚ) < 2 ^ q := by positivity
  calc (10 : ℚ) ^ (floorLog10 (Rounding.of m q).value (Rounding.of m q).den - (16 : ℕ))
      = 10 ^ floorLog10 (Rounding.of m q).value (Rounding.of m q).den / 10 ^ 16 := by
        rw [zpow_sub₀ (by norm_num), zpow_natCast]
    _ ≤ m * 2 ^ q / 10 ^ 16 := by gcongr
    _ < (1 / 2 + reachBelow m q) * 2 ^ q := by
        rw [div_lt_iff₀ (by positivity), mul_right_comm]
        gcongr
        exact fits.mantissa_lt
    _ = (m + 1 / 2) * 2 ^ q - (m - reachBelow m q) * 2 ^ q := by ring

end StackScript.Decimal
