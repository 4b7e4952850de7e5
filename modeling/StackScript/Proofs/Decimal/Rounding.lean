import Mathlib.Algebra.Order.Field.Power
import Mathlib.Algebra.Order.Floor.Semifield
import Mathlib.Data.Int.Log
import Mathlib.Data.Rat.Floor
import Mathlib.Tactic.FieldSimp
import Mathlib.Tactic.Linarith
import Mathlib.Tactic.NormNum
import Mathlib.Tactic.Positivity
import Mathlib.Tactic.Ring
import StackScript.Decimal.Shortest
import StackScript.Proofs.Decimal.Binary64

namespace StackScript.Decimal

/-! Rounding to binary64. The exact arithmetic on whole numbers is read as arithmetic on fractions,
and a fraction in the interval around a number gets the bits of this number. -/

/-! ### Powers as fractions -/

theorem zpow_eq_div {base : ℕ} (positive : 0 < base) (e : ℤ) :
    (base : ℚ) ^ e = (base ^ e.toNat : ℕ) / (base ^ (-e).toNat : ℕ) := by
  have nonzero : (base : ℚ) ≠ 0 := by positivity
  rw [Nat.cast_pow, Nat.cast_pow, ← zpow_natCast_sub_natCast₀ nonzero]
  congr 1
  omega

theorem zpow_of_nonneg {base : ℕ} (positive : 0 < base) {e : ℤ} (upward : 0 ≤ e) :
    (base : ℚ) ^ e = (base ^ e.toNat : ℕ) := by
  rw [zpow_eq_div positive, Int.toNat_of_nonpos (by omega : -e ≤ 0), pow_zero, Nat.cast_one,
    div_one]

theorem zpow_of_neg {base : ℕ} (positive : 0 < base) {e : ℤ} (downward : ¬ 0 ≤ e) :
    (base : ℚ) ^ e = 1 / (base ^ (-e).toNat : ℕ) := by
  rw [zpow_eq_div positive, Int.toNat_of_nonpos (by omega : e ≤ 0), pow_zero, Nat.cast_one]

/-- A power is compared with a fraction by putting its factors on the side where they are whole. -/
theorem scaled_le_iff {base num den : ℕ} (positive : 0 < base) (nonzero : 0 < den) (e : ℤ) :
    den * base ^ e.toNat ≤ num * base ^ (-e).toNat ↔ (base : ℚ) ^ e ≤ num / den := by
  have below : (0 : ℚ) < (base ^ (-e).toNat : ℕ) := by positivity
  have den_pos : (0 : ℚ) < den := by positivity
  rw [zpow_eq_div positive, div_le_div_iff₀ below den_pos, mul_comm _ (den : ℚ)]
  exact_mod_cast Iff.rfl

theorem reached_iff {base den : ℕ} (num : ℕ) (positive : 0 < base) (nonzero : 0 < den) (e : ℤ) :
    (if 0 ≤ e then den * base ^ e.toNat ≤ num else den ≤ num * base ^ (-e).toNat) ↔
      (base : ℚ) ^ e ≤ num / den := by
  rw [← scaled_le_iff positive nonzero]
  split
  · rename_i upward
    rw [Int.toNat_of_nonpos (by omega : -e ≤ 0), Nat.pow_zero, Nat.mul_one]
  · rename_i downward
    rw [Int.toNat_of_nonpos (by omega : e ≤ 0), Nat.pow_zero, Nat.mul_one]

theorem ten_zpow_le_two_zpow {a n : ℤ} (upward : 0 ≤ n) (ratio : 1000 * a ≤ 301 * n) :
    (10 : ℚ) ^ a ≤ 2 ^ n := by
  have powers : (10 : ℚ) ^ 301 ≤ 2 ^ 1000 := by
    exact_mod_cast (by decide +kernel : (10 : ℕ) ^ 301 ≤ 2 ^ 1000)
  rw [← pow_le_pow_iff_left₀ (by positivity) (by positivity) (by decide : 1000 ≠ 0),
    ← zpow_natCast, ← zpow_natCast, ← zpow_mul, ← zpow_mul]
  calc (10 : ℚ) ^ (a * (1000 : ℕ)) ≤ 10 ^ ((301 : ℕ) * n) :=
        zpow_le_zpow_right₀ (by norm_num) (by omega)
    _ = (10 ^ 301) ^ n := by rw [zpow_mul, zpow_natCast]
    _ ≤ (2 ^ 1000) ^ n := zpow_le_zpow_left₀ upward (by positivity) powers
    _ = 2 ^ (n * (1000 : ℕ)) := by rw [mul_comm, zpow_mul, zpow_natCast]

theorem two_zpow_le_ten_zpow {a n : ℤ} (upward : 0 ≤ n) (ratio : 302 * n ≤ 1000 * a) :
    (2 : ℚ) ^ n ≤ 10 ^ a := by
  have powers : (2 : ℚ) ^ 1000 ≤ 10 ^ 302 := by
    exact_mod_cast (by decide +kernel : (2 : ℕ) ^ 1000 ≤ 10 ^ 302)
  rw [← pow_le_pow_iff_left₀ (by positivity) (by positivity) (by decide : 1000 ≠ 0),
    ← zpow_natCast, ← zpow_natCast, ← zpow_mul, ← zpow_mul]
  calc (2 : ℚ) ^ (n * (1000 : ℕ)) = (2 ^ 1000) ^ n := by rw [mul_comm, zpow_mul, zpow_natCast]
    _ ≤ (10 ^ 302) ^ n := zpow_le_zpow_left₀ upward (by positivity) powers
    _ = 10 ^ ((302 : ℕ) * n) := by rw [zpow_mul, zpow_natCast]
    _ ≤ 10 ^ (a * (1000 : ℕ)) := zpow_le_zpow_right₀ (by norm_num) (by omega)

theorem ten_zpow_neg_le_two_zpow_neg {a n : ℤ} (upward : 0 ≤ n) (ratio : 302 * n ≤ 1000 * a) :
    (10 : ℚ) ^ (-a) ≤ 2 ^ (-n) := by
  have := two_zpow_le_ten_zpow upward ratio
  rw [zpow_neg, zpow_neg]
  gcongr

theorem two_zpow_log2_le {n : ℕ} (positive : 0 < n) : (2 : ℚ) ^ (n.log2 : ℤ) ≤ n := by
  exact_mod_cast Nat.log2_self_le positive.ne'

theorem lt_two_zpow_log2 (n : ℕ) : (n : ℚ) < 2 ^ (n.log2 + 1 : ℤ) := by
  exact_mod_cast (Nat.lt_log2_self : n < 2 ^ (n.log2 + 1))

theorem floorLog2_eq {num den : ℕ} (positive : 0 < num) (nonzero : 0 < den) :
    floorLog2 num den = Int.log 2 ((num : ℚ) / den) := by
  have den_pos : (0 : ℚ) < den := by positivity
  have fraction : (0 : ℚ) < num / den := by positivity
  have reached : (if (0 : ℤ) ≤ num.log2 - den.log2 then
        den <<< ((num.log2 : ℤ) - den.log2).toNat ≤ num
      else den ≤ num <<< (-((num.log2 : ℤ) - den.log2)).toNat) ↔
      (num.log2 : ℤ) - den.log2 ≤ Int.log 2 ((num : ℚ) / den) := by
    rw [← Int.zpow_le_iff_le_log Nat.one_lt_two fraction, ← reached_iff _ Nat.two_pos nonzero,
      Nat.shiftLeft_eq, Nat.shiftLeft_eq]
  have least : (num.log2 : ℤ) - den.log2 - 1 ≤ Int.log 2 ((num : ℚ) / den) := by
    rw [← Int.zpow_le_iff_le_log Nat.one_lt_two fraction, le_div_iff₀ den_pos, Nat.cast_two]
    calc (2 : ℚ) ^ ((num.log2 : ℤ) - den.log2 - 1) * den
        ≤ 2 ^ ((num.log2 : ℤ) - den.log2 - 1) * 2 ^ (den.log2 + 1 : ℤ) := by
          have := (lt_two_zpow_log2 den).le
          gcongr
      _ = 2 ^ (num.log2 : ℤ) := by rw [← zpow_add₀ two_ne_zero]; congr 1; ring
      _ ≤ num := two_zpow_log2_le positive
  have greatest : Int.log 2 ((num : ℚ) / den) < (num.log2 : ℤ) - den.log2 + 1 := by
    rw [← Int.lt_zpow_iff_log_lt Nat.one_lt_two fraction, div_lt_iff₀ den_pos, Nat.cast_two]
    calc (num : ℚ) < 2 ^ (num.log2 + 1 : ℤ) := lt_two_zpow_log2 num
      _ = 2 ^ ((num.log2 : ℤ) - den.log2 + 1) * 2 ^ (den.log2 : ℤ) := by
          rw [← zpow_add₀ two_ne_zero]; congr 1; ring
      _ ≤ 2 ^ ((num.log2 : ℤ) - den.log2 + 1) * den := by
          have := two_zpow_log2_le nonzero
          gcongr
  rw [floorLog2]
  simp only [reached]
  split <;> omega

/-! ### Rounding to whole numbers -/

/-- The nearest whole number is the one that is at most a half away; an odd one has to be nearer. -/
theorem roundHalfEven_eq {num den m : ℕ} (nonzero : 0 < den)
    (above : (m : ℚ) - 1 / 2 ≤ num / den) (below : (num : ℚ) / den ≤ m + 1 / 2)
    (odd : m % 2 = 1 → (m : ℚ) - 1 / 2 < num / den ∧ (num : ℚ) / den < m + 1 / 2) :
    roundHalfEven num den = m := by
  have den_pos : (0 : ℚ) < den := by positivity
  rw [le_div_iff₀ den_pos] at above
  rw [div_le_iff₀ den_pos] at below
  rw [lt_div_iff₀ den_pos, div_lt_iff₀ den_pos] at odd
  have above' : 2 * (m * den) ≤ 2 * num + den := by
    have : (2 : ℚ) * (m * den) ≤ 2 * num + den := by linarith
    exact_mod_cast this
  have below' : 2 * num ≤ 2 * (m * den) + den := by
    have : (2 : ℚ) * num ≤ 2 * (m * den) + den := by linarith
    exact_mod_cast this
  have odd' : m % 2 = 1 → 2 * (m * den) < 2 * num + den ∧ 2 * num < 2 * (m * den) + den := by
    intro isOdd
    have : (2 : ℚ) * (m * den) < 2 * num + den ∧ (2 : ℚ) * num < 2 * (m * den) + den :=
      ⟨by linarith [(odd isOdd).1], by linarith [(odd isOdd).2]⟩
    exact_mod_cast this
  have parts := Nat.div_add_mod' num den
  have small := Nat.mod_lt num nonzero
  rw [roundHalfEven]
  generalize num / den = floor at parts
  generalize num % den = rest at parts small
  -- The floor is the result or the number before it.
  have low : floor ≤ m := by
    by_contra beyond
    have : (m + 1) * den ≤ floor * den := Nat.mul_le_mul_right den (by omega)
    rw [Nat.add_mul] at this
    omega
  have high : m ≤ floor + 1 := by
    by_contra beyond
    have : (floor + 2) * den ≤ m * den := Nat.mul_le_mul_right den (by omega)
    rw [Nat.add_mul] at this
    omega
  obtain rfl | rfl : floor = m ∨ m = floor + 1 := by omega
  · split
    · rfl
    · split <;> omega
  · rw [Nat.add_mul] at above' below' odd'
    split
    · omega
    · split <;> omega

/-! ### The interval of a number -/

/-- The numbers that read back as the number between the two ends. -/
def Rounding.Holds (r : Rounding) (x : ℚ) : Prop :=
  if r.closed then (r.low : ℚ) / r.den ≤ x ∧ x ≤ (r.high : ℚ) / r.den
  else (r.low : ℚ) / r.den < x ∧ x < (r.high : ℚ) / r.den

theorem Rounding.Holds.between {r : Rounding} {x : ℚ} (holds : r.Holds x) :
    (r.low : ℚ) / r.den ≤ x ∧ x ≤ (r.high : ℚ) / r.den := by
  rw [Rounding.Holds] at holds
  split at holds
  · exact holds
  · exact ⟨holds.1.le, holds.2.le⟩

/-- How far the interval reaches down, in units of `2 ^ exponent`. -/
def reachBelow (mantissa : ℕ) (exponent : ℤ) : ℚ :=
  if mantissa = hiddenBit ∧ leastExponent < exponent then 1 / 4 else 1 / 2

variable {m : ℕ} {q : ℤ} {x : ℚ}

theorem reachBelow_le (m : ℕ) (q : ℤ) : reachBelow m q ≤ 1 / 2 := by
  rw [reachBelow]
  split <;> norm_num

theorem reachBelow_pos (m : ℕ) (q : ℤ) : 0 < reachBelow m q := by
  rw [reachBelow]
  split <;> norm_num

theorem reachBelow_of_odd (odd : m % 2 = 1) (q : ℤ) : reachBelow m q = 1 / 2 := by
  refine if_neg fun power => ?_
  rw [power.1] at odd
  exact absurd odd (by decide)

theorem Rounding.of_den_pos (m : ℕ) (q : ℤ) : 0 < (Rounding.of m q).den := by
  have : 0 < 1 <<< (-(q - 2)).toNat := by
    rw [Nat.one_shiftLeft]
    exact Nat.two_pow_pos _
  exact this

theorem Rounding.of_scale (q : ℤ) :
    ((1 <<< (q - 2).toNat : ℕ) : ℚ) / (1 <<< (-(q - 2)).toNat : ℕ) = 2 ^ q / 4 := by
  rw [Nat.one_shiftLeft, Nat.one_shiftLeft, ← zpow_eq_div Nat.two_pos, Nat.cast_two,
    zpow_sub₀ two_ne_zero]
  norm_num

theorem Rounding.of_value (m : ℕ) (q : ℤ) :
    ((Rounding.of m q).value : ℚ) / (Rounding.of m q).den = m * 2 ^ q := by
  rw [Rounding.of, Nat.cast_mul, mul_div_assoc, of_scale, Nat.cast_mul, Nat.cast_ofNat]
  ring

theorem Rounding.of_high (m : ℕ) (q : ℤ) :
    ((Rounding.of m q).high : ℚ) / (Rounding.of m q).den = (m + 1 / 2) * 2 ^ q := by
  rw [Rounding.of, Nat.cast_mul, mul_div_assoc, of_scale, Nat.cast_add, Nat.cast_mul,
    Nat.cast_ofNat, Nat.cast_ofNat]
  ring

theorem Rounding.of_low (positive : 0 < m) (q : ℤ) :
    ((Rounding.of m q).low : ℚ) / (Rounding.of m q).den = (m - reachBelow m q) * 2 ^ q := by
  rw [Rounding.of, Nat.cast_mul, mul_div_assoc, of_scale, reachBelow]
  simp only [Bool.and_eq_true, decide_eq_true_eq]
  split
  · rw [Nat.cast_sub (by omega), Nat.cast_mul, Nat.cast_ofNat, Nat.cast_one]
    ring
  · rw [Nat.cast_sub (by omega), Nat.cast_mul, Nat.cast_ofNat, Nat.cast_ofNat]
    ring

theorem Rounding.of_holds (positive : 0 < m) (holds : (Rounding.of m q).Holds x) :
    (m : ℚ) - reachBelow m q ≤ x / 2 ^ q ∧ x / 2 ^ q ≤ m + 1 / 2 ∧
      (m % 2 = 1 → (m : ℚ) - 1 / 2 < x / 2 ^ q ∧ x / 2 ^ q < m + 1 / 2) := by
  have unit : (0 : ℚ) < 2 ^ q := by positivity
  rw [Rounding.Holds, of_low positive, of_high, Rounding.of] at holds
  rw [le_div_iff₀ unit, div_le_iff₀ unit, lt_div_iff₀ unit, div_lt_iff₀ unit]
  simp only [decide_eq_true_eq] at holds
  split at holds
  · rename_i even
    exact ⟨holds.1, holds.2, fun odd => absurd even (by omega)⟩
  · rename_i odd
    rw [reachBelow_of_odd (by omega)] at holds ⊢
    exact ⟨holds.1.le, holds.2.le, fun _ => holds⟩

/-! ### Rounding a fraction -/

/-- The exponent field of a result, before the mantissa carries into it. -/
def roundingExponent (x : ℚ) : ℤ :=
  max (Int.log 2 x - 52) leastExponent

theorem nearestBits_eq {num den : ℕ} (positive : 0 < num) (nonzero : 0 < den) :
    ∃ top bottom : ℕ, 0 < bottom ∧
      (top : ℚ) / bottom = (num : ℚ) / den / 2 ^ roundingExponent (num / den) ∧
      nearestBits num den = min (magnitudeBits (roundHalfEven top bottom)
        (roundingExponent (num / den))) infinityBits := by
  rw [nearestBits, floorLog2_eq positive nonzero, ← roundingExponent]
  generalize roundingExponent ((num : ℚ) / den) = e
  split
  · rename_i upward
    refine ⟨num, den <<< e.toNat, ?_, ?_, rfl⟩
    · rw [Nat.shiftLeft_eq]; positivity
    · rw [← Nat.cast_two, zpow_of_nonneg Nat.two_pos upward, Nat.shiftLeft_eq, Nat.cast_mul,
        div_div]
  · rename_i downward
    refine ⟨num <<< (-e).toNat, den, nonzero, ?_, rfl⟩
    rw [← Nat.cast_two, zpow_of_neg Nat.two_pos downward, Nat.shiftLeft_eq, Nat.cast_mul, one_div,
      div_inv_eq_mul, mul_div_right_comm]

/-- A number that rounds to a power of two from below has the exponent of the binade below. -/
theorem roundingExponent_eq (fits : Fits m q)
    (above : (m : ℚ) - reachBelow m q ≤ x / 2 ^ q) (below : x / 2 ^ q ≤ m + 1 / 2) :
    roundingExponent x = q ∨
      m = hiddenBit ∧ leastExponent < q ∧ roundingExponent x = q - 1 ∧ x / 2 ^ q < m := by
  have unit : (0 : ℚ) < 2 ^ q := by positivity
  have reach := reachBelow_le m q
  have mantissa := fits.one_le_cast
  have positive : 0 < x := (div_pos_iff_of_pos_right unit).mp (by linarith)
  have least := fits.least
  have log_ge (n : ℕ) : q + n ≤ Int.log 2 x ↔ (2 : ℚ) ^ n ≤ x / 2 ^ q := by
    rw [← Int.zpow_le_iff_le_log Nat.one_lt_two positive, Nat.cast_two, zpow_add₀ two_ne_zero,
      zpow_natCast, le_div_iff₀ unit, mul_comm]
  have size := fits.cast_add_one_le
  have bottom : ¬ q + (53 : ℕ) ≤ Int.log 2 x := by
    rw [log_ge, not_le]
    linarith
  by_cases reached : q + (52 : ℕ) ≤ Int.log 2 x
  · left
    rw [roundingExponent]
    omega
  · have lower : x / 2 ^ q < 2 ^ 52 := not_le.mp (mt (log_ge 52).mpr reached)
    rcases least.eq_or_lt with same | high
    · left
      rw [roundingExponent]
      omega
    · have small : (m : ℚ) < hiddenBit + 1 := by linarith [cast_hiddenBit]
      have power : m = hiddenBit := by
        have normal := fits.normal
        have : m < hiddenBit + 1 := by exact_mod_cast small
        omega
      have half : q + (51 : ℕ) ≤ Int.log 2 x := by
        have same : (m : ℚ) = 2 ^ 52 := by rw [power, cast_hiddenBit]
        rw [log_ge]
        linarith
      refine .inr ⟨power, high, ?_, by rw [power, cast_hiddenBit]; exact lower⟩
      rw [roundingExponent]
      omega

theorem nearestBits_of_holds (fits : Fits m q) {num den : ℕ} (positive : 0 < num)
    (nonzero : 0 < den) (holds : (Rounding.of m q).Holds ((num : ℚ) / den)) :
    nearestBits num den = magnitudeBits m q := by
  obtain ⟨top, bottom, bottom_pos, same, bits⟩ := nearestBits_eq positive nonzero
  obtain ⟨above, below, odd⟩ := Rounding.of_holds fits.positive holds
  rw [bits]
  rcases roundingExponent_eq fits above below with exponent | ⟨power, high, exponent, lower⟩
  · rw [exponent] at same ⊢
    rw [← same] at above below odd
    have := reachBelow_le m q
    rw [roundHalfEven_eq bottom_pos (by linarith) below odd]
    exact Nat.min_eq_left fits.magnitudeBits_lt.le
  · -- The mantissa is counted in units of the binade below and rounds up to a carry.
    have double : (top : ℚ) / bottom = 2 * ((num : ℚ) / den / 2 ^ q) := by
      rw [same, exponent, zpow_sub_one₀ two_ne_zero]
      field_simp
    have reach : reachBelow m q = 1 / 4 := if_pos ⟨power, high⟩
    have rounded : roundHalfEven top bottom = 2 * m := by
      apply roundHalfEven_eq bottom_pos
      · rw [double]; push_cast; linarith
      · rw [double]; push_cast; linarith
      · intro isOdd; omega
    have carried : magnitudeBits (2 * m) (q - 1) = magnitudeBits m q := by
      have next : (q - leastExponent).toNat = (q - 1 - leastExponent).toNat + 1 := by omega
      rw [magnitudeBits, magnitudeBits, next, power]
      ring
    rw [rounded, exponent, carried]
    exact Nat.min_eq_left fits.magnitudeBits_lt.le

end StackScript.Decimal
