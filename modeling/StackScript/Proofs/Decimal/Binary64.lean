import Mathlib.Data.Rat.Cast.Defs
import Mathlib.Tactic.NormNum
import Mathlib.Tactic.Ring
import StackScript.Decimal.Binary64

namespace StackScript.Decimal

/-! Positive finite numbers as a mantissa and an exponent, and the bits of both. -/

variable {m : ℕ} {q : ℤ}

theorem cast_hiddenBit : (hiddenBit : ℚ) = 2 ^ 52 := by
  rw [hiddenBit, Nat.one_shiftLeft]
  norm_cast

/-- The mantissas and exponents of the positive finite numbers. -/
structure Fits (mantissa : ℕ) (exponent : ℤ) : Prop where
  positive : 0 < mantissa
  below : mantissa < 2 * hiddenBit
  least : leastExponent ≤ exponent
  greatest : exponent ≤ 971
  normal : hiddenBit ≤ mantissa ∨ exponent = leastExponent

/-- The bits of `mantissa * 2 ^ exponent`: the hidden bit counts the exponent field up by one. -/
def magnitudeBits (mantissa : ℕ) (exponent : ℤ) : ℕ :=
  (exponent - leastExponent).toNat * hiddenBit + mantissa

theorem Fits.one_le_cast (fits : Fits m q) : (1 : ℚ) ≤ m := by
  exact_mod_cast fits.positive

theorem Fits.cast_add_one_le (fits : Fits m q) : (m : ℚ) + 1 ≤ 2 ^ 53 := by
  have below : (m : ℚ) + 1 ≤ 2 * hiddenBit := by exact_mod_cast fits.below
  rw [cast_hiddenBit] at below
  exact below.trans_eq (by norm_num)

theorem Fits.magnitudeBits_lt (fits : Fits m q) : magnitudeBits m q < infinityBits := by
  have := fits.below
  have := fits.least
  have := fits.greatest
  simp only [magnitudeBits, infinityBits, hiddenBit, leastExponent, Nat.one_shiftLeft] at *
  omega

theorem magnitudeBits_normal {field : ℕ} (normal : field ≠ 0) (fraction : ℕ) :
    magnitudeBits (hiddenBit + fraction) (field - 1075) = field * hiddenBit + fraction := by
  have next : ((field : ℤ) - 1075 - leastExponent).toNat + 1 = field := by
    rw [leastExponent]
    omega
  calc magnitudeBits (hiddenBit + fraction) (field - 1075)
      = (((field : ℤ) - 1075 - leastExponent).toNat + 1) * hiddenBit + fraction := by
        rw [magnitudeBits]
        ring
    _ = field * hiddenBit + fraction := by rw [next]

/-! ### Bit patterns -/

/-- The sign, the exponent field and the fraction make up the bits. -/
theorem withSign_fields (bits : UInt64) :
    withSign (signBit ≤ bits.toNat)
      (bits.toNat / hiddenBit % 0x800 * hiddenBit + bits.toNat % hiddenBit) = bits := by
  have below := bits.toNat_lt
  have same : (if (decide (signBit ≤ bits.toNat)) = true then
      signBit + (bits.toNat / hiddenBit % 0x800 * hiddenBit + bits.toNat % hiddenBit)
      else bits.toNat / hiddenBit % 0x800 * hiddenBit + bits.toNat % hiddenBit) = bits.toNat := by
    simp only [signBit, hiddenBit, Nat.one_shiftLeft, decide_eq_true_eq]
    split <;> omega
  rw [withSign, same, UInt64.ofNat_toNat]

theorem ofBits_infinity {bits : UInt64} {negative : Bool}
    (infinite : Binary64.ofBits bits = .infinity negative) :
    withSign negative infinityBits = bits := by
  have fields := withSign_fields bits
  rw [Binary64.ofBits] at infinite
  split at infinite
  · rename_i field
    split at infinite
    · rename_i fraction
      cases infinite
      rw [field, fraction] at fields
      exact fields
    · cases infinite
  · split at infinite <;> cases infinite

theorem ofBits_finite {bits : UInt64} {negative : Bool}
    (finite : Binary64.ofBits bits = .finite negative m q) :
    withSign negative (magnitudeBits m q) = bits ∧
      (m = 0 ∧ q = leastExponent ∨ Fits m q) := by
  have fields := withSign_fields bits
  have fraction : bits.toNat % hiddenBit < hiddenBit := Nat.mod_lt _ (by decide)
  have most : bits.toNat / hiddenBit % 0x800 < 0x800 := Nat.mod_lt _ (by decide)
  have hidden : 0 < hiddenBit := by decide
  rw [Binary64.ofBits] at finite
  split at finite
  · split at finite <;> cases finite
  · rename_i notInfinite
    split at finite
    · rename_i subnormal
      cases finite
      rw [subnormal, Nat.zero_mul] at fields
      constructor
      · rw [magnitudeBits, Int.sub_self]
        exact fields
      · rcases Nat.eq_zero_or_pos (bits.toNat % hiddenBit) with zero | positive
        · exact .inl ⟨zero, rfl⟩
        · exact .inr ⟨positive, by omega, le_rfl, by decide, .inr rfl⟩
    · rename_i normal
      cases finite
      rw [magnitudeBits_normal normal]
      have least : leastExponent ≤ (bits.toNat / hiddenBit % 0x800 : ℕ) - 1075 := by
        rw [leastExponent]
        omega
      exact ⟨fields, .inr ⟨by omega, by omega, least, by omega, .inl (by omega)⟩⟩

end StackScript.Decimal
