import StackScript.Proofs.Decimal.Layout
import StackScript.Proofs.Value.Floats

namespace StackScript

/-! What a decimal is read as is never a NaN: it is a finite number or infinite. Nor is its
negative. -/

open Float.Model (Format UnpackedFloat)
open Float.Model.UnpackedFloat

/-! ### The bits of a NaN -/

theorem unpack_packComponents_ne_nan {exponent : BitVec 11} (s : UnpackedFloat.Sign)
    (mantissa : BitVec 52) (number : exponent = -1#11 → mantissa = 0#52) :
    unpack .binary64 (packComponents .binary64 s exponent mantissa) ≠ .notANumber := by
  unfold unpack
  simp only [unpackMantissa_packComponents, unpackExponent_packComponents]
  split
  · rename_i special
    rw [if_pos (number special)]
    exact UnpackedFloat.noConfusion
  · split
    · split <;> exact UnpackedFloat.noConfusion
    · exact UnpackedFloat.noConfusion

/-- Packing makes no NaN of a number. -/
theorem unpack_pack_ne_nan {x : UnpackedFloat} (number : x ≠ .notANumber) :
    unpack .binary64 (pack .binary64 x) ≠ .notANumber := by
  have special : (0#11 : BitVec 11) ≠ -1#11 := by decide
  cases x with
  | notANumber => exact absurd rfl number
  | infinity s => exact unpack_packComponents_ne_nan s _ fun _ => rfl
  | zero s => exact unpack_packComponents_ne_nan s _ fun same => absurd same special
  | finite s m e pos =>
      unfold pack
      simp only
      split
      · exact unpack_packComponents_ne_nan s _ fun _ => rfl
      · rename_i fits
        split
        · refine unpack_packComponents_ne_nan s _ fun same => absurd (congrArg BitVec.toNat same) ?_
          rw [BitVec.toNat_ofNat, Nat.mod_eq_of_lt (by omega)]
          change _ ≠ 2047
          have size : 2 ^ Format.binary64.exponentBits = 2048 := rfl
          omega
        · exact unpack_packComponents_ne_nan s _ fun same => absurd same special

/-- The negative of a number is a number. -/
theorem isNaN_neg {x : Float} (number : x.isNaN = false) : (-x).isNaN = false := by
  rw [← Bool.not_eq_true, float_isNaN_iff] at number ⊢
  refine unpack_pack_ne_nan fun nan => number ?_
  cases unpacked : x.toModel.unpack <;> rw [unpacked] at nan <;> first | rfl | cases nan

theorem toNat_unpackExponent (bits : UInt64) :
    (@unpackExponent .binary64 bits.toBitVec).toNat =
      bits.toNat / Decimal.hiddenBit % 0x800 := by
  simp [unpackExponent, BitVec.extractLsb, Nat.shiftRight_eq_div_pow, Decimal.hiddenBit]

theorem toNat_unpackMantissa (bits : UInt64) :
    (@unpackMantissa .binary64 bits.toBitVec).toNat = bits.toNat % Decimal.hiddenBit := by
  simp [unpackMantissa, BitVec.extractLsb, Decimal.hiddenBit]

theorem unpack_ofBits (bits : UInt64) :
    (Float.ofBits bits).toModel.unpack =
      unpack .binary64 (pack .binary64 (unpack .binary64 bits.toBitVec)) :=
  rfl

/-- A NaN has an exponent of all ones, and a fraction. -/
theorem ofBits_eq_nan {bits : UInt64} (nan : (Float.ofBits bits).isNaN = true) :
    Decimal.Binary64.ofBits bits = .nan := by
  rw [float_isNaN_iff, unpack_ofBits] at nan
  have unpacked : unpack .binary64 bits.toBitVec = .notANumber := by
    by_contra number
    exact unpack_pack_ne_nan number nan
  have exponent := toNat_unpackExponent bits
  have mantissa := toNat_unpackMantissa bits
  unfold unpack at unpacked
  simp only at unpacked
  split at unpacked
  · rename_i special
    split at unpacked
    · cases unpacked
    · rename_i fraction
      rw [special] at exponent
      have field : bits.toNat / Decimal.hiddenBit % 0x800 = 0x7ff := exponent.symm
      have nonzero : bits.toNat % Decimal.hiddenBit ≠ 0 := by
        rw [← mantissa]
        exact fun zero => fraction (BitVec.eq_of_toNat_eq zero)
      simp only [Decimal.Binary64.ofBits, field, if_true, if_neg nonzero]
  · split at unpacked
    · split at unpacked <;> cases unpacked
    · cases unpacked

namespace Decimal

theorem ofBits_withSign_ne_nan {magnitude : ℕ} (bound : magnitude ≤ infinityBits) :
    Binary64.ofBits (withSign false magnitude) ≠ .nan := by
  have infinity : infinityBits = 0x7ff * 2 ^ 52 := by decide
  have hidden : hiddenBit = 2 ^ 52 := by decide
  have bits : (withSign false magnitude).toNat = magnitude :=
    UInt64.toNat_ofNat_of_lt' (show magnitude < 2 ^ 64 by omega)
  simp only [Binary64.ofBits, bits, hidden]
  split
  · rw [if_pos (by omega)]
    exact Binary64.noConfusion
  · split <;> exact Binary64.noConfusion

/-! ### What is read -/

theorem scientificBits_le (c : ℕ) (e : ℤ) : scientificBits c e ≤ infinityBits := by
  have nearest (num den : ℕ) : nearestBits num den ≤ infinityBits := Nat.min_le_right _ _
  simp only [scientificBits]
  split
  · exact Nat.zero_le _
  · split
    · exact Nat.le_refl _
    · split
      · exact Nat.zero_le _
      · split <;> exact nearest _ _

/-- Digits with a point between them are no NaN. -/
theorem readFloat_pointed {whole fraction : List Char} {bits : UInt64} (nonempty : whole ≠ [])
    (all : ∀ c ∈ whole, c.isDigit = true) (all' : ∀ c ∈ fraction, c.isDigit = true)
    (read : readFloat (whole ++ '.' :: fraction) = .ok bits) :
    (Float.ofBits bits).isNaN = false := by
  have numeral := @Numeral.pointed 0 whole fraction [] nonempty all all' nofun rfl
  obtain ⟨first, more, split, digit⟩ := numeral.exists_first
  have value := numeral.readUnsigned
  rw [split] at value
  rw [List.append_nil] at split
  rw [split, readFloat_unsigned digit value] at read
  obtain rfl := Except.ok.inj read
  rw [← Bool.not_eq_true]
  exact fun nan => ofBits_withSign_ne_nan (scientificBits_le _ _) (ofBits_eq_nan nan)

end Decimal

end StackScript
