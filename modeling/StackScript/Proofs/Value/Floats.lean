import Mathlib
import StackScript.Value.Arithmetic

namespace StackScript

/-! Order and equality of floats, and the floats nearest to ints. -/

open Float.Model (Format UnpackedFloat)
open Float.Model.UnpackedFloat

theorem float_isNaN_iff {x : Float} : x.isNaN = true ↔ x.toModel.unpack = .notANumber :=
  isNaN_iff

/-- Only a NaN is not equal to itself. -/
theorem float_beq_self {x : Float} : (x == x) = true ↔ x.isNaN = false := by
  simp

/-! The order of floats. The three tests of an ordering never disagree. -/

theorem compare_swap (a b : UnpackedFloat) : b.compare a = (a.compare b).map Ordering.swap := by
  cases a with
  | notANumber => cases b <;> rfl
  | infinity s =>
      cases b with
      | infinity t => cases s <;> cases t <;> rfl
      | _ => cases s <;> rfl
  | zero s =>
      cases b with
      | infinity t | finite t _ _ _ => cases t <;> rfl
      | _ => rfl
  | finite s m e pos =>
      cases b with
      | infinity t => cases s <;> cases t <;> rfl
      | finite t m' e' pos' =>
          have exponents : compare e' e = (compare e e').swap := Std.OrientedOrd.eq_swap
          have mantissas : compare m' m = (compare m m').swap := Std.OrientedOrd.eq_swap
          cases s <;> cases t <;>
            simp [UnpackedFloat.compare, Ordering.swap_then, exponents, mantissas]
      | _ => cases s <;> rfl

section Order

variable {x y : Float}

theorem float_lt_iff : x < y ↔ x.toModel.unpack.compare y.toModel.unpack = some .lt := by
  change Float.lt x y = true ↔ _
  simp only [Float.lt, decide_eq_true_iff]
  change Float.Model.lt _ _ = true ↔ _
  simp [Float.Model.lt, UnpackedFloat.lt]

theorem float_le_iff :
    x ≤ y ↔ (x.toModel.unpack.compare y.toModel.unpack).any (·.isLE) = true := by
  change Float.le x y = true ↔ _
  simp only [Float.le, decide_eq_true_iff]
  change Float.Model.le _ _ = true ↔ _
  simp [Float.Model.le, UnpackedFloat.le]

theorem float_beq_iff :
    (x == y) = true ↔ x.toModel.unpack.compare y.toModel.unpack = some .eq := by
  change UnpackedFloat.beq _ _ = true ↔ _
  simp [UnpackedFloat.beq]

theorem floatOrdering?_eq :
    Value.floatOrdering? x y = x.toModel.unpack.compare y.toModel.unpack := by
  unfold Value.floatOrdering?
  simp only [float_lt_iff, float_beq_iff, compare_swap x.toModel.unpack]
  rcases x.toModel.unpack.compare y.toModel.unpack with _ | _ | _ | _ <;> rfl

end Order

/-! An int of at most 53 bits is a float. -/

section Exact

variable {s : UnpackedFloat.Sign} {m k : Nat} {e : Int}

theorem log2_of_normal (low : 2 ^ 52 ≤ m) (high : m < 2 ^ 53) : m.log2 = 52 :=
  (Nat.log2_eq_iff (by omega)).mpr ⟨low, high⟩

theorem targetExponent_eq (t : Int) :
    Format.binary64.targetExponent t = max (t - 53) (-1074) :=
  rfl

/-- A mantissa of 53 bits keeps its exponent. -/
theorem shiftToTargetExponent_of_normal (low : 2 ^ 52 ≤ m) (high : m < 2 ^ 53) (least : -1074 ≤ e) :
    shiftToTargetExponent .binary64 m e .exact = (⟨m, false, false⟩, e) := by
  have same : (max (((52 : Nat) : Int) + 1 + e - 53) (-1074) - e).toNat = 0 := by omega
  simp only [shiftToTargetExponent, targetExponent_eq, Float.Model.totalExponent,
    log2_of_normal low high, shiftToExponent, same]
  simp [ExtendedMantissa.ofMantissaAndAccuracy, HShiftRight.hShiftRight, Nat.repeat]

theorem roundWithAccuracy_of_normal (low : 2 ^ 52 ≤ m) (high : m < 2 ^ 53) (least : -1074 ≤ e) :
    ∃ pos, roundWithAccuracy .binary64 s m e .exact = .finite s m e pos := by
  have shifted := shiftToTargetExponent_of_normal low high least
  refine ⟨by omega, ?_⟩
  unfold roundWithAccuracy
  simp only [shifted, ExtendedMantissa.roundedMantissa, ExtendedMantissa.accuracy,
    Accuracy.roundToNearestEven]
  rw [dif_neg (by omega)]

theorem shifted_normal (pos : 0 < k) (small : k < 2 ^ 53) :
    2 ^ 52 ≤ k <<< (52 - k.log2) ∧ k <<< (52 - k.log2) < 2 ^ 53 := by
  have bits : k.log2 ≤ 52 := Nat.le_of_lt_succ ((Nat.log2_lt (by omega)).mpr small)
  have least := Nat.log2_self_le (n := k) (by omega)
  have greatest := Nat.lt_log2_self (n := k)
  have whole : k.log2 + (52 - k.log2) = 52 := by omega
  rw [Nat.shiftLeft_eq]
  constructor
  · calc 2 ^ 52 = 2 ^ k.log2 * 2 ^ (52 - k.log2) := by rw [← Nat.pow_add, whole]
      _ ≤ k * 2 ^ (52 - k.log2) := Nat.mul_le_mul_right _ least
  · calc k * 2 ^ (52 - k.log2) < 2 ^ (k.log2 + 1) * 2 ^ (52 - k.log2) :=
          Nat.mul_lt_mul_of_pos_right greatest (Nat.two_pow_pos _)
      _ = 2 ^ 53 := by rw [← Nat.pow_add, Nat.add_right_comm, whole]

theorem round_exact (pos : 0 < k) (small : k < 2 ^ 53) :
    ∃ pos', UnpackedFloat.round .binary64 s k 0 =
      .finite s (k <<< (52 - k.log2)) ((k.log2 : Int) - 52) pos' := by
  have bits : k.log2 ≤ 52 := Nat.le_of_lt_succ ((Nat.log2_lt (by omega)).mpr small)
  obtain ⟨low, high⟩ := shifted_normal pos small
  have shift : (0 - max ((k.log2 : Int) + 1 + 0 - 53) (-1074)).toNat = 52 - k.log2 := by omega
  have place : 0 - ((52 - k.log2 : Nat) : Int) = (k.log2 : Int) - 52 := by omega
  unfold UnpackedFloat.round
  simp only [targetExponent_eq, Float.Model.totalExponent, decreaseExponent, shift, place]
  exact roundWithAccuracy_of_normal low high (by omega)

/-- The highest bit of a mantissa of 53 bits is not stored. -/
theorem toNat_hidden (low : 2 ^ 52 ≤ m) (high : m < 2 ^ 53) :
    (1#1 ++ BitVec.ofNat 52 m).toNat = m := by
  have small : (BitVec.ofNat 52 m).toNat < 2 ^ 52 := BitVec.isLt _
  rw [BitVec.toNat_append, ← Nat.shiftLeft_add_eq_or_of_lt small, BitVec.toNat_ofNat,
    BitVec.toNat_ofNat, Nat.shiftLeft_eq]
  omega

/-- A packed mantissa of 53 bits is unpacked again if the exponent fits. -/
theorem unpack_pack_of_normal (low : 2 ^ 52 ≤ m) (high : m < 2 ^ 53) (least : -1074 ≤ e)
    (greatest : e ≤ 971) (pos : 0 < m) :
    unpack .binary64 (pack .binary64 (finite s m e pos)) = finite s m e pos := by
  have bits : m.log2 + 1 = Format.binary64.mantissaBits := by
    rw [log2_of_normal low high]
    rfl
  have constant : Format.binary64.exponentBias = 1023 := rfl
  obtain ⟨biased, same⟩ : ∃ biased : Nat, e = biased - 1075 := ⟨(e + 1075).toNat, by omega⟩
  have bias : (e + (Format.binary64.exponentBias : Int) + ((52 : Nat) : Int)).toNat = biased := by
    omega
  have back : (biased : Int) - ((Format.binary64.exponentBias : Int) + ((52 : Nat) : Int)) = e := by
    omega
  have exponent : (BitVec.ofNat 11 biased).toNat = biased := by
    rw [BitVec.toNat_ofNat, Nat.mod_eq_of_lt (by omega)]
  -- The exponent of all ones is that of infinities, and zero that of subnormal numbers.
  have special : BitVec.ofNat 11 biased ≠ -1#11 := fun eq =>
    absurd (congrArg BitVec.toNat eq) (by rw [exponent]; simp; omega)
  have zero : BitVec.ofNat 11 biased ≠ 0#11 := fun eq =>
    absurd (congrArg BitVec.toNat eq) (by rw [exponent]; simp; omega)
  unfold pack
  simp only [bias, bits, if_true]
  rw [if_neg (by omega)]
  unfold unpack
  simp only [unpackMantissa_packComponents, unpackExponent_packComponents,
    unpackSign_packComponents, UnpackedFloat.Sign.ofBitVec_toBitVec, special, zero, if_false,
    exponent, back, toNat_hidden low high]

end Exact

/-- The int is at most 53 bits long, so that floats have it. -/
def IsExact (n : Int64) : Prop :=
  n.toInt.natAbs < 2 ^ 53

instance (n : Int64) : Decidable (IsExact n) :=
  inferInstanceAs (Decidable (_ < _))

/-- The sign of the float of an int. -/
def signOf (n : Int) : UnpackedFloat.Sign :=
  if n < 0 then .negative else .positive

theorem ofInt_exact {n : Int} (nonzero : n ≠ 0) (small : n.natAbs < 2 ^ 53) :
    ∃ pos, UnpackedFloat.ofInt .binary64 n =
      .finite (signOf n) (n.natAbs <<< (52 - n.natAbs.log2)) ((n.natAbs.log2 : Int) - 52) pos := by
  unfold UnpackedFloat.ofInt UnpackedFloat.normalize signOf
  rcases Int.lt_or_gt_of_ne nonzero with negative | positive
  · have size : (-n).toNat = n.natAbs := by omega
    rw [Int.compare_eq_lt.mpr negative, if_pos negative, size]
    exact round_exact (by omega) small
  · have size : n.toNat = n.natAbs := by omega
    rw [Int.compare_eq_gt.mpr positive, if_neg (by omega), size]
    exact round_exact (by omega) small

theorem unpack_nearestFloat {n : Int64} (exact : IsExact n) (nonzero : n.toInt ≠ 0) :
    ∃ pos, (nearestFloat n).toModel.unpack =
      .finite (signOf n.toInt) (n.toInt.natAbs <<< (52 - n.toInt.natAbs.log2))
        ((n.toInt.natAbs.log2 : Int) - 52) pos := by
  obtain ⟨pos, unpacked⟩ := ofInt_exact nonzero exact
  obtain ⟨low, high⟩ := shifted_normal (k := n.toInt.natAbs) (by omega) exact
  have bits : n.toInt.natAbs.log2 < 53 := (Nat.log2_lt (by omega)).mpr exact
  refine ⟨pos, ?_⟩
  change unpack .binary64 (pack .binary64 (UnpackedFloat.ofInt .binary64 n.toInt)) = _
  rw [unpacked]
  exact unpack_pack_of_normal low high (by omega) (by omega) pos

theorem unpack_nearestFloat_zero {n : Int64} (zero : n.toInt = 0) :
    (nearestFloat n).toModel.unpack = .zero .positive := by
  change unpack .binary64 (pack .binary64 (UnpackedFloat.ofInt .binary64 n.toInt)) = _
  rw [zero]
  rfl

theorem eq_of_finite {m n : Int} (signs : signOf m = signOf n)
    (exponents : (m.natAbs.log2 : Int) - 52 = (n.natAbs.log2 : Int) - 52)
    (mantissas : m.natAbs <<< (52 - m.natAbs.log2) = n.natAbs <<< (52 - n.natAbs.log2)) :
    m = n := by
  have logs : m.natAbs.log2 = n.natAbs.log2 := by omega
  rw [logs, Nat.shiftLeft_eq, Nat.shiftLeft_eq] at mantissas
  have sizes := Nat.eq_of_mul_eq_mul_right (Nat.two_pow_pos _) mantissas
  unfold signOf at signs
  split at signs <;> split at signs <;> first | contradiction | omega

/-- Different ints of at most 53 bits have different floats. -/
theorem nearestFloat_inj {m n : Int64} (exactM : IsExact m) (exactN : IsExact n)
    (same : (nearestFloat m == nearestFloat n) = true) : m = n := by
  have same : (nearestFloat m).toModel.unpack.beq (nearestFloat n).toModel.unpack = true := same
  rw [beq_iff_ne_notANumber_and_eq] at same
  apply Int64.toInt_inj.mp
  by_cases zeroM : m.toInt = 0 <;> by_cases zeroN : n.toInt = 0
  · rw [zeroM, zeroN]
  · obtain ⟨pos, unpacked⟩ := unpack_nearestFloat exactN zeroN
    rw [unpack_nearestFloat_zero zeroM, unpacked] at same
    simp at same
  · obtain ⟨pos, unpacked⟩ := unpack_nearestFloat exactM zeroM
    rw [unpack_nearestFloat_zero zeroN, unpacked] at same
    simp at same
  · obtain ⟨pos, unpacked⟩ := unpack_nearestFloat exactM zeroM
    obtain ⟨pos', unpacked'⟩ := unpack_nearestFloat exactN zeroN
    rw [unpacked, unpacked'] at same
    simp only [finite.injEq, reduceCtorEq, ne_eq, not_false_eq_true, true_and, false_and,
      or_false] at same
    exact eq_of_finite same.1 same.2.2 same.2.1

end StackScript
