import Mathlib.Algebra.Group.Nat.Defs
import ScriptCore.Number.Binary

/-! # Counts are exact

A count below `2 ^ 53` is stored as a double without loss: its digits are shifted up until they fill 53 bits,
which is what both the fields of the double and its reading as a fraction show.

* `round_count`: rounding a count changes nothing.
* `decode_ofCount`: the fraction that the double of a count is.
* `whole?_ofCount`, `toUInt32_ofCount`: **reading a count back gives the count.** -/

namespace ScriptCore.Number

open Float.Model Float.Model.UnpackedFloat

/-- How far a count is shifted up to fill 53 bits. -/
def lift (n : Nat) : Nat := 52 - n.log2

/-- Shifting a significand right divides it. -/
theorem mantissa_shiftRight (m : ExtendedMantissa) : ∀ k : Nat, (m >>> k).mantissa = m.mantissa / 2 ^ k
  | 0 => (Nat.div_one _).symm
  | k + 1 => by
    show (m >>> k).mantissa / 2 = _
    rw [mantissa_shiftRight m k, Nat.div_div_eq_div_mul, Nat.pow_succ]

theorem unpackSign_packComponents {spec : Format} {sign : Sign} {exponent : BitVec spec.exponentBits}
    {mantissa : BitVec spec.mantissaBitsWithoutImplicit} :
    unpackSign (packComponents spec sign exponent mantissa) = sign.toBitVec := by
  refine BitVec.eq_of_getLsbD_eq fun i hi => ?_
  obtain rfl : i = 0 := by omega
  unfold unpackSign packComponents
  simp [BitVec.getLsbD_append, BitVec.getElem_append]

section

variable {n : Nat} (hpos : 0 < n) (hlt : n < 2 ^ 53)
include hpos hlt

theorem log2_le : n.log2 ≤ 52 := Nat.le_of_lt_succ ((Nat.log2_lt (Nat.ne_of_gt hpos)).mpr hlt)

/-- Shifted up, a count has 53 bits exactly. -/
theorem lifted_bounds : 2 ^ 52 ≤ n * 2 ^ lift n ∧ n * 2 ^ lift n < 2 ^ 53 := by
  have hle := log2_le hpos hlt
  obtain ⟨hlow, hhigh⟩ := (Nat.log2_eq_iff (Nat.ne_of_gt hpos)).mp (rfl : n.log2 = n.log2)
  have hlow' := Nat.mul_le_mul_right (2 ^ lift n) hlow
  have hhigh' := Nat.mul_lt_mul_of_pos_right hhigh (Nat.two_pow_pos (lift n))
  rw [← Nat.pow_add] at hlow' hhigh'
  rw [show n.log2 + lift n = 52 by unfold lift; omega] at hlow'
  rw [show n.log2 + 1 + lift n = 53 by unfold lift; omega] at hhigh'
  exact ⟨hlow', hhigh'⟩

theorem log2_lifted : (n * 2 ^ lift n).log2 = 52 := by
  obtain ⟨hlow, hhigh⟩ := lifted_bounds hpos hlt
  exact (Nat.log2_eq_iff (by omega)).mpr ⟨hlow, hhigh⟩

theorem lifted_pos : 0 < n * 2 ^ lift n := Nat.lt_of_lt_of_le (by decide) (lifted_bounds hpos hlt).1

/-! ### The stored double -/

/-- A significand of 53 bits is shifted nowhere. -/
theorem shiftToTargetExponent_lifted :
    shiftToTargetExponent Format.binary64 (n * 2 ^ lift n) (-(lift n : Int)) .exact =
      (⟨n * 2 ^ lift n, false, false⟩, -(lift n : Int)) := by
  have hle : (lift n : Int) ≤ 52 := by unfold lift; omega
  have htarget : Format.binary64.targetExponent (totalExponent (n * 2 ^ lift n) (-(lift n : Int))) =
      -(lift n : Int) := by
    unfold totalExponent Format.targetExponent Format.minExponent Format.mantissaBits
    rw [log2_lifted hpos hlt]
    dsimp only
    omega
  unfold shiftToTargetExponent shiftToExponent
  dsimp only
  rw [htarget, Int.sub_self]
  simp only [Int.toNat_zero, Int.natCast_zero, Int.add_zero]
  rfl

/-- **Rounding a count changes nothing** but the form that it is written in. -/
theorem round_count :
    UnpackedFloat.round Format.binary64 .positive n 0 =
      .finite .positive (n * 2 ^ lift n) (-(lift n : Int)) (lifted_pos hpos hlt) := by
  have hle := log2_le hpos hlt
  have htarget : Format.binary64.targetExponent (totalExponent n 0) = -(lift n : Int) := by
    unfold totalExponent Format.targetExponent Format.minExponent Format.mantissaBits lift
    dsimp only
    omega
  have hdecrease : decreaseExponent n 0 (-(lift n : Int)) = (n * 2 ^ lift n, -(lift n : Int)) := by
    unfold decreaseExponent
    dsimp only
    rw [Int.zero_sub, Int.neg_neg, Int.toNat_natCast, Nat.shiftLeft_eq, Int.zero_sub]
  unfold UnpackedFloat.round
  dsimp only
  rw [htarget, hdecrease]
  unfold roundWithAccuracy
  rw [shiftToTargetExponent_lifted hpos hlt]
  -- Nothing was cut off, so the second shift is the first again.
  dsimp only [ExtendedMantissa.roundedMantissa, ExtendedMantissa.accuracy, Accuracy.roundToNearestEven]
  rw [shiftToTargetExponent_lifted hpos hlt]
  exact dif_neg (Nat.ne_of_gt (lifted_pos hpos hlt))

/-- A count is packed without overflow and never as a subnormal. -/
theorem pack_count :
    UnpackedFloat.pack Format.binary64 (UnpackedFloat.ofNat Format.binary64 n) =
      packComponents Format.binary64 .positive (BitVec.ofNat 11 (1075 - lift n))
        (BitVec.ofNat 52 (n * 2 ^ lift n)) := by
  have hle : lift n ≤ 52 := by unfold lift; omega
  have hround : UnpackedFloat.ofNat Format.binary64 n =
      UnpackedFloat.round Format.binary64 .positive n 0 := by
    unfold UnpackedFloat.ofNat UnpackedFloat.ofInt UnpackedFloat.normalize
    rw [show compare (n : Int) 0 = .gt from Int.compare_eq_gt.mpr (by omega)]
    rfl
  have hbiased : (-(lift n : Int) + Format.exponentBias Format.binary64 + (52 : Nat)).toNat = 1075 - lift n := by
    unfold Format.exponentBias
    dsimp only
    omega
  rw [hround, round_count hpos hlt]
  unfold UnpackedFloat.pack
  simp only [hbiased, log2_lifted hpos hlt]
  rw [if_neg (by omega), if_pos (by rfl)]

/-- The double that stores a count. -/
theorem toBits_ofCount :
    (ofCount n).toBits.toBitVec = packComponents Format.binary64 .positive (BitVec.ofNat 11 (1075 - lift n))
      (BitVec.ofNat 52 (n * 2 ^ lift n)) := by
  have hword : n.toUInt64.toNat = n := UInt64.toNat_ofNat_of_lt' (by rw [UInt64.size]; omega)
  show UnpackedFloat.pack Format.binary64 (UnpackedFloat.ofNat Format.binary64 n.toUInt64.toNat) = _
  rw [hword, pack_count hpos hlt]

/-- **The fraction that the double of a count is.** -/
theorem decode_ofCount : decode (ofCount n) = some ⟨false, n * 2 ^ lift n, -(lift n : Int)⟩ := by
  have hle : lift n ≤ 52 := by unfold lift; omega
  obtain ⟨hlow, hhigh⟩ := lifted_bounds hpos hlt
  have hbits : (ofCount n).toBits.toNat = (1075 - lift n) * 2 ^ 52 + (n * 2 ^ lift n - 2 ^ 52) := by
    rw [← UInt64.toNat_toBitVec, toBits_ofCount hpos hlt]
    unfold packComponents
    rw [BitVec.toNat_append, BitVec.toNat_append, BitVec.toNat_ofNat, BitVec.toNat_ofNat,
      ← Nat.shiftLeft_add_eq_or_of_lt (Nat.mod_lt _ (by decide)), Nat.shiftLeft_eq,
      show Sign.positive.toBitVec.toNat = 0 from rfl, Nat.zero_shiftLeft, Nat.zero_or]
    omega
  have hsign : (ofCount n).toBits.toNat / Nat.pow 2 63 = 0 := by
    rw [hbits, show Nat.pow 2 63 = 2 ^ 63 from rfl]
    omega
  have hfield : (ofCount n).toBits.toNat / Nat.pow 2 52 % Nat.pow 2 11 = 1075 - lift n := by
    rw [hbits, show Nat.pow 2 52 = 2 ^ 52 from rfl, show Nat.pow 2 11 = 2 ^ 11 from rfl]
    omega
  have hfraction : (ofCount n).toBits.toNat % Nat.pow 2 52 + Nat.pow 2 52 = n * 2 ^ lift n := by
    rw [hbits, show Nat.pow 2 52 = 2 ^ 52 from rfl]
    omega
  unfold decode
  simp only [hsign, hfield, hfraction]
  rw [if_neg (by omega), if_neg (by omega), show ((1075 - lift n : Nat) : Int) - 1075 = -(lift n : Int) by omega]
  rfl

/-! ### Reading a count back -/

theorem whole?_ofCount_pos : whole? (ofCount n) = some (n : Int) := by
  unfold whole?
  rw [decode_ofCount hpos hlt, Option.bind_some]
  unfold Binary.whole?
  dsimp only
  by_cases hzero : lift n = 0
  · rw [if_pos (by omega), hzero]
    simp
  · rw [if_neg (by omega), Int.neg_neg, Int.toNat_natCast, show Nat.pow 2 (lift n) = 2 ^ lift n from rfl,
      if_pos (Nat.mul_mod_left ..), Nat.mul_div_cancel _ (Nat.two_pow_pos (lift n))]
    rfl

theorem unpack_ofCount :
    (ofCount n).toModel.unpack =
      .finite .positive (n * 2 ^ lift n) (-(lift n : Int)) (lifted_pos hpos hlt) := by
  have hle : lift n ≤ 52 := by unfold lift; omega
  obtain ⟨hlow, hhigh⟩ := lifted_bounds hpos hlt
  unfold Float.Model.unpack
  rw [show (ofCount n).toModel.toBits = (ofCount n).toBits from rfl, toBits_ofCount hpos hlt]
  have hexponent : (BitVec.ofNat 11 (1075 - lift n)).toNat = 1075 - lift n := by
    rw [BitVec.toNat_ofNat]
    omega
  have hne : ∀ w : BitVec 11, w.toNat ≠ 1075 - lift n → unpackExponent (packComponents Format.binary64 .positive
      (BitVec.ofNat 11 (1075 - lift n)) (BitVec.ofNat 52 (n * 2 ^ lift n))) ≠ w := by
    rintro w hw rfl
    rw [unpackExponent_packComponents] at hw
    exact hw hexponent
  have hmantissa : (1#1 ++ BitVec.ofNat 52 (n * 2 ^ lift n)).toNat = n * 2 ^ lift n := by
    rw [BitVec.toNat_append, ← Nat.shiftLeft_add_eq_or_of_lt (BitVec.isLt _), Nat.shiftLeft_eq,
      BitVec.toNat_ofNat (n * 2 ^ lift n), show (1#1).toNat = 1 from rfl]
    omega
  unfold UnpackedFloat.unpack
  dsimp only
  rw [if_neg (hne _ (by simp; omega)), if_neg (hne _ (by simp; omega)), UnpackedFloat.finite.injEq,
    unpackMantissa_packComponents, unpackExponent_packComponents, unpackSign_packComponents]
  refine ⟨rfl, hmantissa, ?_⟩
  rw [hexponent]
  unfold Format.exponentBias
  dsimp only
  omega

theorem toUInt32_ofCount_pos : (ofCount n).toUInt32 = UInt32.ofNatClamp n := by
  have hint : roundToInt .positive (n * 2 ^ lift n) (-(lift n : Int)) = n := by
    unfold roundToInt decreaseExponent shiftToExponent
    dsimp only
    rw [show (-(lift n : Int) - 0).toNat = 0 by omega, Nat.shiftLeft_zero,
      show (0 - (-(lift n : Int) - (0 : Nat))).toNat = lift n by omega, mantissa_shiftRight,
      ExtendedMantissa.ofMantissaAndAccuracy, Nat.mul_div_cancel _ (Nat.two_pow_pos (lift n))]
    rfl
  show UInt32.ofNatClamp (((ofCount n).toModel.unpack.toInt 0 (UInt32.size - 1)).toNat) = _
  rw [unpack_ofCount hpos hlt]
  show UInt32.ofNatClamp (roundToInt .positive (n * 2 ^ lift n) (-(lift n : Int))).toNat = _
  rw [hint, Int.toNat_natCast]

end

/-- **A count is the whole number that its double is.** -/
theorem whole?_ofCount {n : Nat} (hlt : n < 2 ^ 53) : whole? (ofCount n) = some (n : Int) := by
  rcases Nat.eq_zero_or_pos n with rfl | hpos
  · unfold whole?
    rw [show decode (ofCount 0) = some ⟨false, 0, leastExponent⟩ from rfl, Option.bind_some]
    unfold Binary.whole?
    rw [if_neg (by decide), if_pos (Nat.zero_mod _), Nat.zero_div]
    rfl
  · exact whole?_ofCount_pos hpos hlt

/-- **Cutting the double of a 32-bit count gives the count.** -/
theorem toUInt32_ofCount {n : Nat} (hlt : n < UInt32.size) : (ofCount n).toUInt32.toNat = n := by
  rcases Nat.eq_zero_or_pos n with rfl | hpos
  · rfl
  · rw [toUInt32_ofCount_pos hpos (Nat.lt_trans hlt (by decide)), UInt32.ofNatClamp, dif_pos hlt]
    rfl

end ScriptCore.Number
