import ScriptCore.Number.Literal
import ScriptCore.Proofs.Number.Counts

/-! # What is read is a number

Every double but not-a-number has a sign. Rounding, and the sums, products and quotients that numeric text is read
with, keep to one sign, so they never give not-a-number.

* `HasSign`: a number with a sign, perhaps zero or infinite.
* `hasSign_unpack_pack`: storing keeps the sign, whatever is lost otherwise.
* `Positive.add`, `Positive.mul`, `Positive.div`: positive numbers stay positive.
* `positive_accumulate`, `positive_ofDigits`: **the digits of a literal are read as a number.** -/

namespace ScriptCore.Number

open Float.Model Float.Model.UnpackedFloat

variable {s : Sign} {u v : UnpackedFloat} {x y : Float}

/-- A number with the sign `s`. -/
def HasSign (s : Sign) : UnpackedFloat → Prop
  | .notANumber => False
  | .infinity t | .zero t | .finite t _ _ _ => t = s

theorem HasSign.isNaN (h : HasSign s u) : u.isNaN = false := by
  cases u with
  | notANumber => exact h.elim
  | infinity _ | zero _ | finite _ _ _ _ => rfl

theorem HasSign.neg (h : HasSign s u) : HasSign (-s) u.neg := by
  cases u with
  | notANumber => exact h.elim
  | infinity _ | zero _ | finite _ _ _ _ => exact congrArg Neg.neg h

theorem hasSign_dite {p : Prop} [Decidable p] {u : p → UnpackedFloat} {v : ¬ p → UnpackedFloat}
    (hu : ∀ h, HasSign s (u h)) (hv : ∀ h, HasSign s (v h)) : HasSign s (if h : p then u h else v h) := by
  split
  · exact hu _
  · exact hv _

theorem hasSign_ite {p : Prop} [Decidable p] (hu : HasSign s u) (hv : HasSign s v) : HasSign s (if p then u else v) :=
  hasSign_dite (fun _ => hu) fun _ => hv

/-! ### Storing -/

theorem ofBitVec_toBitVec (s : Sign) : Sign.ofBitVec s.toBitVec = s := by
  cases s <;> rfl

/-- Fields are read as a number, unless they are those of not-a-number. -/
theorem hasSign_unpack_packComponents {spec : Format} {exponent : BitVec spec.exponentBits}
    {mantissa : BitVec spec.mantissaBitsWithoutImplicit} (h : exponent = -1#_ → mantissa = 0#_) :
    HasSign s (unpack spec (packComponents spec s exponent mantissa)) := by
  unfold UnpackedFloat.unpack
  dsimp only
  rw [unpackSign_packComponents, ofBitVec_toBitVec, unpackExponent_packComponents]
  by_cases hall : exponent = -1#_
  · rw [if_pos hall, if_pos (unpackMantissa_packComponents.trans (h hall))]
    rfl
  rw [if_neg hall]
  by_cases hsubnormal : exponent = 0#_
  · rw [if_pos hsubnormal]
    exact hasSign_dite (fun _ => rfl) fun _ => rfl
  · rw [if_neg hsubnormal]
    rfl

/-- An exponent field that is not too large is not that of infinity. -/
theorem ofNat_ne_neg_one {w n : Nat} (h : n + 1 < 2 ^ w) : BitVec.ofNat w n ≠ -1#w := by
  intro heq
  have hnat := congrArg BitVec.toNat heq
  rw [BitVec.toNat_ofNat, Nat.mod_eq_of_lt (by omega), BitVec.neg_one_eq_allOnes, BitVec.toNat_allOnes] at hnat
  omega

/-- **Storing a number keeps its sign.** -/
theorem hasSign_unpack_pack (h : HasSign s u) :
    HasSign s (unpack Format.binary64 (pack Format.binary64 u)) := by
  cases u with
  | notANumber => exact h.elim
  | infinity t =>
    obtain rfl : t = s := h
    exact hasSign_unpack_packComponents fun _ => rfl
  | zero t =>
    obtain rfl : t = s := h
    exact hasSign_unpack_packComponents fun _ => rfl
  | finite t m e hm =>
    obtain rfl : t = s := h
    unfold UnpackedFloat.pack
    dsimp only
    split
    · exact hasSign_unpack_packComponents fun _ => rfl
    · next hlarge =>
      split
      · exact hasSign_unpack_packComponents fun hall => absurd hall (ofNat_ne_neg_one (by omega))
      · exact hasSign_unpack_packComponents fun hall => absurd hall (by decide)

/-! ### Rounding -/

theorem hasSign_roundWithAccuracy (spec : Format) (s : Sign) (m : Nat) (e : Int) (accuracy : Accuracy) :
    HasSign s (roundWithAccuracy spec s m e accuracy) := by
  unfold roundWithAccuracy
  dsimp only
  exact hasSign_dite (fun _ => rfl) fun _ => rfl

theorem hasSign_round (spec : Format) (s : Sign) (m : Nat) (e : Int) : HasSign s (round spec s m e) :=
  hasSign_roundWithAccuracy ..

theorem hasSign_normalize (spec : Format) {m : Int} (hm : 0 ≤ m) (e : Int) :
    HasSign .positive (UnpackedFloat.normalize spec m e .positive) := by
  unfold UnpackedFloat.normalize
  split
  · next hlt => exact absurd (Int.compare_eq_lt.mp hlt) (by omega)
  · rfl
  · exact hasSign_round ..

/-! ### Positive doubles -/

/-- The double is a positive number, perhaps zero or infinite. -/
def Positive (x : Float) : Prop := HasSign .positive x.toModel.unpack

/-- The number is positive, and neither zero nor infinite. -/
def isFinitePositive : UnpackedFloat → Bool
  | .finite .positive _ _ _ => true
  | _ => false

/-- The double is positive, and neither zero nor infinite. -/
def FinitePositive (x : Float) : Prop := isFinitePositive x.toModel.unpack = true

instance : Decidable (FinitePositive x) := inferInstanceAs (Decidable (_ = true))

theorem FinitePositive.unpack (h : FinitePositive x) : ∃ m e hm, x.toModel.unpack = .finite .positive m e hm := by
  unfold FinitePositive at h
  generalize x.toModel.unpack = u at h ⊢
  cases u with
  | finite t m e hm =>
    cases t with
    | positive => exact ⟨m, e, hm, rfl⟩
    | negative => cases h
  | _ => cases h

theorem Positive.isNaN (h : Positive x) : x.isNaN = false := HasSign.isNaN h

theorem positive_pack (h : HasSign .positive u) : Positive (.ofModel (.pack u)) := hasSign_unpack_pack h

theorem Positive.isNaN_neg (h : Positive x) : (-x).isNaN = false :=
  (hasSign_unpack_pack (HasSign.neg h)).isNaN

theorem Positive.add (hx : Positive x) (hy : Positive y) : Positive (x + y) := by
  refine positive_pack ?_
  unfold Positive at hx hy
  generalize x.toModel.unpack = u at hx
  generalize y.toModel.unpack = v at hy
  cases u with
  | notANumber => exact hx.elim
  | infinity s =>
    obtain rfl : s = .positive := hx
    cases v with
    | notANumber => exact hy.elim
    | infinity t =>
      obtain rfl : t = .positive := hy
      rfl
    | zero _ | finite _ _ _ _ => rfl
  | zero s =>
    obtain rfl : s = .positive := hx
    cases v with
    | notANumber => exact hy.elim
    | zero t =>
      obtain rfl : t = .positive := hy
      rfl
    | infinity _ | finite _ _ _ _ => exact hy
  | finite s m e hm =>
    obtain rfl : s = .positive := hx
    cases v with
    | notANumber => exact hy.elim
    | zero _ => rfl
    | infinity _ => exact hy
    | finite t m' e' hm' =>
      obtain rfl : t = .positive := hy
      exact hasSign_normalize _ (Int.add_nonneg (Int.natCast_nonneg _) (Int.natCast_nonneg _)) _

theorem Positive.mul (hx : Positive x) (hy : FinitePositive y) : Positive (x * y) := by
  refine positive_pack ?_
  obtain ⟨m, e, hm, hy⟩ := hy.unpack
  unfold Positive at hx
  rw [hy]
  generalize x.toModel.unpack = u at hx
  cases u with
  | notANumber => exact hx.elim
  | infinity s | zero s =>
    obtain rfl : s = .positive := hx
    rfl
  | finite s _ _ _ =>
    obtain rfl : s = .positive := hx
    exact hasSign_roundWithAccuracy ..

theorem Positive.div (hx : Positive x) (hy : FinitePositive y) : Positive (x / y) := by
  refine positive_pack ?_
  obtain ⟨m, e, hm, hy⟩ := hy.unpack
  unfold Positive at hx
  rw [hy]
  generalize x.toModel.unpack = u at hx
  cases u with
  | notANumber => exact hx.elim
  | infinity s | zero s =>
    obtain rfl : s = .positive := hx
    rfl
  | finite s _ _ _ =>
    obtain rfl : s = .positive := hx
    exact hasSign_roundWithAccuracy ..

theorem positive_ofCount (n : Nat) : Positive (ofCount n) :=
  positive_pack (hasSign_normalize _ (Int.natCast_nonneg _) _)

theorem finitePositive_ofCount {n : Nat} (hpos : 0 < n) (hlt : n < 2 ^ 53) : FinitePositive (ofCount n) := by
  unfold FinitePositive
  rw [unpack_ofCount hpos hlt]
  rfl

/-! ### The digits of a literal -/

theorem finitePositive_power (i : Nat) (h : i < Float.exactlyRepresentablePowersOfTen.size) :
    FinitePositive Float.exactlyRepresentablePowersOfTen[i] := by
  have hall : ∀ i : Fin 23, FinitePositive Float.exactlyRepresentablePowersOfTen[i] := by decide +kernel
  exact hall ⟨i, h⟩

theorem hasSign_ofScientific (spec : Format) (m : Nat) (e : Int) :
    HasSign .positive (UnpackedFloat.ofScientific spec m e) := by
  unfold UnpackedFloat.ofScientific
  refine hasSign_dite (fun _ => rfl) fun _ => ?_
  refine hasSign_ite rfl (hasSign_ite rfl ?_)
  exact hasSign_ite (hasSign_roundWithAccuracy ..) (hasSign_roundWithAccuracy ..)

theorem positive_ofScientific (m : Nat) (negative : Bool) (e : Nat) : Positive (Float.ofScientific m negative e) := by
  unfold Float.ofScientific
  split
  · dsimp only
    split
    · exact (positive_ofCount m).div (finitePositive_power _ _)
    · exact (positive_ofCount m).mul (finitePositive_power _ _)
  · exact positive_pack (hasSign_ofScientific ..)

theorem positive_zero : Positive 0.0 := positive_ofScientific ..

theorem positive_infinity : Positive infinity := by
  show HasSign .positive infinity.toModel.unpack
  rw [show infinity.toModel.unpack = .infinity .positive by rfl]
  rfl

/-- **Digits and an exponent are read as a number.** -/
theorem positive_ofDigits (digits : List Char) (e : Int) : Positive (ofDigits digits e) := by
  unfold ofDigits
  dsimp only
  split
  · exact positive_zero
  split
  · exact positive_infinity
  split
  · exact positive_zero
  · exact positive_ofScientific ..

/-- **Digits in a radix are read as a number.** -/
theorem positive_accumulate {radix : Nat} (hpos : 0 < radix) (hlt : radix < 2 ^ 53) :
    ∀ {cs : List Char} {value x : Float}, Positive value → accumulate? radix cs value = some x → Positive x
  | [], _, _, hvalue, h => Option.some.inj h ▸ hvalue
  | c :: cs, value, x, hvalue, h => by
    unfold accumulate? at h
    split at h
    · next d _ =>
      split at h
      · have hnext := (hvalue.mul (finitePositive_ofCount hpos hlt)).add (positive_ofCount d)
        exact positive_accumulate hpos hlt hnext h
      · cases h
    · cases h

end ScriptCore.Number
