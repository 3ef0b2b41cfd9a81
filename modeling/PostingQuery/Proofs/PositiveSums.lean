import Mathlib
import PostingQuery.Proofs.ExactScore
import PostingQuery.Score.SinglePrecision

/-!
Sums of positive scores. They stay positive, also in single precision: a sum is rounded, but the sum of two
positive numbers is never so small that it is rounded to zero.
-/

namespace PostingQuery

/-- Scores whose positive values stay positive in sums that begin with zero. -/
class Score.SumsUp (S : Type) [Score S] : Prop where
  zero : Score.isPositive (Score.zero : S) = false
  first : ∀ {value : S}, Score.isPositive value = true → Score.isPositive (Score.zero + value) = true
  more : ∀ {total value : S}, Score.isPositive total = true → Score.isPositive value = true →
    Score.isPositive (total + value) = true

instance : Score.SumsUp ℚ where
  zero := rfl
  first positive := by
    change decide (_ < _) = true at positive ⊢
    rw [decide_eq_true_iff] at positive ⊢
    exact positive.trans_eq (zero_add _).symm
  more positive also := by
    change decide (_ < _) = true at positive also ⊢
    rw [decide_eq_true_iff] at positive also ⊢
    exact add_pos positive also

namespace SinglePrecision

open Float.Model (Format UnpackedFloat totalExponent)
open Float.Model.UnpackedFloat

inductive Above : UnpackedFloat → Prop where
  | infinity : Above (.infinity .positive)
  | finite (mantissa : Nat) (exponent : Int) (positive : 0 < mantissa) (small : mantissa < 2 ^ 24)
      (least : -149 ≤ exponent) : Above (.finite .positive mantissa exponent positive)

theorem unpack_zero : (0 : Float32).toModel.unpack = .zero .positive := rfl

theorem bias_eq : (Format.binary32.exponentBias : Int) = 127 := by decide

theorem bounds_of_unpack {bits : BitVec Format.binary32.numBits} {sign : Sign} {mantissa : Nat} {exponent : Int}
    {positive : 0 < mantissa} (same : unpack .binary32 bits = .finite sign mantissa exponent positive) :
    mantissa < 2 ^ 24 ∧ -149 ≤ exponent := by
  have fraction : (unpackMantissa bits).toNat < 2 ^ 23 := (unpackMantissa bits).isLt
  unfold unpack at same
  simp only at same
  split at same
  · split at same
    · cases same
    · cases same
  · split at same
    next zero =>
      split at same
      · cases same
      · injection same with _ mantissas exponents
        rw [← exponents, ← mantissas, zero, bias_eq]
        exact ⟨fraction.trans (by decide), by decide⟩
    next normal =>
      injection same with _ mantissas exponents
      have nonzero : (unpackExponent bits).toNat ≠ 0 := fun zero =>
        normal (BitVec.eq_of_toNat_eq (by simpa using zero))
      rw [← exponents, ← mantissas, bias_eq]
      exact ⟨(1#1 ++ unpackMantissa bits).isLt, by omega⟩

theorem zero_lt_iff_above (x : Float32) : 0 < x ↔ Above x.toModel.unpack := by
  have compared : 0 < x ↔ UnpackedFloat.lt (.zero .positive) x.toModel.unpack = true := by
    change decide (UnpackedFloat.lt (0 : Float32).toModel.unpack x.toModel.unpack = true) = true ↔ _
    rw [unpack_zero, decide_eq_true_iff]
  have bounds : ∀ sign mantissa exponent positive,
      x.toModel.unpack = .finite sign mantissa exponent positive → mantissa < 2 ^ 24 ∧ -149 ≤ exponent :=
    fun _ _ _ _ => bounds_of_unpack
  rw [compared]
  generalize x.toModel.unpack = number at bounds
  constructor
  · intro less
    cases number with
    | notANumber => cases less
    | zero sign => cases less
    | infinity sign =>
      cases sign with
      | negative => cases less
      | positive => exact .infinity
    | finite sign mantissa exponent positive =>
      obtain ⟨small, least⟩ := bounds _ _ _ _ rfl
      cases sign with
      | negative => cases less
      | positive => exact .finite mantissa exponent positive small least
  · intro above
    cases above with
    | infinity => rfl
    | finite => rfl

section Rounding

variable {mantissa : Nat} {exponent : Int}

theorem mantissa_shiftRight (extended : ExtendedMantissa) (count : Nat) :
    (extended >>> count).mantissa = extended.mantissa / 2 ^ count := by
  change (Nat.repeat ExtendedMantissa.shiftRightOne count extended).mantissa = _
  induction count with
  | zero => simp [Nat.repeat]
  | succ count ih =>
    rw [Nat.repeat, ExtendedMantissa.shiftRightOne, ih, Nat.pow_succ, Nat.div_div_eq_div_mul]

theorem le_roundedMantissa (extended : ExtendedMantissa) : extended.mantissa ≤ extended.roundedMantissa := by
  unfold ExtendedMantissa.roundedMantissa Accuracy.roundToNearestEven
  split
  all_goals omega

theorem shiftToExponent_eq (mantissa : Nat) (exponent target : Int) (accuracy : Accuracy) :
    (shiftToExponent mantissa exponent accuracy target).1.mantissa = mantissa / 2 ^ (target - exponent).toNat ∧
      (shiftToExponent mantissa exponent accuracy target).2 = max exponent target := by
  have start : (ExtendedMantissa.ofMantissaAndAccuracy mantissa accuracy).mantissa = mantissa := by
    unfold ExtendedMantissa.ofMantissaAndAccuracy
    split
    all_goals rfl
  constructor
  · rw [shiftToExponent, mantissa_shiftRight, start]
  · change exponent + ((target - exponent).toNat : Int) = _
    omega

theorem targetExponent_eq : Format.binary32.targetExponent (totalExponent mantissa exponent) =
    max ((mantissa.log2 + 1 + exponent) - 24) (-149) := rfl

theorem shiftToTargetExponent_bounds (positive : 0 < mantissa) (least : -149 ≤ exponent) (accuracy : Accuracy) :
    0 < (shiftToTargetExponent .binary32 mantissa exponent accuracy).1.mantissa ∧
      (shiftToTargetExponent .binary32 mantissa exponent accuracy).1.mantissa < 2 ^ 24 ∧
      -149 ≤ (shiftToTargetExponent .binary32 mantissa exponent accuracy).2 := by
  obtain ⟨shifted, exponents⟩ := shiftToExponent_eq mantissa exponent
    (Format.binary32.targetExponent (totalExponent mantissa exponent)) accuracy
  have amount : (Format.binary32.targetExponent (totalExponent mantissa exponent) - exponent).toNat =
      mantissa.log2 - 23 := by
    rw [targetExponent_eq]
    omega
  rw [amount] at shifted
  unfold shiftToTargetExponent
  rw [shifted, exponents]
  refine ⟨Nat.div_pos ?_ (by positivity), ?_, by omega⟩
  · calc 2 ^ (mantissa.log2 - 23)
      _ ≤ 2 ^ mantissa.log2 := Nat.pow_le_pow_right (by decide) (Nat.sub_le _ _)
      _ ≤ mantissa := Nat.log2_self_le positive.ne'
  · rw [Nat.div_lt_iff_lt_mul (by positivity), ← pow_add]
    calc mantissa
      _ < 2 ^ (mantissa.log2 + 1) := Nat.lt_log2_self
      _ ≤ 2 ^ (24 + (mantissa.log2 - 23)) := Nat.pow_le_pow_right (by decide) (by omega)

theorem above_round (positive : 0 < mantissa) (least : -149 ≤ exponent) :
    Above (Float.Model.UnpackedFloat.round .binary32 .positive mantissa exponent) := by
  unfold Float.Model.UnpackedFloat.round decreaseExponent
  simp only
  generalize spread : (exponent - Format.binary32.targetExponent (totalExponent mantissa exponent)).toNat = amount
  have start : 0 < mantissa <<< amount := by
    rw [Nat.shiftLeft_eq]
    positivity
  have lowest : -149 ≤ exponent - amount := by
    rw [targetExponent_eq] at spread
    omega
  obtain ⟨firstPositive, -, firstLeast⟩ := shiftToTargetExponent_bounds start lowest .exact
  have rounded := firstPositive.trans_le (le_roundedMantissa _)
  obtain ⟨finalPositive, small, finalLeast⟩ := shiftToTargetExponent_bounds rounded firstLeast .exact
  unfold roundWithAccuracy
  simp only [dif_neg finalPositive.ne']
  exact .finite _ _ finalPositive small finalLeast

theorem above_zero_add {number : UnpackedFloat} (above : Above number) :
    Above (UnpackedFloat.add .binary32 (.zero .positive) number) := by
  cases above with
  | infinity => exact .infinity
  | finite mantissa exponent positive small least => exact .finite mantissa exponent positive small least

theorem above_add {a b : UnpackedFloat} (above : Above a) (also : Above b) :
    Above (UnpackedFloat.add .binary32 a b) := by
  cases above with
  | infinity =>
    cases also with
    | infinity => exact .infinity
    | finite => exact .infinity
  | finite mantissa exponent positive small least =>
    cases also with
    | infinity => exact .infinity
    | finite mantissa' exponent' positive' small' least' =>
      have sum : 0 < mantissa <<< (exponent - min exponent exponent').toNat +
          mantissa' <<< (exponent' - min exponent exponent').toNat := by
        rw [Nat.shiftLeft_eq, Nat.shiftLeft_eq]
        positivity
      have rounded := above_round sum (le_min least least')
      have greater : compare ((mantissa <<< (exponent - min exponent exponent').toNat +
          mantissa' <<< (exponent' - min exponent exponent').toNat : Nat) : Int) 0 = .gt := by
        rw [Int.compare_eq_gt]
        exact_mod_cast sum
      change Above (normalize .binary32 (((_ : Nat) : Int) + ((_ : Nat) : Int)) _ .positive)
      rw [← Int.natCast_add]
      unfold UnpackedFloat.normalize
      rw [greater]
      exact rounded

end Rounding

section Packing

variable {exponent : BitVec Format.binary32.exponentBits}
  {mantissa : BitVec Format.binary32.mantissaBitsWithoutImplicit}

theorem above_packComponents (some : exponent = 0#8 → mantissa ≠ 0#23)
    (number : exponent = -1#8 → mantissa = 0#23) :
    Above (unpack .binary32 (packComponents .binary32 .positive exponent mantissa)) := by
  have fraction : mantissa.toNat < 2 ^ 23 := mantissa.isLt
  unfold unpack
  simp only [unpackExponent_packComponents, unpackMantissa_packComponents, unpackSign_packComponents,
    Sign.ofBitVec_toBitVec]
  split
  next ones =>
    rw [if_pos (number ones)]
    exact .infinity
  next =>
    split
    next none =>
      rw [dif_neg (some none)]
      refine .finite _ _ _ (fraction.trans (by decide)) ?_
      rw [none, bias_eq]
      decide
    next normal =>
      refine .finite _ _ _ (1#1 ++ mantissa).isLt ?_
      have nonzero : exponent.toNat ≠ 0 := fun zero => normal (BitVec.eq_of_toNat_eq (by simpa using zero))
      rw [bias_eq]
      change (-149 : Int) ≤ _ - (127 + ((23 : Nat) : Int))
      omega

end Packing

theorem above_pack {number : UnpackedFloat} (above : Above number) :
    Above (unpack .binary32 (pack .binary32 number)) := by
  cases above with
  | infinity => exact .infinity
  | finite mantissa exponent positive small least =>
    unfold pack
    simp only [bias_eq]
    split
    next large => exact above_packComponents (fun zero => absurd zero (by decide)) fun _ => rfl
    next finite =>
      have range : 1 ≤ (exponent + 127 + ((23 : Nat) : Int)).toNat ∧
          (exponent + 127 + ((23 : Nat) : Int)).toNat < 255 := by
        change ¬2 ^ 8 ≤ (exponent + 127 + ((23 : Nat) : Int)).toNat + 1 at finite
        omega
      split
      next full =>
        -- the biased exponent is neither the one of zero nor the one of infinity
        refine above_packComponents (fun zero => ?_) fun ones => ?_
        · have value := congrArg BitVec.toNat zero
          rw [BitVec.toNat_ofNat] at value
          change (exponent + 127 + ((23 : Nat) : Int)).toNat % 2 ^ 8 = 0 at value
          omega
        · have value := congrArg BitVec.toNat ones
          rw [BitVec.toNat_ofNat] at value
          change (exponent + 127 + ((23 : Nat) : Int)).toNat % 2 ^ 8 = 255 at value
          omega
      next subnormal =>
        refine above_packComponents (fun _ zero => ?_) fun ones => absurd ones (by decide)
        have value := congrArg BitVec.toNat zero
        rw [BitVec.toNat_ofNat] at value
        change mantissa % 2 ^ 23 = 0 at value
        have few : mantissa.log2 < 23 := by
          have below := (Nat.log2_lt positive.ne').mpr small
          change ¬mantissa.log2 + 1 = 24 at subnormal
          omega
        have less := (Nat.log2_lt positive.ne').mp few
        omega

theorem zero_lt_add {x y : Float32}
    (above : Above (UnpackedFloat.add .binary32 x.toModel.unpack y.toModel.unpack)) : 0 < x + y :=
  (zero_lt_iff_above _).mpr (above_pack above)

end SinglePrecision

open SinglePrecision in
instance : Score.SumsUp Float32 where
  zero := by
    refine decide_eq_false fun above => ?_
    have zero := (zero_lt_iff_above _).mp above
    change Above (.zero .positive) at zero
    cases zero
  first positive := by
    change decide (_ < _) = true at positive ⊢
    rw [decide_eq_true_iff] at positive ⊢
    exact zero_lt_add (above_zero_add ((zero_lt_iff_above _).mp positive))
  more positive also := by
    change decide (_ < _) = true at positive also ⊢
    rw [decide_eq_true_iff] at positive also ⊢
    exact zero_lt_add (above_add ((zero_lt_iff_above _).mp positive) ((zero_lt_iff_above _).mp also))

end PostingQuery
