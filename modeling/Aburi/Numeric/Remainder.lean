import Aburi.Numeric.BigUInt
import Aburi.Numeric.RoundingUnique
import Mathlib.Data.Rat.Floor

/-!
# Exact results and the remainder

A number of the format is rounded to itself without any flag.  The remainder of
two values is such a number: at the smaller of the two exponents it needs no
more bits than one of the operands.
-/

namespace Aburi.Numeric

open Aburi.Lib Nat

section Exact

variable {format : FloatFormat} {fmt : FloatFormatDescriptor} {negative : Bool}
  {control : FloatControl}

/-- Numbers of the grid have a reduced form. -/
theorem exists_reduced (count : ℕ) (steps : ℕ) (small : count < 2 ^ fmt.precision) :
    ∃ (reduced : ℕ) (unit : ℤ), Reduced fmt.precision fmt.lowestExponent reduced unit ∧
      reduced < 2 ^ fmt.precision ∧ unit ≤ fmt.lowestExponent + steps ∧
      (reduced : ℚ) * 2 ^ unit = count * 2 ^ (fmt.lowestExponent + steps) := by
  induction steps generalizing count with
  | zero =>
    exact ⟨count, fmt.lowestExponent + (0 : ℕ), ⟨by omega, .inl (by omega)⟩, small, le_rfl, rfl⟩
  | succ steps ih =>
    by_cases fine : 2 ^ fmt.precision ≤ 2 * count
    · exact ⟨count, _, ⟨by omega, .inr fine⟩, small, le_rfl, rfl⟩
    · obtain ⟨reduced, unit, isReduced, isSmall, atMost, same⟩ := ih (2 * count) (by omega)
      refine ⟨reduced, unit, isReduced, isSmall, by omega, same.trans ?_⟩
      have next : fmt.lowestExponent + ((steps + 1 : ℕ) : ℤ) = fmt.lowestExponent + steps + 1 := by
        omega
      rw [next, zpow_add_one₀ (by norm_num)]
      push_cast
      ring

theorem grid_mem_finiteValues (known : descriptor format = some fmt) {count : ℕ} {unit : ℤ}
    (small : count < 2 ^ fmt.precision) (atLeast : fmt.lowestExponent ≤ unit)
    (atMost : unit ≤ fmt.highestExponent) (negative : Bool) :
    signed negative (count * 2 ^ unit) ∈ finiteValues format := by
  obtain ⟨steps, rfl⟩ : ∃ steps : ℕ, unit = fmt.lowestExponent + steps :=
    ⟨(unit - fmt.lowestExponent).toNat, by omega⟩
  obtain ⟨reduced, unit, isReduced, isSmall, below, same⟩ := exists_reduced count steps small
  rw [← same]
  exact mem_finiteValues known isReduced isSmall (below.trans atMost) negative

/-- No flag is raised without the one for an inexact result. -/
def FloatResult.Quiet (result : FloatResult) : Prop :=
  result.status.inexact = false → result.status = {}

theorem quiet_ite {condition : Prop} [Decidable condition] {first second : FloatResult}
    (firstQuiet : first.Quiet) (secondQuiet : second.Quiet) :
    (if condition then first else second).Quiet := by
  split
  · exact firstQuiet
  · exact secondQuiet

theorem overflowResult_quiet : (overflowResult format negative control).Quiet := by
  intro isExact
  cases isExact

theorem roundedResult_quiet (exponent : ℤ) (quotient remainder divisor : ℕ) :
    (roundedResult negative format fmt control exponent quotient remainder divisor).Quiet := by
  unfold roundedResult
  apply quiet_ite overflowResult_quiet
  intro isExact
  have noRemainder : (remainder != 0) = false := isExact
  dsimp only
  rw [noRemainder, Bool.false_and]

section

variable (known : descriptor format = some fmt) {numerator denominator : ℕ}
  (numeratorPos : 0 < numerator) (denominatorPos : 0 < denominator) (binaryExponent : ℤ)
include known numeratorPos denominatorPos binaryExponent

theorem roundRational_quiet :
    (roundRational negative numerator denominator binaryExponent format control).Quiet := by
  have cases := @roundRational_cases _ _ known negative _ _ numeratorPos denominatorPos
    binaryExponent control _ rfl _ rfl
  rcases cases with ⟨-, isResult⟩ | ⟨-, -, isResult⟩ |
      ⟨exponent, unit, quotient, remainder, divisor, -, isResult⟩
  · rw [isResult]
    exact overflowResult_quiet
  · rw [isResult]
    intro isExact
    cases isExact
  · rw [isResult]
    exact roundedResult_quiet _ _ _ _

theorem roundRational_exact
    (member : signed negative ((numerator : ℚ) / denominator * 2 ^ binaryExponent) ∈
      finiteValues format) :
    let result := roundRational negative numerator denominator binaryExponent format control
    result.error = .none ∧ result.value.semantics = format ∧ result.value.IsFinite ∧
      result.value.toRat = signed negative ((numerator : ℚ) / denominator * 2 ^ binaryExponent) ∧
      result.status = {} := by
  intro result
  have correct := roundRational_correct known negative false numeratorPos denominatorPos
    binaryExponent control
  obtain ⟨value, semantics, finite, isNumber⟩ := member
  have rounds := roundsTo_exact known semantics finite control.rounding
  rw [isNumber] at rounds
  have same : result.value.IsFinite ∧ result.value.toRat =
      signed negative ((numerator : ℚ) / denominator * 2 ^ binaryExponent) := by
    rcases roundsTo_unique known correct.semantics semantics correct.rounds rounds with
      equal | ⟨resultFinite, -, equal⟩
    · exact ⟨equal ▸ finite, (congrArg FloatValue.toRat equal).trans isNumber⟩
    · exact ⟨resultFinite, equal.trans isNumber⟩
  refine ⟨correct.error, correct.semantics, same.1, same.2, ?_⟩
  apply roundRational_quiet known numeratorPos denominatorPos binaryExponent
  rw [← Bool.not_eq_true, correct.inexact, not_not]
  exact same

end

end Exact

/-- A number without its fraction. -/
def truncate (number : ℚ) : ℤ := if 0 ≤ number then ⌊number⌋ else ⌈number⌉

theorem truncate_signed (negative : Bool) (magnitude : ℚ) (nonneg : 0 ≤ magnitude) :
    (truncate (signed negative magnitude) : ℚ) = signed negative ⌊magnitude⌋ := by
  cases negative with
  | false => simp [truncate, signed, nonneg]
  | true =>
    simp only [truncate, signed, if_true]
    split
    case isTrue zero =>
      have isZero : magnitude = 0 := by linarith
      simp [isZero]
    case isFalse => rw [Int.ceil_neg, Int.cast_neg]

/-- The remainder by long division on words. -/
def remainderValuesOnWords (lhs rhs : FloatValue) (control : FloatControl) : FloatResult :=
  if lhs.semantics ≠ rhs.semantics then errorResult .formatMismatch
  else
    let left := decode lhs
    let right := decode rhs
    if left.classification = .invalid ∨ right.classification = .invalid then
      errorResult .invalidEncoding
    else if isNanClass left.classification || isNanClass right.classification then
      propagateNan lhs left rhs right
    else if left.classification = .infinity ∨ right.classification = .zero then
      invalidOperation lhs.semantics
    else if left.classification = .zero ∨ right.classification = .infinity then
      { value := lhs }
    else
      let common := min left.exponent right.exponent
      let dividend := (BigUInt.ofU128 (BitVec.ofNat 128 left.significand)).shiftedLeft
        (left.exponent - common).toNat
      let divisor := (BigUInt.ofU128 (BitVec.ofNat 128 right.significand)).shiftedLeft
        (right.exponent - common).toNat
      let remainder := (BigUInt.divmod dividend divisor).2
      if remainder.isZero then { value := zero lhs.semantics left.negative }
      else
        roundRational left.negative remainder.toNat (BigUInt.ofU128 1).toNat common lhs.semantics
          control

section Remainder

variable {lhs rhs : FloatValue}

theorem precision_le {format : FloatFormat} {fmt : FloatFormatDescriptor}
    (known : descriptor format = some fmt) : fmt.precision ≤ 128 := by
  have facts := formatFacts known
  have storage := facts.storage
  have fits := facts.fits
  have significand := facts.significand
  split at significand <;> omega

theorem toNat_significand {value : FloatValue} (finite : value.IsFinite) :
    (BigUInt.ofU128 (BitVec.ofNat 128 (decode value).significand)).toNat =
      (decode value).significand := by
  obtain ⟨fmt, known, -⟩ := finite.known
  have small := (finite.decoded_form known rfl).1
  rw [BigUInt.toNat_ofU128, BitVec.toNat_ofNat, mod_eq_of_lt]
  exact small.trans_le (Nat.pow_le_pow_right (by norm_num) (precision_le known))

theorem remainderValues_eq (leftFinite : lhs.IsFinite) (rightFinite : rhs.IsFinite)
    (control : FloatControl) :
    remainderValues lhs rhs control = remainderValuesOnWords lhs rhs control := by
  have isZero := fun number : BigUInt => Bool.eq_iff_iff.mpr
    (number.isZero_iff.trans (decide_eq_true_iff (p := number.toNat = 0)).symm)
  have one : (BigUInt.ofU128 1).toNat = 1 := by rw [BigUInt.toNat_ofU128]; rfl
  simp only [remainderValues, remainderValuesOnWords, isZero, (BigUInt.divmod_spec _ _).2,
    BigUInt.toNat_shiftedLeft, toNat_significand leftFinite, toNat_significand rightFinite,
    shiftLeft_eq, decide_eq_true_iff, one]

/-- The exact remainder of two values, with no flag raised. -/
structure IsRemainder (lhs rhs : FloatValue) (result : FloatResult) : Prop where
  error : result.error = .none
  semantics : result.value.semantics = lhs.semantics
  finite : result.value.IsFinite
  toRat : result.value.toRat = lhs.toRat - rhs.toRat * truncate (lhs.toRat / rhs.toRat)
  zeroSign : result.value.toRat = 0 → (decode result.value).negative = (decode lhs).negative
  status : result.status = {}
  small : |result.value.toRat| < |rhs.toRat|

theorem exactRemainder_signed (lhs rhs : FloatValue) (left : 0 ≤ lhs.magnitude)
    (right : 0 ≤ rhs.magnitude) :
    lhs.toRat - rhs.toRat * truncate (lhs.toRat / rhs.toRat) =
      signed (decode lhs).negative
        (lhs.magnitude - rhs.magnitude * ⌊lhs.magnitude / rhs.magnitude⌋) := by
  rw [toRat_signed lhs, toRat_signed rhs, signed_div, truncate_signed _ _ (div_nonneg left right),
    signed_mul]
  cases (decode lhs).negative <;> cases (decode rhs).negative <;> simp [signed] <;> ring

theorem exactRemainder_units {lhs rhs : FloatValue} {unit : ℤ} {dividend divisor : ℕ}
    (left : lhs.magnitude = dividend * 2 ^ unit) (right : rhs.magnitude = divisor * 2 ^ unit) :
    lhs.magnitude - rhs.magnitude * ⌊lhs.magnitude / rhs.magnitude⌋ =
      (dividend % divisor : ℕ) * 2 ^ unit := by
  have unitPos := two_zpow_pos unit
  have quotient : ⌊lhs.magnitude / rhs.magnitude⌋ = ((dividend / divisor : ℕ) : ℤ) := by
    rw [left, right, mul_div_mul_right _ _ unitPos.ne']
    rw [Rat.floor_natCast_div_natCast]
    rfl
  have parts : (dividend : ℚ) = (divisor : ℚ) * (dividend / divisor : ℕ) +
      (dividend % divisor : ℕ) := by
    exact_mod_cast (div_add_mod dividend divisor).symm
  rw [quotient, left, right, parts, Int.cast_natCast]
  ring

/-- The operand whose exponent is the smaller one bounds the remainder. -/
theorem remainder_lt_precision {left right common : ℤ} {leftCount rightCount bits : ℕ}
    (isCommon : common = min left right) (leftSmall : leftCount < 2 ^ bits)
    (rightSmall : rightCount < 2 ^ bits) (rightPos : 0 < rightCount) :
    (leftCount <<< (left - common).toNat) % (rightCount <<< (right - common).toNat) < 2 ^ bits := by
  rw [shiftLeft_eq, shiftLeft_eq]
  rcases le_total left right with lower | lower
  · have isLeft : (left - common).toNat = 0 := by omega
    rw [isLeft, pow_zero, Nat.mul_one]
    exact (mod_le _ _).trans_lt leftSmall
  · have isRight : (right - common).toNat = 0 := by omega
    rw [isRight, pow_zero, Nat.mul_one]
    exact (mod_lt _ rightPos).trans rightSmall

/-- The remainder operation is exact. -/
theorem binary_modulo_isRemainder (sameFormat : lhs.semantics = rhs.semantics)
    (leftFinite : lhs.IsFinite) (rightFinite : rhs.IsFinite) (nonzero : rhs.toRat ≠ 0)
    (control : FloatControl) :
    IsRemainder lhs rhs (binary .modulo lhs rhs control) ∧
      binary .modulo lhs rhs control = remainderValuesOnWords lhs rhs control := by
  have onWords := remainderValues_eq leftFinite rightFinite control
  refine ⟨?_, onWords⟩
  obtain ⟨fmt, known, -⟩ := leftFinite.known
  have rightNonzero : (decode rhs).classification ≠ .zero := mt rightFinite.toRat_zero nonzero
  have rightPos := rightFinite.significand_pos rightNonzero
  have rightMagnitude := rightFinite.magnitude_pos rightNonzero
  have leftMagnitude : 0 ≤ lhs.magnitude := mul_nonneg (cast_nonneg _) (two_zpow_pos _).le
  have isExact := exactRemainder_signed lhs rhs leftMagnitude rightMagnitude.le
  have rightAbs : |rhs.toRat| = rhs.magnitude := by
    rw [toRat_signed, abs_signed rightMagnitude.le]
  rw [binary]
  simp only [remainderValues, ne_eq, sameFormat, not_true_eq_false, if_false,
    leftFinite.not_invalid, rightFinite.not_invalid, or_self, leftFinite.not_nan,
    rightFinite.not_nan, Bool.false_eq_true, Bool.or_self, leftFinite.not_infinity,
    rightFinite.not_infinity, rightNonzero, or_false]
  split
  case isTrue leftZero =>
    have isZero : lhs.toRat = 0 := leftFinite.toRat_zero leftZero
    refine ⟨rfl, rfl, leftFinite, ?_, fun _ => rfl, rfl, ?_⟩
    · show lhs.toRat = _
      rw [isZero, zero_div, truncate, if_pos le_rfl, Int.floor_zero]
      simp
    · show |lhs.toRat| < _
      rw [isZero, abs_zero, rightAbs]
      exact rightMagnitude
  case isFalse leftNonzero =>
    generalize isCommon : min (decode lhs).exponent (decode rhs).exponent = common
    have leftLower : common ≤ (decode lhs).exponent := by omega
    have rightLower : common ≤ (decode rhs).exponent := by omega
    have leftUnits := @integer_magnitude (decode lhs).significand _ _ leftLower
    have rightUnits := @integer_magnitude (decode rhs).significand _ _ rightLower
    obtain ⟨leftSmall, leftForm⟩ := leftFinite.decoded_form known rfl
    obtain ⟨rightSmall, rightForm⟩ := rightFinite.decoded_form known sameFormat.symm
    obtain ⟨leftLow, leftHigh, -⟩ := leftForm (leftFinite.significand_pos leftNonzero).ne'
    obtain ⟨rightLow, rightHigh, -⟩ := rightForm rightPos.ne'
    have small := remainder_lt_precision isCommon.symm leftSmall rightSmall rightPos
    have divisorPos : 0 < (decode rhs).significand <<< ((decode rhs).exponent - common).toNat := by
      rw [shiftLeft_eq]
      exact Nat.mul_pos rightPos (Nat.two_pow_pos _)
    rw [cast_one, div_one] at leftUnits rightUnits
    have units := exactRemainder_units leftUnits.symm rightUnits.symm
    generalize (decode lhs).significand <<< ((decode lhs).exponent - common).toNat = dividend
      at small units leftUnits ⊢
    generalize (decode rhs).significand <<< ((decode rhs).exponent - common).toNat = divisor
      at small units rightUnits divisorPos ⊢
    rw [units] at isExact
    have below : ((dividend % divisor : ℕ) : ℚ) * 2 ^ common < rhs.magnitude := by
      rw [FloatValue.magnitude, ← rightUnits, mul_lt_mul_iff_left₀ (two_zpow_pos common)]
      exact_mod_cast mod_lt dividend divisorPos
    split
    case isTrue isZero =>
      have stands := stands_zero known (decode lhs).negative
      rw [sameFormat] at stands
      rw [isZero, cast_zero, zero_mul] at isExact
      have isNumber : (zero rhs.semantics (decode lhs).negative).toRat = 0 := by
        rw [stands.toRat]
        simp [signed]
      refine ⟨rfl, stands.semantics.trans sameFormat.symm, stands.finite, ?_,
        fun _ => stands.sign, rfl, ?_⟩
      · rw [isExact, isNumber]
        simp [signed]
      · rw [isNumber, abs_zero, rightAbs]
        exact rightMagnitude
    case isFalse isPositive =>
      have member := @grid_mem_finiteValues _ _ known _ common small (by omega) (by omega)
        (decode lhs).negative
      have isNumber : (((dividend % divisor : ℕ) : ℚ) / (1 : ℕ) * 2 ^ common) =
          (dividend % divisor : ℕ) * 2 ^ common := by
        rw [cast_one, div_one]
      rw [← isNumber] at member
      obtain ⟨error, semantics, finite, toRat, status⟩ := @roundRational_exact _ _ _ control
        known _ _ (Nat.pos_of_ne_zero isPositive) one_pos common member
      rw [isNumber, ← isExact] at toRat
      rw [← sameFormat]
      have positive : 0 < ((dividend % divisor : ℕ) : ℚ) * 2 ^ common :=
        mul_pos (by exact_mod_cast Nat.pos_of_ne_zero isPositive) (two_zpow_pos _)
      refine ⟨error, semantics, finite, toRat, ?_, status, ?_⟩
      · intro isZero
        rw [toRat, isExact, signed] at isZero
        split at isZero <;> linarith
      · rw [toRat, isExact, abs_signed positive.le, rightAbs]
        exact below

/-- Minus five and a half leaves minus one and a half by two. -/
theorem halfRemainder_isRemainder :
    (binary .modulo ⟨.ieeeBinary64, 0xc016000000000000, 0⟩
        ⟨.ieeeBinary64, 0x4000000000000000, 0⟩).value = ⟨.ieeeBinary64, 0xbff8000000000000, 0⟩ ∧
      IsRemainder ⟨.ieeeBinary64, 0xc016000000000000, 0⟩ ⟨.ieeeBinary64, 0x4000000000000000, 0⟩
        (binary .modulo ⟨.ieeeBinary64, 0xc016000000000000, 0⟩
          ⟨.ieeeBinary64, 0x4000000000000000, 0⟩) := by
  refine ⟨by decide, ?_⟩
  have two : FloatValue.IsFinite ⟨.ieeeBinary64, 0x4000000000000000, 0⟩ := .inr (.inr (by decide))
  have minusFiveAndHalf : FloatValue.IsFinite ⟨.ieeeBinary64, 0xc016000000000000, 0⟩ :=
    .inr (.inr (by decide))
  exact (binary_modulo_isRemainder (by rfl) minusFiveAndHalf two
    (two.toRat_ne_zero (by decide)) {}).1

end Remainder

end Aburi.Numeric
