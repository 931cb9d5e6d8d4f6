import Aburi.Numeric.CorrectRounding

/-!
# Rounding a rational

The routine estimates the exponent of the exact number from bit widths, divides
once and rounds the quotient.  At every boundary the result is the correctly
rounded value of the number.
-/

namespace Aburi.Numeric

open Aburi.Lib Nat Bool

theorem scaledBelow_iff (lhs rhs : ℕ) :
    scaledBelow lhs rhs = true ↔ (lhs : ℚ) < rhs * 2 ^ ((lhs.size : ℤ) - rhs.size) := by
  rw [scaledBelow]
  generalize (lhs.size : ℤ) - rhs.size = shift
  split
  case isTrue left =>
    obtain ⟨count, rfl⟩ : ∃ count : ℕ, shift = -count := ⟨(-shift).toNat, by omega⟩
    have positive : (0 : ℚ) < 2 ^ count := by positivity
    rw [decide_eq_true_iff, neg_neg, Int.toNat_natCast, shiftLeft_eq, zpow_neg,
      zpow_natCast, ← div_eq_mul_inv, lt_div_iff₀ positive]
    exact_mod_cast Iff.rfl
  case isFalse right =>
    obtain ⟨count, rfl⟩ : ∃ count : ℕ, shift = count := ⟨shift.toNat, by omega⟩
    rw [decide_eq_true_iff, Int.toNat_natCast, shiftLeft_eq, zpow_natCast]
    exact_mod_cast Iff.rfl

theorem size_bounds {number : ℕ} (positive : 0 < number) :
    (2 : ℚ) ^ ((number.size : ℤ) - 1) ≤ number ∧ (number : ℚ) < 2 ^ (number.size : ℤ) := by
  have sizePos : 0 < number.size := Nat.size_pos.mpr positive
  constructor
  · obtain ⟨bits, isSize⟩ : ∃ bits, number.size = bits + 1 := ⟨number.size - 1, by omega⟩
    have lower : 2 ^ bits ≤ number := Nat.lt_size.mp (by omega)
    rw [isSize]
    push_cast
    rw [add_sub_cancel_right, zpow_natCast]
    exact_mod_cast lower
  · rw [zpow_natCast]
    exact_mod_cast lt_size_self number

/-- The exponent of the leading bit of a quotient. -/
def leadingExponent (numerator denominator : ℕ) : ℤ :=
  (numerator.size : ℤ) - denominator.size - if scaledBelow numerator denominator then 1 else 0

theorem leadingExponent_bounds {numerator denominator : ℕ} (numeratorPos : 0 < numerator)
    (denominatorPos : 0 < denominator) :
    (2 : ℚ) ^ leadingExponent numerator denominator ≤ numerator / denominator ∧
      (numerator : ℚ) / denominator < 2 ^ (leadingExponent numerator denominator + 1) := by
  have below := scaledBelow_iff numerator denominator
  obtain ⟨numeratorLow, numeratorHigh⟩ := size_bounds numeratorPos
  obtain ⟨denominatorLow, denominatorHigh⟩ := size_bounds denominatorPos
  have positive : (0 : ℚ) < denominator := by exact_mod_cast denominatorPos
  rw [leadingExponent, le_div_iff₀ positive, div_lt_iff₀ positive]
  split
  case isTrue isBelow =>
    constructor
    · calc (2 : ℚ) ^ ((numerator.size : ℤ) - denominator.size - 1) * denominator
          ≤ 2 ^ ((numerator.size : ℤ) - denominator.size - 1) * 2 ^ (denominator.size : ℤ) :=
            mul_le_mul_of_nonneg_left denominatorHigh.le (two_zpow_pos _).le
        _ = 2 ^ ((numerator.size : ℤ) - 1) := by
            rw [← zpow_add₀ (by norm_num)]
            congr 1
            ring
        _ ≤ numerator := numeratorLow
    · rw [sub_add_cancel, mul_comm]
      exact below.mp isBelow
  case isFalse notBelow =>
    rw [sub_zero]
    constructor
    · rw [mul_comm]
      exact not_lt.mp (mt below.mpr notBelow)
    · calc (numerator : ℚ) < 2 ^ (numerator.size : ℤ) := numeratorHigh
        _ = 2 ^ ((numerator.size : ℤ) - denominator.size + 1) *
              2 ^ ((denominator.size : ℤ) - 1) := by
            rw [← zpow_add₀ (by norm_num)]
            congr 1
            ring
        _ ≤ 2 ^ ((numerator.size : ℤ) - denominator.size + 1) * denominator :=
            mul_le_mul_of_nonneg_left denominatorLow (two_zpow_pos _).le

/-- The number as a quotient in units, with what the division leaves. -/
theorem scaled_division (numerator : ℕ) {denominator : ℕ} (positive : 0 < denominator)
    (shift : ℤ) :
    let effectiveNumerator := if 0 ≤ shift then numerator <<< shift.toNat else numerator
    let effectiveDenominator :=
      if 0 ≤ shift then denominator else denominator <<< (-shift).toNat
    0 < effectiveDenominator ∧
      (numerator : ℚ) / denominator * 2 ^ shift =
        ((effectiveNumerator / effectiveDenominator : ℕ) : ℚ) +
          ((effectiveNumerator % effectiveDenominator : ℕ) : ℚ) / effectiveDenominator := by
  intro effectiveNumerator effectiveDenominator
  have isPositive : 0 < effectiveDenominator := by
    simp only [effectiveDenominator]
    split
    · exact positive
    · rw [shiftLeft_eq]
      exact Nat.mul_pos positive (Nat.two_pow_pos _)
  refine ⟨isPositive, ?_⟩
  have split : (numerator : ℚ) / denominator * 2 ^ shift =
      effectiveNumerator / effectiveDenominator := by
    simp only [effectiveNumerator, effectiveDenominator]
    split
    case isTrue left =>
      obtain ⟨count, rfl⟩ : ∃ count : ℕ, shift = count := ⟨shift.toNat, by omega⟩
      rw [Int.toNat_natCast, shiftLeft_eq, zpow_natCast]
      push_cast
      ring
    case isFalse right =>
      obtain ⟨count, rfl⟩ : ∃ count : ℕ, shift = -count := ⟨(-shift).toNat, by omega⟩
      rw [neg_neg, Int.toNat_natCast, shiftLeft_eq, zpow_neg, zpow_natCast]
      push_cast
      rw [div_mul_eq_div_div, div_eq_mul_inv _ ((2 : ℚ) ^ count)]
  have nonzero : (effectiveDenominator : ℚ) ≠ 0 := by exact_mod_cast isPositive.ne'
  rw [split, eq_comm, add_div' _ _ _ nonzero]
  congr 1
  exact_mod_cast div_add_mod' effectiveNumerator effectiveDenominator

/-- What the routine returns for a quotient in units and its remainder. -/
def roundedResult (negative : Bool) (format : FloatFormat) (fmt : FloatFormatDescriptor)
    (control : FloatControl) (exponent : ℤ) (quotient remainder denominator : ℕ) :
    FloatResult :=
  let tinyBefore := decide (exponent < fmt.minNormalExponent)
  let inexact := remainder != 0
  let rounded :=
    if inexact && roundsUp control negative quotient remainder denominator
    then quotient + 1 else quotient
  let normalLimit := 2 ^ fmt.precision
  let minimumNormal := 2 ^ (fmt.precision - 1)
  let carried := !tinyBefore && decide (normalLimit ≤ rounded)
  let significand := if carried then rounded / 2 else rounded
  let normal := !tinyBefore || decide (minimumNormal ≤ rounded)
  let exponent :=
    if carried then exponent + 1
    else if tinyBefore && decide (minimumNormal ≤ rounded) then fmt.minNormalExponent
    else exponent
  if normal && decide (fmt.maxNormalExponent < exponent) then
    overflowResult format negative control
  else
    let raw :=
      if normal then
        let stored :=
          if fmt.explicitIntegerBit then BitVec.ofNat 128 significand
          else BitVec.ofNat 128 significand &&& BitVec.ofNat 128 (minimumNormal - 1)
        signBits negative fmt |||
          BitVec.ofInt 128 (exponent + fmt.exponentBias) <<< fmt.significandStorageBits ||| stored
      else signBits negative fmt ||| BitVec.ofNat 128 significand
    let tiny := if control.tininess = .beforeRounding then tinyBefore else !normal
    { value := fromRaw format raw
      status := { inexact, underflow := inexact && tiny } }

section Rounded

variable {format : FloatFormat} {fmt : FloatFormatDescriptor} (negative : Bool)
  (control : FloatControl)

theorem roundRational_eq (known : descriptor format = some fmt) {numerator denominator : ℕ}
    (numeratorPos : 0 < numerator) (denominatorPos : 0 < denominator) (binaryExponent : ℤ)
    {exponent : ℤ} (isExponent : leadingExponent numerator denominator + binaryExponent = exponent) :
    roundRational negative numerator denominator binaryExponent format control =
      if fmt.maxNormalExponent + 1 < exponent then overflowResult format negative control
      else if exponent < fmt.lowestExponent - 1 then tinyNonzeroResult format negative control
      else
        let shift := binaryExponent - if decide (exponent < fmt.minNormalExponent) then
          fmt.lowestExponent else exponent - (fmt.precision - 1)
        let effectiveNumerator := if 0 ≤ shift then numerator <<< shift.toNat else numerator
        let effectiveDenominator :=
          if 0 ≤ shift then denominator else denominator <<< (-shift).toNat
        roundedResult negative format fmt control exponent
          (effectiveNumerator / effectiveDenominator) (effectiveNumerator % effectiveDenominator)
          effectiveDenominator := by
  obtain rfl : (numerator.size : ℤ) - denominator.size + binaryExponent -
      (if scaledBelow numerator denominator then 1 else 0) = exponent := by
    rw [← isExponent, leadingExponent]
    ring
  unfold roundRational
  simp -zeta only [known, numeratorPos.ne', denominatorPos.ne', if_false]
  rfl

variable {control} in
theorem roundsUp_iff {quotient remainder denominator : ℕ} (positive : 0 < denominator) :
    roundsUp control negative quotient remainder denominator = true ↔
      RoundsAway control.rounding negative quotient ((remainder : ℚ) / denominator) := by
  have isPositive : (0 : ℚ) < denominator := by exact_mod_cast positive
  have more : 1 / 2 < (remainder : ℚ) / denominator ↔ denominator < 2 * remainder := by
    rw [lt_div_iff₀ isPositive]
    constructor
    · intro half
      have : (denominator : ℚ) < 2 * remainder := by linarith
      exact_mod_cast this
    · intro half
      have : (denominator : ℚ) < 2 * remainder := by exact_mod_cast half
      linarith
  have atLeast : 1 / 2 ≤ (remainder : ℚ) / denominator ↔ denominator ≤ 2 * remainder := by
    rw [le_div_iff₀ isPositive]
    constructor
    · intro half
      have : (denominator : ℚ) ≤ 2 * remainder := by linarith
      exact_mod_cast this
    · intro half
      have : (denominator : ℚ) ≤ 2 * remainder := by exact_mod_cast half
      linarith
  have middle : (remainder : ℚ) / denominator = 1 / 2 ↔ 2 * remainder = denominator := by
    constructor
    · intro half
      have low := atLeast.mp half.ge
      have high := mt more.mpr (not_lt.mpr half.le)
      omega
    · intro half
      have low := atLeast.mpr half.ge
      have high := mt more.mp (not_lt.mpr half.le)
      exact le_antisymm (not_lt.mp high) low
  unfold roundsUp RoundsAway
  cases control.rounding with
  | nearestTiesToEven =>
    simp only [or_eq_true, and_eq_true, decide_eq_true_iff, beq_iff_eq, more, middle,
      odd_iff]
  | nearestTiesAway => simp only [decide_eq_true_iff, atLeast]
  | towardZero | towardPositive | towardNegative => simp

theorem overflow_above (known : descriptor format = some fmt) {magnitude : ℚ}
    (positive : 0 < magnitude) (zeroNegative : Bool)
    (above : 2 ^ (fmt.precision + fmt.highestExponent) ≤ magnitude) :
    CorrectlyRounded format fmt control.rounding (signed negative magnitude) zeroNegative
      (overflowResult format negative control) := by
  apply overflowResult_correct known negative control zeroNegative positive
  · intro other member
    exact (grid_lt member).trans_le above
  · intro _
    refine le_trans ?_ above
    rw [overflowThreshold, zpow_sub_one₀ (by norm_num), pow_succ, zpow_add₀ (by norm_num),
      zpow_natCast]
    nlinarith [two_zpow_pos fmt.highestExponent]

end Rounded

/-- A magnitude divided into units. -/
structure Divided (fmt : FloatFormatDescriptor) (magnitude : ℚ) (unit : ℤ)
    (quotient remainder denominator : ℕ) : Prop where
  isMagnitude : magnitude = (quotient + remainder / denominator) * 2 ^ unit
  positive : 0 < magnitude
  below : remainder < denominator
  atLeast : fmt.lowestExponent ≤ unit
  small : quotient < 2 ^ fmt.precision
  fine : unit = fmt.lowestExponent ∨ 2 ^ fmt.precision ≤ 2 * quotient

namespace Divided

variable {format : FloatFormat} {fmt : FloatFormatDescriptor} {negative : Bool}
  {control : FloatControl} {magnitude : ℚ} {unit : ℤ} {quotient remainder denominator : ℕ}
  (divided : Divided fmt magnitude unit quotient remainder denominator)

include divided

theorem between (inexact : remainder ≠ 0) (atMost : unit ≤ fmt.highestExponent) :
    Between fmt magnitude quotient ((remainder : ℚ) / denominator) unit := by
  have below := divided.below
  have denominatorPos : (0 : ℚ) < denominator := by exact_mod_cast (by omega : 0 < denominator)
  have remainderPos : (0 : ℚ) < remainder := by
    exact_mod_cast Nat.pos_of_ne_zero inexact
  refine ⟨divided.isMagnitude, div_pos remainderPos denominatorPos, ?_, divided.atLeast, atMost,
    divided.small, divided.fine⟩
  rw [div_lt_one denominatorPos]
  exact_mod_cast below

theorem lower_le : (quotient : ℚ) * 2 ^ unit ≤ magnitude := by
  have part : (0 : ℚ) ≤ (remainder : ℚ) / denominator := by positivity
  rw [divided.isMagnitude]
  exact mul_le_mul_of_nonneg_right (by linarith) (two_zpow_pos unit).le

variable (known : descriptor format = some fmt)

include known

/-- An encoding of the rounded quotient is the correctly rounded value. -/
theorem correct_of_stands {count : ℕ} {countUnit : ℤ} {value : FloatValue} {underflow : Bool}
    (stands : Stands format negative count countUnit value) {rounded : ℕ}
    (isRounded : rounded = if (remainder != 0) &&
      roundsUp control negative quotient remainder denominator then quotient + 1 else quotient)
    (same : (count : ℚ) * 2 ^ countUnit = rounded * 2 ^ unit)
    (parity : Even rounded → Even count) (atMost : unit ≤ fmt.highestExponent)
    (inside : rounded = quotient + 1 →
      quotient + 1 < 2 ^ fmt.precision ∨ unit < fmt.highestExponent) (zeroNegative : Bool) :
    CorrectlyRounded format fmt control.rounding (signed negative magnitude) zeroNegative
      { value, status := { underflow, inexact := remainder != 0 } } := by
  have below := divided.below
  have positive := divided.positive
  have isValue : value.toRat = signed negative (rounded * 2 ^ unit) := by
    rw [stands.toRat, same]
  have sign : (decode value).negative = if signed negative magnitude = 0 then zeroNegative
      else decide (signed negative magnitude < 0) := by
    rw [sign_signed negative positive, stands.sign]
  by_cases isExact : remainder = 0
  · have isQuotient : rounded = quotient := by simp [isRounded, isExact]
    have number : value.toRat = signed negative magnitude := by
      rw [isValue, divided.isMagnitude, isExact, isQuotient]
      congr 1
      push_cast
      ring
    refine ⟨rfl, stands.semantics, stands.canonical, ?_, sign, ?_⟩
    · rw [← number]
      exact roundsTo_exact known stands.semantics stands.finite control.rounding
    · simp [isExact, stands.finite, number]
  · have between := divided.between isExact atMost
    have up := @roundsUp_iff negative control quotient remainder denominator (by omega)
    have differs : (rounded : ℚ) * 2 ^ unit ≠ magnitude := by
      rw [isRounded]
      split
      · push_cast
        exact between.below.ne'
      · exact between.above.ne
    have number : value.toRat ≠ signed negative magnitude := by
      rw [isValue, signed, signed]
      intro equal
      apply differs
      split at equal <;> linarith
    refine ⟨rfl, stands.semantics, stands.canonical, ?_, sign, ?_⟩
    · by_cases away : roundsUp control negative quotient remainder denominator = true
      · have isUpper : rounded = quotient + 1 := by simp [isRounded, isExact, away]
        refine between.rounds_up known stands.semantics stands.finite ?_ (inside isUpper) ?_
          (up.mp away)
        · rw [isValue, isUpper]
          push_cast
          rfl
        · intro odd
          rw [stands.significand]
          apply parity
          rw [isUpper]
          exact odd.add_one
      · have isLower : rounded = quotient := by simp [isRounded, away]
        refine between.rounds_down known stands.semantics stands.finite ?_ ?_ (mt up.mpr away)
        · rw [isValue, isLower]
        · intro even
          rw [stands.significand]
          apply parity
          rwa [isLower]
    · simp [isExact, number]

theorem overflow_carry (zeroNegative : Bool) (highest : unit = fmt.highestExponent)
    (last : quotient + 1 = 2 ^ fmt.precision) (inexact : remainder ≠ 0)
    (away : roundsUp control negative quotient remainder denominator = true) :
    CorrectlyRounded format fmt control.rounding (signed negative magnitude) zeroNegative
      (overflowResult format negative control) := by
  have below := divided.below
  have between := divided.between inexact highest.le
  have isAway := (roundsUp_iff negative (by omega)).mp away
  have outside : ¬ (quotient + 1 < 2 ^ fmt.precision ∨ unit < fmt.highestExponent) := by omega
  apply overflowResult_correct known negative control zeroNegative divided.positive
  · intro other member
    rcases between.neighbours.gap other member with low | high
    · exact low.trans_lt between.above
    · have bound := grid_lt member
      have isTop : ((quotient : ℚ) + 1) * 2 ^ unit = 2 ^ (fmt.precision + fmt.highestExponent) := by
        have cast : ((quotient : ℚ) + 1) = 2 ^ fmt.precision := by exact_mod_cast last
        rw [cast, highest, zpow_add₀ (by norm_num), zpow_natCast]
      linarith
  · intro nearest
    have half : 1 / 2 ≤ (remainder : ℚ) / denominator := by
      rcases nearest with isEven | isAwayMode
      · rw [isEven] at isAway
        rcases isAway with more | ⟨middle, -⟩
        · exact more.le
        · exact middle.ge
      · rw [isAwayMode] at isAway
        exact isAway
    rw [(between.threshold_eq known outside).1, divided.isMagnitude]
    exact mul_le_mul_of_nonneg_right (by linarith) (two_zpow_pos unit).le

theorem normal_correct (zeroNegative : Bool) {exponent : ℤ}
    (isUnit : unit = exponent - (fmt.precision - 1))
    (normal : fmt.minNormalExponent ≤ exponent) (atMost : exponent ≤ fmt.maxNormalExponent + 1)
    (leading : 2 ^ (fmt.precision - 1) ≤ quotient) :
    CorrectlyRounded format fmt control.rounding (signed negative magnitude) zeroNegative
      (roundedResult negative format fmt control exponent quotient remainder denominator) := by
  have facts := formatFacts known
  have precision := facts.precision
  have small := divided.small
  have double := precision_pow known
  have highest : fmt.highestExponent = fmt.maxNormalExponent - (fmt.precision - 1) := rfl
  have notTiny : decide (exponent < fmt.minNormalExponent) = false :=
    decide_eq_false (not_lt.mpr normal)
  simp only [roundedResult, notTiny, Bool.not_false, Bool.true_and, Bool.true_or, if_true,
    Bool.false_and, false_eq_true, if_false, decide_eq_true_iff]
  generalize isRounded : (if ((remainder != 0) &&
    roundsUp control negative quotient remainder denominator) = true
      then quotient + 1 else quotient) = rounded
  have range : rounded = quotient ∨ rounded = quotient + 1 := by
    rw [← isRounded]
    exact (ite_eq_or_eq _ _ _).symm
  have beyond : fmt.maxNormalExponent < exponent →
      CorrectlyRounded format fmt control.rounding (signed negative magnitude) zeroNegative
        (overflowResult format negative control) := by
    intro past
    apply overflow_above negative control known divided.positive
    refine le_trans ?_ divided.lower_le
    have leading' : (2 : ℚ) ^ (fmt.precision - 1) ≤ quotient := by exact_mod_cast leading
    calc (2 : ℚ) ^ (fmt.precision + fmt.highestExponent)
        = 2 ^ (fmt.precision - 1) * 2 ^ unit := by
          rw [← zpow_natCast, ← zpow_add₀ (by norm_num)]
          congr 1
          rw [cast_sub (by omega)]
          push_cast
          omega
      _ ≤ quotient * 2 ^ unit := mul_le_mul_of_nonneg_right leading' (two_zpow_pos unit).le
  by_cases carry : 2 ^ fmt.precision ≤ rounded
  · simp only [carry, if_true]
    have isFull : rounded = 2 ^ fmt.precision := by omega
    have halved : rounded / 2 = 2 ^ (fmt.precision - 1) := by omega
    by_cases overflows : fmt.maxNormalExponent < exponent + 1
    · rw [if_pos overflows]
      by_cases past : fmt.maxNormalExponent < exponent
      · exact beyond past
      · have increments : ((remainder != 0) &&
            roundsUp control negative quotient remainder denominator) = true := by
          by_contra stays
          rw [if_neg stays] at isRounded
          omega
        rw [and_eq_true, bne_iff_ne] at increments
        exact divided.overflow_carry known zeroNegative (by omega) (by omega) increments.1
          increments.2
    · rw [if_neg overflows]
      have stands := @stands_normal _ _ known negative (exponent + 1)
        (rounded / 2) (by omega) (by omega) (by omega) (by omega)
      refine divided.correct_of_stands known stands isRounded.symm ?_ ?_ (by omega)
        (fun _ => .inr (by omega)) zeroNegative
      · have twice : (rounded : ℚ) = (rounded / 2 : ℕ) * 2 := by
          have : rounded = rounded / 2 * 2 := by omega
          exact_mod_cast this
        rw [isUnit, add_sub_right_comm, zpow_add_one₀ (by norm_num), twice]
        ring
      · intro _
        rw [halved, even_pow]
        exact ⟨even_two, by omega⟩
  · simp only [carry, if_false]
    by_cases overflows : fmt.maxNormalExponent < exponent
    · rw [if_pos overflows]
      exact beyond overflows
    · rw [if_neg overflows]
      have stands := @stands_normal _ _ known negative exponent
        rounded (by omega) (by omega) (by omega) (by omega)
      refine divided.correct_of_stands known stands isRounded.symm ?_ id (by omega)
        (fun isUpper => .inl (by omega)) zeroNegative
      rw [isUnit]

theorem subnormal_correct (zeroNegative : Bool) {exponent : ℤ}
    (isUnit : unit = fmt.lowestExponent) (tiny : exponent < fmt.minNormalExponent)
    (below : quotient < 2 ^ (fmt.precision - 1)) :
    CorrectlyRounded format fmt control.rounding (signed negative magnitude) zeroNegative
      (roundedResult negative format fmt control exponent quotient remainder denominator) := by
  have facts := formatFacts known
  have precision := facts.precision
  have double := precision_pow known
  have ends := facts.lowest_le_highest
  have bias := facts.bias_pos
  have maxNormal := facts.maxNormal
  have storage := facts.significand
  have lowest : fmt.lowestExponent = fmt.minNormalExponent - (fmt.precision - 1) := rfl
  have minNormal : fmt.minNormalExponent = 1 - fmt.exponentBias := rfl
  have isTiny : decide (exponent < fmt.minNormalExponent) = true := decide_eq_true tiny
  simp only [roundedResult, isTiny, Bool.not_true, Bool.false_and, Bool.false_or,
    Bool.true_and, false_eq_true, if_false, decide_eq_true_iff]
  generalize isRounded : (if ((remainder != 0) &&
    roundsUp control negative quotient remainder denominator) = true
      then quotient + 1 else quotient) = rounded
  have range : rounded = quotient ∨ rounded = quotient + 1 := by
    rw [← isRounded]
    exact (ite_eq_or_eq _ _ _).symm
  by_cases carry : 2 ^ (fmt.precision - 1) ≤ rounded
  · simp only [carry, decide_true, if_true, Bool.true_and, decide_eq_true_iff]
    rw [if_neg (by omega)]
    have stands := @stands_normal _ _ known negative fmt.minNormalExponent
      rounded (le_refl _) (by omega) carry (by omega)
    refine divided.correct_of_stands known stands isRounded.symm ?_ id (by omega)
      (fun _ => .inl (by omega)) zeroNegative
    rw [isUnit, lowest]
  · simp only [carry, decide_false, Bool.false_and, false_eq_true, if_false]
    have fits : rounded < 2 ^ fmt.significandStorageBits := by
      rw [storage]
      split <;> omega
    have stands := stands_subnormal known negative fits
    refine divided.correct_of_stands known stands isRounded.symm ?_ id (by omega)
      (fun _ => .inl (by omega)) zeroNegative
    rw [isUnit]

end Divided

theorem roundRational_zero {format : FloatFormat} {fmt : FloatFormatDescriptor}
    (known : descriptor format = some fmt) (negative : Bool) (denominator : ℕ)
    (binaryExponent : ℤ) (control : FloatControl) :
    roundRational negative 0 denominator binaryExponent format control =
      { value := zero format negative } := by
  simp [roundRational, known]

/-- A magnitude divided into the units of its exponent. -/
structure DividedAt (fmt : FloatFormatDescriptor) (magnitude : ℚ) (exponent unit : ℤ)
    (quotient remainder denominator : ℕ) : Prop where
  divided : Divided fmt magnitude unit quotient remainder denominator
  atLeast : 2 ^ exponent ≤ magnitude
  below : magnitude < 2 ^ (exponent + 1)
  place : exponent < fmt.minNormalExponent ∧ unit = fmt.lowestExponent ∧
      quotient < 2 ^ (fmt.precision - 1) ∨
    fmt.minNormalExponent ≤ exponent ∧ exponent ≤ fmt.maxNormalExponent + 1 ∧
      unit = exponent - (fmt.precision - 1) ∧ 2 ^ (fmt.precision - 1) ≤ quotient

section

variable {format : FloatFormat} {fmt : FloatFormatDescriptor} (known : descriptor format = some fmt)
include known

theorem roundRational_cases (negative : Bool) {numerator denominator : ℕ}
    (numeratorPos : 0 < numerator) (denominatorPos : 0 < denominator) (binaryExponent : ℤ)
    (control : FloatControl) {magnitude : ℚ}
    (isMagnitude : (numerator : ℚ) / denominator * 2 ^ binaryExponent = magnitude)
    {result : FloatResult}
    (isResult : roundRational negative numerator denominator binaryExponent format control =
      result) :
    2 ^ (fmt.maxNormalExponent + 2) ≤ magnitude ∧ result = overflowResult format negative control ∨
      0 < magnitude ∧ magnitude < 2 ^ (fmt.lowestExponent - 1) ∧
        result = tinyNonzeroResult format negative control ∨
      ∃ exponent unit quotient remainder divisor,
        DividedAt fmt magnitude exponent unit quotient remainder divisor ∧
          result = roundedResult negative format fmt control exponent quotient remainder
            divisor := by
  have precision := (formatFacts known).precision
  have lowest : fmt.lowestExponent = fmt.minNormalExponent - (fmt.precision - 1) := rfl
  have double := precision_pow known
  obtain ⟨low, high⟩ := leadingExponent_bounds numeratorPos denominatorPos
  obtain ⟨exponent, isExponent⟩ : ∃ exponent,
    leadingExponent numerator denominator + binaryExponent = exponent := ⟨_, rfl⟩
  rw [roundRational_eq negative control known numeratorPos denominatorPos _ isExponent] at isResult
  simp only [decide_eq_true_iff] at isResult
  have atLeast : (2 : ℚ) ^ exponent ≤ magnitude := by
    rw [← isMagnitude, ← isExponent, zpow_add₀ (by norm_num)]
    exact mul_le_mul_of_nonneg_right low (two_zpow_pos _).le
  have below : magnitude < 2 ^ (exponent + 1) := by
    rw [← isMagnitude, ← isExponent, add_right_comm, zpow_add₀ (by norm_num)]
    exact mul_lt_mul_of_pos_right high (two_zpow_pos _)
  have positive : 0 < magnitude := (two_zpow_pos exponent).trans_le atLeast
  split at isResult
  case isTrue huge =>
    left
    exact ⟨le_trans (zpow_le_zpow_right₀ (by norm_num) (by omega)) atLeast, isResult.symm⟩
  case isFalse notHuge =>
    right
    split at isResult
    case isTrue tiny =>
      left
      refine ⟨positive, ?_, isResult.symm⟩
      exact below.trans_le (zpow_le_zpow_right₀ (by norm_num) (by omega))
    case isFalse notTiny =>
      right
      generalize isUnit : (if exponent < fmt.minNormalExponent then fmt.lowestExponent
        else exponent - (fmt.precision - 1)) = unit at isResult
      have inUnits := scaled_division numerator denominatorPos (binaryExponent - unit)
      dsimp only at inUnits
      generalize (if 0 ≤ binaryExponent - unit then
        numerator <<< (binaryExponent - unit).toNat else numerator) = dividend
        at inUnits isResult
      generalize (if 0 ≤ binaryExponent - unit then denominator
        else denominator <<< (-(binaryExponent - unit)).toNat) = divisor at inUnits isResult
      obtain ⟨divisorPos, quotientEq⟩ := inUnits
      have inUnits : magnitude = (((dividend / divisor : ℕ) : ℚ) +
          ((dividend % divisor : ℕ) : ℚ) / divisor) * 2 ^ unit := by
        rw [← quotientEq, mul_assoc, ← zpow_add₀ (by norm_num), sub_add_cancel, isMagnitude]
      have remainderLt := mod_lt dividend divisorPos
      have part : (0 : ℚ) ≤ ((dividend % divisor : ℕ) : ℚ) / divisor ∧
          ((dividend % divisor : ℕ) : ℚ) / divisor < 1 := by
        constructor
        · positivity
        · rw [div_lt_one (by exact_mod_cast divisorPos)]
          exact_mod_cast remainderLt
      generalize dividend / divisor = quotient at inUnits isResult
      generalize dividend % divisor = remainder at inUnits remainderLt part isResult
      -- the leading bit of the quotient
      have quotientLt : ∀ bits : ℕ, magnitude < 2 ^ (unit + bits) → quotient < 2 ^ bits := by
        intro bits bound
        rw [inUnits, zpow_add₀ (by norm_num), mul_comm,
          mul_lt_mul_iff_right₀ (two_zpow_pos unit), zpow_natCast] at bound
        have cast : (quotient : ℚ) < 2 ^ bits := by linarith
        exact_mod_cast cast
      have leQuotient : ∀ bits : ℕ, 2 ^ (unit + bits) ≤ magnitude → 2 ^ bits ≤ quotient := by
        intro bits bound
        rw [inUnits, zpow_add₀ (by norm_num), mul_comm ((quotient : ℚ) + _),
          mul_le_mul_iff_right₀ (two_zpow_pos unit), zpow_natCast] at bound
        have cast : (2 : ℚ) ^ bits < (quotient : ℚ) + 1 := by linarith
        exact Nat.lt_succ_iff.mp (by exact_mod_cast cast)
      have places : ∀ shifted : ℤ, unit + (fmt.precision - 1 : ℕ) = shifted ↔
          unit = shifted - (fmt.precision - 1) := by
        intro shifted
        rw [cast_sub (by omega)]
        push_cast
        omega
      refine ⟨exponent, unit, quotient, remainder, divisor, ?_, isResult.symm⟩
      by_cases tinyBefore : exponent < fmt.minNormalExponent
      · rw [if_pos tinyBefore] at isUnit
        have small : quotient < 2 ^ (fmt.precision - 1) := by
          apply quotientLt
          rw [(places fmt.minNormalExponent).mpr (by omega)]
          exact below.trans_le (zpow_le_zpow_right₀ (by norm_num) (by omega))
        exact ⟨⟨inUnits, positive, remainderLt, isUnit.le, by omega, .inl isUnit.symm⟩,
          atLeast, below, .inl ⟨tinyBefore, isUnit.symm, small⟩⟩
      · rw [if_neg tinyBefore] at isUnit
        have small : quotient < 2 ^ fmt.precision := by
          apply quotientLt
          exact below.trans_le (zpow_le_zpow_right₀ (by norm_num) (by omega))
        have leading : 2 ^ (fmt.precision - 1) ≤ quotient := by
          apply leQuotient
          rw [(places exponent).mpr (by omega)]
          exact atLeast
        exact ⟨⟨inUnits, positive, remainderLt, by omega, small, .inr (by omega)⟩,
          atLeast, below, .inr ⟨by omega, by omega, isUnit.symm, leading⟩⟩

theorem roundRational_correct (negative zeroNegative : Bool) {numerator denominator : ℕ}
    (numeratorPos : 0 < numerator) (denominatorPos : 0 < denominator) (binaryExponent : ℤ)
    (control : FloatControl) :
    CorrectlyRounded format fmt control.rounding
      (signed negative ((numerator : ℚ) / denominator * 2 ^ binaryExponent)) zeroNegative
      (roundRational negative numerator denominator binaryExponent format control) := by
  have highest : fmt.highestExponent = fmt.maxNormalExponent - (fmt.precision - 1) := rfl
  rcases roundRational_cases known negative numeratorPos denominatorPos binaryExponent control
    rfl rfl with ⟨huge, isResult⟩ | ⟨positive, tiny, isResult⟩ |
      ⟨exponent, unit, quotient, remainder, divisor, divides, isResult⟩
  · rw [isResult]
    apply overflow_above negative control known ((two_zpow_pos _).trans_le huge)
    exact le_trans (zpow_le_zpow_right₀ (by norm_num) (by omega)) huge
  · rw [isResult]
    exact tinyNonzeroResult_correct known negative control zeroNegative positive tiny
  · rw [isResult]
    rcases divides.place with ⟨tinyBefore, isUnit, small⟩ | ⟨normal, atMost, isUnit, leading⟩
    · exact divides.divided.subnormal_correct known zeroNegative isUnit tinyBefore small
    · exact divides.divided.normal_correct known zeroNegative isUnit normal atMost leading

end

end Aburi.Numeric
