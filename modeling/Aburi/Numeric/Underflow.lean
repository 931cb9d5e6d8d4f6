import Aburi.Numeric.RoundRational
import Mathlib.Data.Int.Log
import Mathlib.Data.Rat.Floor

/-!
# Underflow

Tininess after rounding looks at the number rounded to the precision of the
format with every exponent allowed.  The routine looks at the number rounded to
the last place of the subnormal values, which is coarser: a number just below
the smallest normal value can be carried up to it by the coarser rounding alone.
-/

namespace Aburi.Numeric

open Aburi.Lib Int

open Classical in
/-- A magnitude rounded to `precision` bits as if every exponent existed. -/
noncomputable def roundedUnbounded (precision : ℕ) (rounding : RoundingMode) (negative : Bool)
    (magnitude : ℚ) : ℚ :=
  let unit := log 2 magnitude - (precision - 1)
  let count := ⌊magnitude / 2 ^ unit⌋₊
  let part := fract (magnitude / 2 ^ unit)
  (if part ≠ 0 ∧ RoundsAway rounding negative count part then count + 1 else count : ℕ) * 2 ^ unit

def Tiny (fmt : FloatFormatDescriptor) (control : FloatControl) (negative : Bool)
    (magnitude : ℚ) : Prop :=
  match control.tininess with
  | .beforeRounding => magnitude < 2 ^ fmt.minNormalExponent
  | .afterRounding =>
    roundedUnbounded fmt.precision control.rounding negative magnitude < 2 ^ fmt.minNormalExponent

def ReportsUnderflow (fmt : FloatFormatDescriptor) (control : FloatControl) (negative : Bool)
    (magnitude : ℚ) (result : FloatResult) : Prop :=
  result.status.underflow = true ↔
    ¬ (result.value.IsFinite ∧ result.value.toRat = signed negative magnitude) ∧
      Tiny fmt control negative magnitude

/-- A magnitude below `2 ^ bound` is rounded up to it in units of `2 ^ unit`. -/
def RoundsUpTo (rounding : RoundingMode) (negative : Bool) (bound unit : ℤ) (magnitude : ℚ) :
    Prop :=
  match rounding with
  | .nearestTiesToEven | .nearestTiesAway => 2 ^ bound - 2 ^ (unit - 1) ≤ magnitude
  | .towardZero => False
  | .towardPositive => negative = false ∧ 2 ^ bound - 2 ^ unit < magnitude
  | .towardNegative => negative = true ∧ 2 ^ bound - 2 ^ unit < magnitude

/-- The last place of the subnormal values carries the magnitude up to the
smallest normal value, and a place of half its worth does not. -/
def CarriedToNormal (fmt : FloatFormatDescriptor) (rounding : RoundingMode) (negative : Bool)
    (magnitude : ℚ) : Prop :=
  magnitude < 2 ^ fmt.minNormalExponent ∧
    RoundsUpTo rounding negative fmt.minNormalExponent fmt.lowestExponent magnitude ∧
    ¬ RoundsUpTo rounding negative fmt.minNormalExponent (fmt.lowestExponent - 1) magnitude

section Reaching

variable {rounding : RoundingMode} {negative : Bool} {bound unit : ℤ} {magnitude : ℚ}

theorem RoundsUpTo.above (reaches : RoundsUpTo rounding negative bound unit magnitude) :
    2 ^ bound - 2 ^ unit < magnitude := by
  have half : (2 : ℚ) ^ (unit - 1) < 2 ^ unit := zpow_lt_zpow_right₀ (by norm_num) (by omega)
  cases rounding with
  | nearestTiesToEven | nearestTiesAway =>
    have bound : (2 : ℚ) ^ bound - 2 ^ (unit - 1) ≤ magnitude := reaches
    linarith
  | towardZero => exact reaches.elim
  | towardPositive | towardNegative => exact reaches.2

theorem RoundsUpTo.coarser {fine : ℤ} (finer : fine ≤ unit)
    (reaches : RoundsUpTo rounding negative bound fine magnitude) :
    RoundsUpTo rounding negative bound unit magnitude := by
  have whole : (2 : ℚ) ^ fine ≤ 2 ^ unit := zpow_le_zpow_right₀ (by norm_num) finer
  have half : (2 : ℚ) ^ (fine - 1) ≤ 2 ^ (unit - 1) := zpow_le_zpow_right₀ (by norm_num) (by omega)
  cases rounding with
  | nearestTiesToEven | nearestTiesAway =>
    have bound : (2 : ℚ) ^ bound - 2 ^ (fine - 1) ≤ magnitude := reaches
    show (2 : ℚ) ^ _ - 2 ^ (unit - 1) ≤ magnitude
    linarith
  | towardZero => exact reaches
  | towardPositive | towardNegative =>
    obtain ⟨sign, above⟩ := reaches
    exact ⟨sign, by linarith⟩

open Classical in
theorem full_iff_roundsUpTo {bits count : ℕ} {part : ℚ} (bitsPos : 0 < bits)
    (isMagnitude : magnitude = (count + part) * 2 ^ unit) (nonneg : 0 ≤ part) (part_lt : part < 1)
    (small : count < 2 ^ bits) :
    2 ^ bits ≤ (if part ≠ 0 ∧ RoundsAway rounding negative count part then count + 1 else count) ↔
      RoundsUpTo rounding negative (unit + bits) unit magnitude := by
  have unitPos := two_zpow_pos unit
  have isBound : (2 : ℚ) ^ (unit + bits) = 2 ^ bits * 2 ^ unit := by
    rw [add_comm, zpow_add₀ (by norm_num), zpow_natCast]
  have isHalf : (2 : ℚ) ^ (unit - 1) = 1 / 2 * 2 ^ unit := by
    rw [zpow_sub_one₀ (by norm_num)]
    ring
  have whole : (2 : ℚ) ^ (unit + bits) - 2 ^ unit < magnitude ↔ (2 : ℚ) ^ bits - 1 < count + part := by
    rw [isMagnitude, isBound, ← sub_one_mul, mul_lt_mul_iff_left₀ unitPos]
  have half : (2 : ℚ) ^ (unit + bits) - 2 ^ (unit - 1) ≤ magnitude ↔
      (2 : ℚ) ^ bits - 1 / 2 ≤ count + part := by
    rw [isMagnitude, isBound, isHalf, ← sub_mul, mul_le_mul_iff_left₀ unitPos]
  by_cases last : count + 1 = 2 ^ bits
  · have cast : (2 : ℚ) ^ bits = count + 1 := by exact_mod_cast last.symm
    have odd : Odd count := by
      have even : Even (2 ^ bits) := (even_two).pow_of_ne_zero bitsPos.ne'
      rw [← last, Nat.even_add_one, Nat.not_even_iff_odd] at even
      exact even
    have increments : 2 ^ bits ≤
        (if part ≠ 0 ∧ RoundsAway rounding negative count part then count + 1 else count) ↔
          part ≠ 0 ∧ RoundsAway rounding negative count part := by
      split <;> rename_i away
      · exact iff_of_true last.ge away
      · exact iff_of_false (by omega) away
    rw [increments]
    rw [cast] at whole half
    have positive : part ≠ 0 ↔ 0 < part :=
      ⟨fun nonzero => lt_of_le_of_ne nonneg nonzero.symm, ne_of_gt⟩
    cases rounding with
    | nearestTiesToEven =>
      simp only [RoundsAway, RoundsUpTo, half, odd, and_true, ← le_iff_lt_or_eq', positive]
      constructor
      · rintro ⟨-, more⟩
        linarith
      · intro more
        exact ⟨by linarith, by linarith⟩
    | nearestTiesAway =>
      simp only [RoundsAway, RoundsUpTo, half, positive]
      constructor
      · rintro ⟨-, more⟩
        linarith
      · intro more
        exact ⟨by linarith, by linarith⟩
    | towardZero => simp [RoundsAway, RoundsUpTo]
    | towardPositive | towardNegative =>
      simp only [RoundsAway, RoundsUpTo, whole, positive]
      constructor
      · rintro ⟨more, sign⟩
        exact ⟨sign, by linarith⟩
      · rintro ⟨sign, more⟩
        exact ⟨by linarith, sign⟩
  · have room : (count : ℚ) + 2 ≤ 2 ^ bits := by
      have : count + 2 ≤ 2 ^ bits := by omega
      exact_mod_cast this
    apply iff_of_false
    · split <;> omega
    · intro reaches
      have := whole.mp reaches.above
      linarith

end Reaching

theorem roundedUnbounded_lt_iff {precision : ℕ} (precisionPos : 0 < precision)
    (rounding : RoundingMode) (negative : Bool) {magnitude : ℚ} (positive : 0 < magnitude)
    (bound : ℤ) :
    roundedUnbounded precision rounding negative magnitude < 2 ^ bound ↔
      magnitude < 2 ^ bound ∧
        ¬ RoundsUpTo rounding negative bound (bound - precision) magnitude := by
  classical
  have atLeast : (2 : ℚ) ^ log 2 magnitude ≤ magnitude :=
    zpow_log_le_self (by norm_num) positive
  have below : magnitude < (2 : ℚ) ^ (log 2 magnitude + 1) :=
    lt_zpow_succ_log_self (by norm_num) magnitude
  rw [roundedUnbounded]
  generalize log 2 magnitude = exponent at atLeast below
  generalize isUnit : exponent - ((precision : ℤ) - 1) = unit
  have unitPos := two_zpow_pos unit
  have isMagnitude : magnitude = (⌊magnitude / 2 ^ unit⌋₊ + fract (magnitude / 2 ^ unit)) *
      2 ^ unit := by
    rw [natCast_floor_eq_intCast_floor (by positivity), floor_add_fract,
      div_mul_cancel₀ _ unitPos.ne']
  have nonneg := fract_nonneg (magnitude / 2 ^ unit)
  have part_lt := fract_lt_one (magnitude / 2 ^ unit)
  generalize ⌊magnitude / 2 ^ unit⌋₊ = count at isMagnitude ⊢
  generalize fract (magnitude / 2 ^ unit) = part at isMagnitude nonneg part_lt ⊢
  have isPower : (2 : ℚ) ^ precision * 2 ^ unit = 2 ^ (exponent + 1) := by
    rw [← zpow_natCast, ← zpow_add₀ (by norm_num)]
    congr 1
    omega
  have small : count < 2 ^ precision := by
    rw [← isPower, isMagnitude, mul_lt_mul_iff_left₀ unitPos] at below
    have cast : (count : ℚ) < 2 ^ precision := by linarith
    exact_mod_cast cast
  have full := @full_iff_roundsUpTo rounding negative unit magnitude _ _ _ precisionPos
    isMagnitude nonneg part_lt small
  have isTop : unit + precision = exponent + 1 := by omega
  rw [isTop] at full
  have range : ∀ condition : Prop, [Decidable condition] →
      count ≤ (if condition then count + 1 else count) ∧
        (if condition then count + 1 else count) ≤ count + 1 := by
    intro condition _
    split <;> omega
  have rounded := range (part ≠ 0 ∧ RoundsAway rounding negative count part)
  generalize (if part ≠ 0 ∧ RoundsAway rounding negative count part then count + 1 else count) =
    result at full rounded ⊢
  have resultLe : (result : ℚ) * 2 ^ unit ≤ 2 ^ (exponent + 1) := by
    rw [← isPower]
    apply mul_le_mul_of_nonneg_right _ unitPos.le
    exact_mod_cast (by omega : result ≤ 2 ^ precision)
  rcases lt_trichotomy bound (exponent + 1) with low | same | high
  · have reached : (2 : ℚ) ^ bound ≤ 2 ^ exponent := zpow_le_zpow_right₀ (by norm_num) (by omega)
    have leading : (2 : ℚ) ^ exponent ≤ count * 2 ^ unit := by
      have isLeading : (2 : ℚ) ^ exponent = (2 ^ (precision - 1) : ℕ) * 2 ^ unit := by
        rw [Nat.cast_pow, Nat.cast_two, ← zpow_natCast, ← zpow_add₀ (by norm_num)]
        congr 1
        omega
      rw [isLeading, isMagnitude, mul_le_mul_iff_left₀ unitPos] at atLeast
      rw [isLeading, mul_le_mul_iff_left₀ unitPos]
      have cast : ((2 ^ (precision - 1) : ℕ) : ℚ) < ((count + 1 : ℕ) : ℚ) := by
        push_cast at atLeast ⊢
        linarith
      exact_mod_cast Nat.lt_succ_iff.mp (by exact_mod_cast cast)
    have grows : (count : ℚ) * 2 ^ unit ≤ result * 2 ^ unit := by
      apply mul_le_mul_of_nonneg_right _ unitPos.le
      exact_mod_cast rounded.1
    apply iff_of_false
    · linarith
    · rintro ⟨inside, -⟩
      linarith
  · subst same
    have isFine : exponent + 1 - (precision : ℤ) = unit := by omega
    rw [isFine, ← full, ← isPower, mul_lt_mul_iff_left₀ unitPos, not_le]
    have cast : (result : ℚ) < 2 ^ precision ↔ result < 2 ^ precision := by
      exact_mod_cast Iff.rfl
    rw [cast, isPower]
    exact ⟨fun inside => ⟨below, inside⟩, And.right⟩
  · have next : (2 : ℚ) ^ (exponent + 1) < 2 ^ bound := zpow_lt_zpow_right₀ (by norm_num) high
    apply iff_of_true
    · linarith
    · refine ⟨by linarith, fun reaches => ?_⟩
      have above := reaches.above
      have wide : (2 : ℚ) ^ (bound - precision) ≤ 2 ^ (bound - 1) :=
        zpow_le_zpow_right₀ (by norm_num) (by omega)
      have twice : (2 : ℚ) ^ bound = 2 ^ (bound - 1) * 2 := by
        rw [← zpow_add_one₀ (by norm_num), sub_add_cancel]
      have low : (2 : ℚ) ^ (exponent + 1) ≤ 2 ^ (bound - 1) :=
        zpow_le_zpow_right₀ (by norm_num) (by omega)
      linarith

section Routine

variable {format : FloatFormat} {fmt : FloatFormatDescriptor} {negative : Bool}
  {control : FloatControl} {magnitude : ℚ}

theorem tiny_iff (known : descriptor format = some fmt) (positive : 0 < magnitude) :
    Tiny fmt control negative magnitude ↔
      magnitude < 2 ^ fmt.minNormalExponent ∧
        (control.tininess = .beforeRounding ∨
          ¬ RoundsUpTo control.rounding negative fmt.minNormalExponent (fmt.lowestExponent - 1)
            magnitude) := by
  have precision := (formatFacts known).precision
  have finer : fmt.minNormalExponent - fmt.precision = fmt.lowestExponent - 1 := by
    rw [FloatFormatDescriptor.lowestExponent]
    ring
  have after := @roundedUnbounded_lt_iff fmt.precision (by omega) control.rounding negative _
    positive fmt.minNormalExponent
  rw [finer] at after
  cases isMode : control.tininess with
  | beforeRounding => simp [Tiny, isMode]
  | afterRounding => simp [Tiny, isMode, after]

theorem not_tiny (known : descriptor format = some fmt)
    (normal : 2 ^ fmt.minNormalExponent ≤ magnitude) :
    ¬ Tiny fmt control negative magnitude := by
  intro tiny
  have positive := (two_zpow_pos fmt.minNormalExponent).trans_le normal
  exact not_lt.mpr normal ((tiny_iff known positive).mp tiny).1

theorem not_roundsUpTo_of_small {unit : ℤ} (known : descriptor format = some fmt)
    (small : magnitude < 2 ^ (fmt.lowestExponent - 1)) (fine : unit ≤ fmt.lowestExponent) :
    ¬ RoundsUpTo control.rounding negative fmt.minNormalExponent unit magnitude := by
  intro reaches
  have precision := (formatFacts known).precision
  have above := (reaches.coarser fine).above
  have wide : (2 : ℚ) ^ (fmt.lowestExponent + 1) ≤ 2 ^ fmt.minNormalExponent := by
    apply zpow_le_zpow_right₀ (by norm_num)
    rw [FloatFormatDescriptor.lowestExponent]
    omega
  have narrow : (2 : ℚ) ^ (fmt.lowestExponent - 1) ≤ 2 ^ fmt.lowestExponent :=
    zpow_le_zpow_right₀ (by norm_num) (by omega)
  rw [zpow_add_one₀ (by norm_num)] at wide
  linarith

/-- Below the smallest normal value the routine asks whether the rounded
quotient is a normal significand. -/
theorem subnormal_underflow (known : descriptor format = some fmt) {exponent unit : ℤ}
    {quotient remainder divisor : ℕ}
    (divides : DividedAt fmt magnitude exponent unit quotient remainder divisor)
    (tinyBefore : exponent < fmt.minNormalExponent) (isUnit : unit = fmt.lowestExponent)
    (small : quotient < 2 ^ (fmt.precision - 1)) :
    let result := roundedResult negative format fmt control exponent quotient remainder divisor
    (result.status.underflow = true ↔ result.status.inexact = true ∧
      (control.tininess = .beforeRounding ∨
        ¬ RoundsUpTo control.rounding negative fmt.minNormalExponent fmt.lowestExponent
          magnitude)) ∧
      (RoundsUpTo control.rounding negative fmt.minNormalExponent fmt.lowestExponent magnitude →
        result.status.inexact = true) := by
  classical
  have facts := formatFacts known
  have precision := facts.precision
  have bias := facts.bias_pos
  have maxNormal := facts.maxNormal
  have minNormal : fmt.minNormalExponent = 1 - fmt.exponentBias := rfl
  have remainderLt := divides.divided.below
  have divisorPos : 0 < divisor := by omega
  have nonneg : (0 : ℚ) ≤ (remainder : ℚ) / divisor := by positivity
  have part_lt : (remainder : ℚ) / divisor < 1 := by
    rw [div_lt_one (by exact_mod_cast divisorPos)]
    exact_mod_cast remainderLt
  have isBound : unit + (fmt.precision - 1 : ℕ) = fmt.minNormalExponent := by
    rw [isUnit, FloatFormatDescriptor.lowestExponent, Nat.cast_sub (by omega)]
    push_cast
    ring
  have full := @full_iff_roundsUpTo control.rounding negative unit magnitude _ _ _ (by omega)
    divides.divided.isMagnitude nonneg part_lt small
  rw [isBound, isUnit] at full
  have nonzero : (remainder : ℚ) / divisor ≠ 0 ↔ remainder ≠ 0 := by
    rw [Ne, div_eq_zero_iff, Nat.cast_eq_zero, Nat.cast_eq_zero, not_or]
    exact and_iff_left divisorPos.ne'
  have moves : (remainder : ℚ) / divisor ≠ 0 ∧
      RoundsAway control.rounding negative quotient ((remainder : ℚ) / divisor) ↔
        ((remainder != 0) && roundsUp control negative quotient remainder divisor) = true := by
    rw [nonzero, ← roundsUp_iff negative divisorPos, Bool.and_eq_true, bne_iff_ne]
  rw [if_congr moves rfl rfl] at full
  have isTiny : decide (exponent < fmt.minNormalExponent) = true := decide_eq_true tinyBefore
  have inside : ¬ fmt.maxNormalExponent < fmt.minNormalExponent := by omega
  simp only [roundedResult, isTiny, Bool.not_true, Bool.false_and, Bool.false_or, Bool.true_and,
    Bool.false_eq_true, if_false, decide_eq_true_iff]
  generalize isRounded : (if ((remainder != 0) &&
    roundsUp control negative quotient remainder divisor) = true
      then quotient + 1 else quotient) = rounded at full ⊢
  by_cases carried : 2 ^ (fmt.precision - 1) ≤ rounded
  · have reaches := full.mp carried
    have increments : ((remainder != 0) &&
        roundsUp control negative quotient remainder divisor) = true := by
      by_contra stays
      rw [if_neg stays] at isRounded
      omega
    have inexact := (Bool.and_eq_true _ _).mp increments |>.1
    cases isMode : control.tininess <;> simp [carried, inside, reaches, inexact]
  · have stays := mt full.mpr carried
    cases isMode : control.tininess <;> simp [carried, stays]

theorem normal_underflow {exponent : ℤ} (normal : fmt.minNormalExponent ≤ exponent)
    (quotient remainder divisor : ℕ) :
    (roundedResult negative format fmt control exponent quotient remainder
      divisor).status.underflow = false := by
  have notTiny : decide (exponent < fmt.minNormalExponent) = false :=
    decide_eq_false (not_lt.mpr normal)
  simp only [roundedResult, notTiny, Bool.not_false, Bool.true_or, Bool.not_true, ite_self,
    Bool.and_false, apply_ite FloatResult.status, apply_ite FloatStatus.underflow, overflowResult]

end Routine

/-- Underflow is reported correctly except when tininess is detected after
rounding and the coarser rounding alone carries the number to the smallest
normal value. -/
theorem roundRational_reportsUnderflow_iff {format : FloatFormat} {fmt : FloatFormatDescriptor}
    (known : descriptor format = some fmt) (negative : Bool) {numerator denominator : ℕ}
    (numeratorPos : 0 < numerator) (denominatorPos : 0 < denominator) (binaryExponent : ℤ)
    (control : FloatControl) :
    ReportsUnderflow fmt control negative ((numerator : ℚ) / denominator * 2 ^ binaryExponent)
        (roundRational negative numerator denominator binaryExponent format control) ↔
      control.tininess = .beforeRounding ∨
        ¬ CarriedToNormal fmt control.rounding negative
          ((numerator : ℚ) / denominator * 2 ^ binaryExponent) := by
  have correct := roundRational_correct known negative false numeratorPos denominatorPos
    binaryExponent control
  have cases := @roundRational_cases _ _ known negative _ _ numeratorPos denominatorPos
    binaryExponent control _ rfl _ rfl
  have facts := formatFacts known
  have bias := facts.bias_pos
  have maxNormal := facts.maxNormal
  have minNormal : fmt.minNormalExponent = 1 - fmt.exponentBias := rfl
  generalize (numerator : ℚ) / denominator * 2 ^ binaryExponent = magnitude at correct cases ⊢
  generalize roundRational negative numerator denominator binaryExponent format control = result
    at correct cases ⊢
  -- no underflow from the smallest normal value on
  have large : 2 ^ fmt.minNormalExponent ≤ magnitude → result.status.underflow = false →
      (ReportsUnderflow fmt control negative magnitude result ↔
        control.tininess = .beforeRounding ∨
          ¬ CarriedToNormal fmt control.rounding negative magnitude) := by
    intro normal quiet
    apply iff_of_true
    · apply iff_of_false
      · rw [quiet]
        exact Bool.false_ne_true
      · exact fun both => not_tiny known normal both.2
    · exact .inr fun carried => not_lt.mpr normal carried.1
  rw [ReportsUnderflow, ← correct.inexact] at *
  rcases cases with ⟨huge, rfl⟩ | ⟨positive, small, rfl⟩ |
      ⟨exponent, unit, quotient, remainder, divisor, divides, rfl⟩
  · apply large _ rfl
    exact (zpow_le_zpow_right₀ (by norm_num) (by omega)).trans huge
  · have below : magnitude < 2 ^ fmt.minNormalExponent := by
      refine small.trans_le (zpow_le_zpow_right₀ (by norm_num) ?_)
      have precision := facts.precision
      rw [FloatFormatDescriptor.lowestExponent]
      omega
    apply iff_of_true
    · refine iff_of_true rfl ⟨rfl, (tiny_iff known positive).mpr ⟨below, .inr ?_⟩⟩
      exact not_roundsUpTo_of_small known small (by omega)
    · exact .inr fun carried => not_roundsUpTo_of_small known small le_rfl carried.2.1
  · rcases divides.place with ⟨tinyBefore, isUnit, inside⟩ | ⟨normal, -, -, -⟩
    · have below : magnitude < 2 ^ fmt.minNormalExponent :=
        divides.below.trans_le (zpow_le_zpow_right₀ (by norm_num) (by omega))
      obtain ⟨reported, inexact⟩ := @subnormal_underflow _ _ negative control _ known _ _ _ _ _
        divides tinyBefore isUnit inside
      have coarser := @RoundsUpTo.coarser control.rounding negative fmt.minNormalExponent
        fmt.lowestExponent magnitude (fmt.lowestExponent - 1) (by omega)
      have tiny := @tiny_iff _ _ negative control _ known divides.divided.positive
      rw [reported, tiny, CarriedToNormal]
      generalize (roundedResult negative format fmt control exponent quotient remainder
        divisor).status.inexact = isInexact at inexact ⊢
      cases isMode : control.tininess with
      | beforeRounding => simp [below]
      | afterRounding =>
        simp only [below, true_and, reduceCtorEq, false_or]
        constructor
        · rintro same ⟨reaches, stays⟩
          exact (same.mpr ⟨inexact reaches, stays⟩).2 reaches
        · intro outside
          constructor
          · rintro ⟨isTrue, stays⟩
            exact ⟨isTrue, mt coarser stays⟩
          · rintro ⟨isTrue, stays⟩
            exact ⟨isTrue, fun reaches => outside ⟨reaches, stays⟩⟩
    · apply large _ (normal_underflow normal _ _ _)
      exact (zpow_le_zpow_right₀ (by norm_num) normal).trans divides.atLeast

/-- The largest half-precision number with eleven bits below the smallest normal
value is rounded to that value without underflow, although it is already a
rounded number of the format's precision and tiny. -/
theorem belowSmallestNormal_not_reported :
    ¬ ReportsUnderflow ⟨16, 11, 10, 5, 15, false⟩ {} false
      (((2047 : ℕ) : ℚ) / (1 : ℕ) * 2 ^ (-25 : ℤ))
      (roundRational false 2047 1 (-25) .ieeeBinary16 {}) := by
  intro reports
  rcases (roundRational_reportsUnderflow_iff rfl false (by decide) (by decide) _ _).mp reports
    with before | outside
  · cases before
  · apply outside
    refine ⟨?_, ?_, ?_⟩ <;>
      norm_num [FloatFormatDescriptor.minNormalExponent, FloatFormatDescriptor.lowestExponent,
        RoundsUpTo, zpow_neg]

theorem thirdOfSmallestNormal_reported :
    ReportsUnderflow ⟨16, 11, 10, 5, 15, false⟩ {} false
      (((1 : ℕ) : ℚ) / (3 : ℕ) * 2 ^ (-14 : ℤ))
      (roundRational false 1 3 (-14) .ieeeBinary16 {}) := by
  apply (roundRational_reportsUnderflow_iff rfl false (by decide) (by decide) _ _).mpr
  right
  rintro ⟨-, reaches, -⟩
  norm_num [FloatFormatDescriptor.minNormalExponent, FloatFormatDescriptor.lowestExponent,
    RoundsUpTo, zpow_neg] at reaches

end Aburi.Numeric
