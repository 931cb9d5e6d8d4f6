import Aburi.Numeric.Literals
import Aburi.Numeric.RoundingUnique

/-!
# Literals are correctly rounded

A spelling is read as the correctly rounded value of the number it denotes,
except that the early exit for large decimal spellings counts leading zeros and
that exponents are cut at a limit.
-/

namespace Aburi.Numeric

open Aburi.Lib List Option Int

/-- A parsed value that is correctly rounded for a sign and a magnitude. -/
structure ParsedCorrectly (format : FloatFormat) (fmt : FloatFormatDescriptor)
    (rounding : RoundingMode) (negative : Bool) (magnitude : ℚ) (result : FloatParseResult) :
    Prop where
  error : result.error = .none
  semantics : result.value.semantics = format
  canonical : result.value.canonical = true
  sign : (decode result.value).negative = negative
  rounds : RoundsTo format fmt (signed negative magnitude) result.value rounding

/-- Magnitudes that a mode takes to the overflow value of the format. -/
def OverflowsTo (fmt : FloatFormatDescriptor) (rounding : RoundingMode) (negative : Bool)
    (magnitude : ℚ) : Prop :=
  let largest : ℚ := (2 ^ fmt.precision - 1) * 2 ^ fmt.highestExponent
  match rounding with
  | .nearestTiesToEven | .nearestTiesAway => overflowThreshold fmt ≤ magnitude
  | .towardZero => largest ≤ magnitude
  | .towardPositive => if negative then largest ≤ magnitude else largest < magnitude
  | .towardNegative => if negative then largest < magnitude else largest ≤ magnitude

def SameRounding (format : FloatFormat) (fmt : FloatFormatDescriptor) (rounding : RoundingMode)
    (first second : ℚ) : Prop :=
  ∃ value : FloatValue, value.semantics = format ∧ RoundsTo format fmt first value rounding ∧
    RoundsTo format fmt second value rounding

/-- The decimal exponent that the parser estimates from the digits. -/
def Literal.estimate (literal : Literal) : ℤ :=
  (literal.integer ++ literal.fractionDigits).length +
    (cutExponent literal.exponentNumber - literal.fractionDigits.length) - 1

/-- The estimate does not claim an overflow that is none, and cutting the
exponent does not change the rounding. -/
def Literal.ReadsTrue (literal : Literal) (format : FloatFormat) (fmt : FloatFormatDescriptor)
    (rounding : RoundingMode) : Prop :=
  literal.significand = 0 ∨
    if literal.hexMark = none ∧ 6000 < literal.estimate then
      OverflowsTo fmt rounding literal.sign.negative literal.magnitude
    else
      SameRounding format fmt rounding (signed literal.sign.negative literal.magnitude)
        (signed literal.sign.negative (literal.magnitudeAt (cutExponent literal.exponentNumber)))

section Overflow

variable {format : FloatFormat} {fmt : FloatFormatDescriptor}
  (known : descriptor format = some fmt) {magnitude : ℚ} {negative : Bool}

theorem largest_eq : ((2 ^ fmt.precision - 1 : ℕ) : ℚ) * 2 ^ fmt.highestExponent =
    (2 ^ fmt.precision - 1) * 2 ^ fmt.highestExponent := by
  rw [Nat.cast_sub (Nat.one_le_two_pow)]
  push_cast
  rfl

theorem past_largest
    (past : (2 ^ fmt.precision - 1) * 2 ^ fmt.highestExponent < magnitude) {other : ℚ}
    (member : other ∈ fmt.grid) : other < magnitude :=
  (grid_lt_threshold member).1.trans_lt past

include known

/-- A mode that keeps the largest value for a magnitude has not passed it. -/
theorem largest_le_of_rounds {rounding : RoundingMode}
    (rounds : RoundsTo format fmt (signed negative magnitude) (maximumFinite format negative)
      rounding)
    (inward : rounding = .towardZero ∨ rounding = .towardPositive ∧ negative = true ∨
      rounding = .towardNegative ∧ negative = false) (positive : 0 < magnitude) :
    (2 ^ fmt.precision - 1) * 2 ^ fmt.highestExponent ≤ magnitude := by
  have stands := stands_maximumFinite known negative
  have toRat := stands.toRat
  rw [largest_eq] at toRat
  have notInfinity : ∀ sign, maximumFinite format negative ≠ infinity format sign := by
    intro sign same
    exact infinity_not_finite known sign (same ▸ stands.finite)
  rcases inward with rfl | ⟨rfl, rfl⟩ | ⟨rfl, rfl⟩
  · have bound := rounds.2
    cases negative with
    | true =>
      rw [if_pos (by simp only [signed, if_true]; linarith)] at bound
      have member := bound.1.2
      rw [toRat] at member
      simp only [signed, if_true] at member
      linarith
    | false =>
      rw [if_neg (by simp only [signed, Bool.false_eq_true, if_false]; linarith)] at bound
      have member := bound.1.2
      rw [toRat] at member
      exact member
  · rcases rounds with ⟨-, least⟩ | ⟨isInfinity, -⟩
    · have member := least.1.2
      rw [toRat] at member
      simp only [signed, if_true] at member
      linarith
    · exact absurd isInfinity (notInfinity _)
  · rcases rounds with ⟨-, greatest⟩ | ⟨isInfinity, -⟩
    · have member := greatest.1.2
      rw [toRat] at member
      exact member
    · exact absurd isInfinity (notInfinity _)

/-- A mode that goes to infinity for a magnitude is past the largest value. -/
theorem largest_lt_of_rounds
    (rounds : if negative then
        RoundsDownward format (signed negative magnitude) (infinity format negative)
      else RoundsUpward format (signed negative magnitude) (infinity format negative)) :
    (2 ^ fmt.precision - 1) * 2 ^ fmt.highestExponent < magnitude := by
  have stands := stands_maximumFinite known negative
  have toRat := stands.toRat
  rw [largest_eq] at toRat
  have member := finite_mem stands.semantics stands.finite
  rw [toRat] at member
  cases negative with
  | true =>
    rcases rounds with ⟨finite, -⟩ | ⟨-, past⟩
    · exact absurd finite (infinity_not_finite known true)
    · have below := past _ member
      simp only [signed, if_true] at below
      linarith
  | false =>
    rcases rounds with ⟨finite, -⟩ | ⟨-, past⟩
    · exact absurd finite (infinity_not_finite known false)
    · exact past _ member

theorem overflowResult_rounds_iff (positive : 0 < magnitude) (control : FloatControl) :
    RoundsTo format fmt (signed negative magnitude)
        (overflowResult format negative control).value control.rounding ↔
      OverflowsTo fmt control.rounding negative magnitude := by
  obtain ⟨rounding, tininess⟩ := control
  have threshold : ∀ tie, RoundsToNearest format fmt (signed negative magnitude)
      (infinity format negative) tie → overflowThreshold fmt ≤ magnitude := by
    intro tie rounds
    by_contra small
    rw [RoundsToNearest, abs_signed positive.le, if_pos (not_le.mp small)] at rounds
    exact infinity_not_finite known negative rounds.1
  have last := (grid_lt_threshold (maximumFinite_greatest known).1).2
  rw [largest_eq] at last
  constructor
  · intro rounds
    cases rounding with
    | nearestTiesToEven | nearestTiesAway => exact threshold _ rounds
    | towardZero => exact largest_le_of_rounds known rounds (.inl rfl) positive
    | towardPositive =>
      cases negative with
      | true => exact largest_le_of_rounds known rounds (.inr (.inl ⟨rfl, rfl⟩)) positive
      | false => exact @largest_lt_of_rounds _ _ known _ false rounds
    | towardNegative =>
      cases negative with
      | true => exact @largest_lt_of_rounds _ _ known _ true rounds
      | false => exact largest_le_of_rounds known rounds (.inr (.inr ⟨rfl, rfl⟩)) positive
  · intro overflows
    by_cases past : (2 ^ fmt.precision - 1) * 2 ^ fmt.highestExponent < magnitude
    · apply overflowResult_rounds known negative ⟨rounding, tininess⟩ positive
      · exact fun other member => past_largest past member
      · rintro (rfl | rfl)
        · exact overflows
        · exact overflows
    · -- at the largest value itself only the modes that keep it are left
      have stands := stands_maximumFinite known negative
      have isLargest : (2 ^ fmt.precision - 1) * 2 ^ fmt.highestExponent ≤ magnitude →
          RoundsTo format fmt (signed negative magnitude) (maximumFinite format negative)
            rounding := by
        intro atLeast
        have same : magnitude = (2 ^ fmt.precision - 1) * 2 ^ fmt.highestExponent := by linarith
        rw [same, ← largest_eq, ← stands.toRat]
        exact roundsTo_exact known stands.semantics stands.finite rounding
      cases rounding with
      | nearestTiesToEven | nearestTiesAway =>
        have atLeast : overflowThreshold fmt ≤ magnitude := overflows
        exact absurd (last.trans_le atLeast) past
      | towardZero => exact isLargest overflows
      | towardPositive =>
        cases negative with
        | true => exact isLargest overflows
        | false => exact absurd overflows past
      | towardNegative =>
        cases negative with
        | true => exact absurd overflows past
        | false => exact isLargest overflows

end Overflow

section Decimal

variable {format : FloatFormat} {fmt : FloatFormatDescriptor} (known : descriptor format = some fmt)

include known

theorem tiny_of_decimal {magnitude : ℚ} {exponent : ℤ} (below : magnitude < 10 ^ exponent)
    (small : exponent ≤ -6000) : magnitude < 2 ^ (fmt.lowestExponent - 1) := by
  obtain ⟨lowest, -⟩ := exponent_range known
  calc magnitude < 10 ^ exponent := below
    _ ≤ 10 ^ (-6000 : ℤ) := zpow_le_zpow_right₀ (by norm_num) small
    _ ≤ 8 ^ (-6000 : ℤ) := by
        rw [zpow_neg, zpow_neg]
        apply inv_anti₀ (zpow_pos (by norm_num) _)
        exact zpow_le_zpow_left₀ (by norm_num) (by norm_num) (by norm_num)
    _ = 2 ^ (3 * -6000 : ℤ) := by
        rw [zpow_mul]
        norm_num
    _ ≤ 2 ^ (fmt.lowestExponent - 1) := zpow_le_zpow_right₀ (by norm_num) (by omega)

omit known in
theorem decimal_quotient (significand : ℕ) (exponent : ℤ) :
    (significand : ℚ) * 10 ^ exponent =
      ((if 0 ≤ exponent then significand * powerOfFive exponent.toNat else significand : ℕ) : ℚ) /
        ((if 0 ≤ exponent then 1 else powerOfFive (-exponent).toNat : ℕ) : ℚ) *
        2 ^ exponent := by
  have ten : (10 : ℚ) ^ exponent = 5 ^ exponent * 2 ^ exponent := by
    rw [← mul_zpow]
    norm_num
  rw [ten]
  split
  case isTrue nonneg =>
    obtain ⟨power, rfl⟩ : ∃ power : ℕ, exponent = power := ⟨exponent.toNat, by omega⟩
    rw [toNat_natCast, powerOfFive, zpow_natCast]
    push_cast
    ring
  case isFalse negative =>
    obtain ⟨power, rfl⟩ : ∃ power : ℕ, exponent = -power := ⟨(-exponent).toNat, by omega⟩
    rw [neg_neg, toNat_natCast, powerOfFive, zpow_neg 5, zpow_natCast]
    push_cast
    ring

theorem roundDecimal_correct (negative zeroNegative : Bool) {significand digitCount : ℕ}
    (positive : 0 < significand) (bounded : significand < 10 ^ digitCount)
    {decimalExponent : ℤ} (notLarge : ¬ 6000 < digitCount + decimalExponent - 1)
    (control : FloatControl) :
    CorrectlyRounded format fmt control.rounding
      (signed negative (significand * 10 ^ decimalExponent)) zeroNegative
      (roundDecimal negative significand digitCount decimalExponent format control) := by
  rw [roundDecimal]
  dsimp only
  rw [if_neg notLarge]
  split
  case isTrue small =>
    have isPositive : (0 : ℚ) < significand * 10 ^ decimalExponent :=
      mul_pos (by exact_mod_cast positive) (zpow_pos (by norm_num) _)
    apply tinyNonzeroResult_correct known negative control zeroNegative isPositive
    apply @tiny_of_decimal _ _ known _ (digitCount + decimalExponent) _ (by omega)
    rw [zpow_add₀ (by norm_num), zpow_natCast]
    apply mul_lt_mul_of_pos_right _ (zpow_pos (by norm_num) _)
    exact_mod_cast bounded
  case isFalse notSmall =>
    rw [decimal_quotient]
    apply roundRational_correct known
    · split
      · exact Nat.mul_pos positive (Nat.pow_pos (by norm_num))
      · exact positive
    · split
      · exact one_pos
      · exact Nat.pow_pos (by norm_num)

end Decimal

section Parser

variable {format : FloatFormat} {fmt : FloatFormatDescriptor} (known : descriptor format = some fmt)

theorem Literal.magnitudeAt_pos {literal : Literal} (nonzero : literal.significand ≠ 0)
    (exponent : ℤ) : 0 < literal.magnitudeAt exponent := by
  have positive : (0 : ℚ) < literal.significand := by
    exact_mod_cast Nat.pos_of_ne_zero nonzero
  rw [Literal.magnitudeAt]
  split
  · exact mul_pos positive (zpow_pos (by norm_num) _)
  · exact mul_pos positive (zpow_pos (by norm_num) _)

theorem Literal.significand_lt (literal : Literal) (decimal : literal.hexMark = none) :
    literal.significand < 10 ^ (literal.integer ++ literal.fractionDigits).length := by
  have base : literal.base = 10 := by simp [Literal.base, decimal]
  have digits := literal.digits
  simp only [decimal, isSome_none, Bool.false_eq_true, if_false] at digits
  have bounded := digitsNumber_lt digits
  rw [Literal.significand, base]
  exact bounded

include known

/-- A result that is right for one number is right for another one when the two
have a common rounded value. -/
theorem parsed_iff_same {rounding : RoundingMode} {negative : Bool} {magnitude other : ℚ}
    (positive : 0 < other) {result : FloatResult}
    (correct : CorrectlyRounded format fmt rounding (signed negative other) false result) :
    ParsedCorrectly format fmt rounding negative magnitude (fromFloatResult result) ↔
      SameRounding format fmt rounding (signed negative magnitude) (signed negative other) := by
  constructor
  · intro parsed
    exact ⟨result.value, correct.semantics, parsed.rounds, correct.rounds⟩
  · rintro ⟨value, semantics, rounds, otherRounds⟩
    have same := roundsTo_unique known correct.semantics semantics correct.rounds otherRounds
    refine ⟨?_, correct.semantics, correct.canonical, ?_, ?_⟩
    · simp [fromFloatResult, correct.error]
    · have sign := correct.sign
      rw [sign_signed negative positive] at sign
      exact sign
    · exact roundsTo_of_sameValue known correct.semantics semantics same rounds

theorem parsed_overflow_iff {negative : Bool} {magnitude : ℚ} (positive : 0 < magnitude)
    (control : FloatControl) :
    ParsedCorrectly format fmt control.rounding negative magnitude
        (fromFloatResult (overflowResult format negative control)) ↔
      OverflowsTo fmt control.rounding negative magnitude := by
  rw [← overflowResult_rounds_iff known positive control]
  constructor
  · exact fun parsed => parsed.rounds
  · intro rounds
    obtain ⟨semantics, canonical, sign⟩ := overflowResult_encodes known negative control
    exact ⟨rfl, semantics, canonical, sign, rounds⟩

/-- A spelling is read as the correctly rounded value of its number exactly when
the early exit and the exponent limit do not mislead the parser. -/
theorem parse_correct_iff (literal : Literal) {spelling : List Char}
    (spells : literal.Spells spelling) (control : FloatControl) :
    ParsedCorrectly format fmt control.rounding literal.sign.negative literal.magnitude
        (parse spelling format control) ↔
      literal.ReadsTrue format fmt control.rounding := by
  rw [literal.parse_eq spells known control, Literal.ReadsTrue]
  by_cases isZero : literal.significand = 0
  · simp only [isZero, if_true, true_or, iff_true]
    have noMagnitude : signed literal.sign.negative literal.magnitude = 0 := by
      simp [Literal.magnitude, Literal.magnitudeAt, isZero, signed]
    have correct := correct_zero known control.rounding literal.sign.negative
    refine ⟨rfl, correct.semantics, correct.canonical, ?_, ?_⟩
    · have sign := correct.sign
      rwa [if_pos rfl] at sign
    · rw [noMagnitude]
      exact correct.rounds
  · have positive := Literal.magnitudeAt_pos isZero
    have significandPos := Nat.pos_of_ne_zero isZero
    simp only [isZero, if_false, false_or]
    cases isHex : literal.hexMark with
    | some mark =>
      simp only [isSome_some, if_true, reduceCtorEq, false_and, if_false]
      apply parsed_iff_same known (positive _)
      have number : literal.magnitudeAt (cutExponent literal.exponentNumber) =
          literal.significand / (1 : ℕ) *
            2 ^ (cutExponent literal.exponentNumber - literal.fractionDigits.length * 4) := by
        simp [Literal.magnitudeAt, isHex]
      rw [number]
      exact roundRational_correct known _ _ significandPos one_pos _ _
    | none =>
      simp only [isSome_none, Bool.false_eq_true, if_false, true_and]
      by_cases large : 6000 < literal.estimate
      · rw [if_pos large, roundDecimal]
        have estimate : 6000 < ((literal.integer ++ literal.fractionDigits).length : ℤ) +
            (cutExponent literal.exponentNumber - literal.fractionDigits.length) - 1 := large
        dsimp only
        rw [if_pos estimate]
        exact parsed_overflow_iff known (positive _) control
      · rw [if_neg large]
        apply parsed_iff_same known (positive _)
        have number : literal.magnitudeAt (cutExponent literal.exponentNumber) =
            literal.significand *
              10 ^ (cutExponent literal.exponentNumber - literal.fractionDigits.length) := by
          simp [Literal.magnitudeAt, isHex]
        rw [number]
        exact roundDecimal_correct known _ _ significandPos (literal.significand_lt isHex)
          large control

theorem exists_rounded {magnitude : ℚ} (positive : 0 < magnitude) (negative : Bool)
    (rounding : RoundingMode) :
    ∃ value : FloatValue, value.semantics = format ∧
      RoundsTo format fmt (signed negative magnitude) value rounding := by
  have numerator : 0 < magnitude.num.toNat := by
    have := Rat.num_pos.mpr positive
    omega
  have isQuotient : magnitude = (magnitude.num.toNat : ℚ) / magnitude.den * 2 ^ (0 : ℤ) := by
    have cast : ((magnitude.num.toNat : ℕ) : ℚ) = magnitude.num := by
      rw [← cast_natCast, toNat_of_nonneg (Rat.num_nonneg.mpr positive.le)]
    rw [cast, zpow_zero, mul_one, Rat.num_div_den]
  have correct := roundRational_correct known negative false numerator magnitude.den_pos 0
    { rounding }
  rw [← isQuotient] at correct
  exact ⟨_, correct.semantics, correct.rounds⟩

theorem Literal.readsTrue_of_small {literal : Literal}
    (estimate : literal.hexMark = none → literal.estimate ≤ 6000)
    (uncut : cutExponent literal.exponentNumber = literal.exponentNumber)
    (rounding : RoundingMode) : literal.ReadsTrue format fmt rounding := by
  by_cases isZero : literal.significand = 0
  · exact .inl isZero
  · right
    rw [if_neg (fun large => absurd (estimate large.1) (not_le.mpr large.2)), uncut]
    obtain ⟨value, semantics, rounds⟩ := exists_rounded known
      (Literal.magnitudeAt_pos isZero literal.exponentNumber) literal.sign.negative rounding
    exact ⟨value, semantics, rounds, rounds⟩

end Parser

def oneAndHalf : Literal where
  integer := ['1']
  fraction := some ['5']
  isHexMark := by simp
  nonempty := by simp
  digits := List.forall_mem_cons.mpr ⟨by decide, List.forall_mem_singleton.mpr (by decide)⟩
  isMark := by simp
  hasExponent := by simp
  isSuffix := by decide
  isImaginary := by decide

theorem oneAndHalf_parsed :
    ParsedCorrectly .ieeeBinary32 ⟨32, 24, 23, 8, 127, false⟩ .nearestTiesToEven false
      oneAndHalf.magnitude (parse "1.5".toList .ieeeBinary32) := by
  have spells : oneAndHalf.Spells "1.5".toList := by decide
  refine (parse_correct_iff rfl oneAndHalf spells {}).mpr ?_
  exact @Literal.readsTrue_of_small .ieeeBinary32 _ rfl _ (fun _ => by decide) (by decide) _

/-- The number one with leading zeros. -/
def paddedOne (zeros : ℕ) : Literal where
  integer := replicate zeros '0' ++ ['1']
  fraction := some []
  isHexMark := by simp
  nonempty := by simp
  digits := by
    intro digit member
    simp only [getD_some, append_nil, mem_append, mem_replicate,
      mem_singleton] at member
    rcases member with ⟨-, rfl⟩ | rfl <;> decide
  isMark := by simp
  hasExponent := by simp
  isSuffix := by decide
  isImaginary := by decide

theorem digitsNumber_zeros (zeros : ℕ) : digitsNumber 10 (replicate zeros '0') = 0 := by
  induction zeros with
  | zero => rfl
  | succ zeros induction =>
    rw [replicate_succ', digitsNumber_append, induction]
    decide

theorem paddedOne_significand (zeros : ℕ) : (paddedOne zeros).significand = 1 := by
  have digits : digitsNumber 10 (replicate zeros '0' ++ ['1']) = 1 := by
    rw [digitsNumber_append, digitsNumber_zeros]
    decide
  simpa [Literal.significand, paddedOne, Literal.base, Literal.fractionDigits] using digits

theorem paddedOne_magnitude (zeros : ℕ) : (paddedOne zeros).magnitude = 1 := by
  rw [Literal.magnitude, Literal.magnitudeAt, paddedOne_significand]
  simp [paddedOne, Literal.exponentNumber, Literal.fractionDigits]

theorem paddedOne_spells (zeros : ℕ) : (paddedOne zeros).Spells (paddedOne zeros).text := by
  rw [Literal.Spells, filter_eq_self]
  intro character member
  simp only [Literal.text, Literal.body, Literal.significandText, paddedOne, LiteralSign.text,
    map_none, map_some, getD_none, getD_some, nil_append,
    append_nil, mem_append, mem_replicate, mem_singleton] at member
  rcases member with (⟨-, rfl⟩ | rfl) | rfl <;> decide

/-- Enough leading zeros make the number one overflow. -/
theorem paddedOne_overflows {zeros : ℕ} (many : 6000 < zeros) :
    parse (paddedOne zeros).text .ieeeBinary64 =
      fromFloatResult (overflowResult .ieeeBinary64 false {}) := by
  have known : descriptor .ieeeBinary64 = some ⟨64, 53, 52, 11, 1023, false⟩ := rfl
  have large : 6000 < (((paddedOne zeros).integer ++ (paddedOne zeros).fractionDigits).length : ℤ) +
      (cutExponent (paddedOne zeros).exponentNumber -
        (paddedOne zeros).fractionDigits.length) - 1 := by
    simp [paddedOne, Literal.fractionDigits, Literal.exponentNumber, cutExponent, exponentLimit]
    omega
  have isDecimal : (paddedOne zeros).hexMark = none := rfl
  rw [(paddedOne zeros).parse_eq (paddedOne_spells zeros) known {}, paddedOne_significand,
    if_neg one_ne_zero, isDecimal, isSome_none, if_neg Bool.false_ne_true, roundDecimal]
  dsimp only
  rw [if_pos large]
  rfl

theorem paddedOne_not_parsed :
    (paddedOne 6001).magnitude = 1 ∧ (paddedOne 6001).Spells (paddedOne 6001).text ∧
      ¬ ParsedCorrectly .ieeeBinary64 ⟨64, 53, 52, 11, 1023, false⟩ .nearestTiesToEven
        (paddedOne 6001).sign.negative (paddedOne 6001).magnitude
        (parse (paddedOne 6001).text .ieeeBinary64) := by
  have known : descriptor .ieeeBinary64 = some ⟨64, 53, 52, 11, 1023, false⟩ := rfl
  refine ⟨paddedOne_magnitude _, paddedOne_spells _, ?_⟩
  rw [paddedOne_overflows (by norm_num), paddedOne_magnitude]
  refine mt (@parsed_overflow_iff _ _ known false _ one_pos {}).mp ?_
  have onGrid : (1 : ℚ) ∈ FloatFormatDescriptor.grid ⟨64, 53, 52, 11, 1023, false⟩ :=
    ⟨1, 0, by norm_num, by decide, by decide, by norm_num⟩
  exact not_le.mpr (grid_lt_threshold onGrid).2

end Aburi.Numeric
