import Aburi.Numeric.Remainder

/-!
# Conversion to integers

The conversion drops the fraction and reports what does not fit.  Integers that
are numbers of a format come back from it.
-/

namespace Aburi.Numeric

open Aburi.Lib Int

structure FloatIntegerResult where
  value : Word128 := 0
  status : FloatStatus := {}
  error : FloatError := .none
  deriving DecidableEq

/-- Infinities, encodings that are not numbers and integers beyond the limits. -/
def outOfRangeResult (status : FloatStatus) : FloatIntegerResult :=
  { status := { status with invalid := true }, error := .integerOutOfRange }

def toInteger (value : FloatValue) (bitWidth : ℕ) (isSigned : Bool) : FloatIntegerResult :=
  if bitWidth = 0 ∨ 128 < bitWidth then { error := .invalidIntegerWidth }
  else
    let decoded := decode value
    if decoded.classification = .invalid then { error := .invalidEncoding }
    else if decoded.classification = .infinity ∨ isNanClass decoded.classification then
      outOfRangeResult {}
    else
      let significand := BigUInt.ofU128 (BitVec.ofNat 128 decoded.significand)
      let (magnitude, discarded) :=
        if 0 ≤ decoded.exponent then (significand.shiftedLeft decoded.exponent.toNat, false)
        else significand.shiftedRight (-decoded.exponent).toNat
      let status : FloatStatus := { inexact := discarded }
      let outOfRange :=
        if isSigned then
          let limit := BigUInt.ofU128 ((1 : Word128) <<< (bitWidth - 1))
          let positiveLimit := limit.subtract (BigUInt.ofU128 1)
          (!decoded.negative && magnitude.compare positiveLimit == .gt) ||
            (decoded.negative && magnitude.compare limit == .gt)
        else
          (decoded.negative && !magnitude.isZero) ||
            magnitude.compare (BigUInt.ofU128 (lowMask bitWidth)) == .gt
      if outOfRange then outOfRangeResult status
      else
        let raw := magnitude.toU128 &&& lowMask bitWidth
        let raw := if decoded.negative && raw != 0 then (~~~raw + 1) &&& lowMask bitWidth else raw
        { value := raw, status }

def FitsInteger (bitWidth : ℕ) (isSigned : Bool) (number : ℤ) : Prop :=
  if isSigned then -2 ^ (bitWidth - 1) ≤ number ∧ number < 2 ^ (bitWidth - 1)
  else 0 ≤ number ∧ number < 2 ^ bitWidth

/-- Two's complement in the low bits of a word. -/
def integerBits (bitWidth : ℕ) (number : ℤ) : Word128 :=
  (BitVec.ofInt bitWidth number).setWidth 128

def signedInteger (negative : Bool) (magnitude : ℕ) : ℤ :=
  if negative then -magnitude else magnitude

theorem signed_floor (negative : Bool) {magnitude : ℚ} {whole : ℕ}
    (isWhole : ⌊magnitude⌋ = (whole : ℤ)) (nonneg : 0 ≤ magnitude) :
    truncate (signed negative magnitude) = signedInteger negative whole := by
  have cast := truncate_signed negative magnitude nonneg
  rw [isWhole] at cast
  have same : (truncate (signed negative magnitude) : ℚ) = (signedInteger negative whole : ℤ) := by
    rw [cast, signed, signedInteger]
    split <;> push_cast <;> rfl
  exact_mod_cast same

/-- The shifts drop the fraction and see whether there was one. -/
theorem shifted_truncates {significand : BigUInt} {count : ℕ} (isCount : significand.toNat = count)
    (exponent : ℤ) {magnitude : BigUInt} {discarded : Bool}
    (isShifted : (magnitude, discarded) =
      if 0 ≤ exponent then (significand.shiftedLeft exponent.toNat, false)
      else significand.shiftedRight (-exponent).toNat) :
    ⌊(count : ℚ) * 2 ^ exponent⌋ = (magnitude.toNat : ℤ) ∧
      (discarded = true ↔ (magnitude.toNat : ℚ) ≠ count * 2 ^ exponent) := by
  split at isShifted
  case isTrue left =>
    obtain ⟨shift, rfl⟩ : ∃ shift : ℕ, exponent = shift := ⟨exponent.toNat, by omega⟩
    rw [Prod.mk.injEq, toNat_natCast] at isShifted
    obtain ⟨rfl, rfl⟩ := isShifted
    have isInteger : (count : ℚ) * 2 ^ (shift : ℤ) = ((count * 2 ^ shift : ℕ) : ℚ) := by
      rw [zpow_natCast]
      push_cast
      rfl
    rw [BigUInt.toNat_shiftedLeft, isCount, isInteger]
    exact ⟨floor_natCast _, by simp⟩
  case isFalse right =>
    obtain ⟨shift, rfl⟩ : ∃ shift : ℕ, exponent = -shift := ⟨(-exponent).toNat, by omega⟩
    rw [neg_neg, toNat_natCast] at isShifted
    have isMagnitude : magnitude.toNat = count / 2 ^ shift := by
      rw [← isCount, ← BigUInt.toNat_shiftedRight, ← isShifted]
    have isDiscarded : discarded = true ↔ count % 2 ^ shift ≠ 0 := by
      rw [← isCount, ← BigUInt.shiftedRight_discarded, ← isShifted]
    have isQuotient : (count : ℚ) * 2 ^ (-(shift : ℤ)) = count / (2 ^ shift : ℕ) := by
      rw [zpow_neg, zpow_natCast, div_eq_mul_inv]
      push_cast
      rfl
    have power : ((2 ^ shift : ℕ) : ℚ) ≠ 0 := by exact_mod_cast (Nat.two_pow_pos shift).ne'
    rw [isMagnitude, isDiscarded, isQuotient, Rat.floor_natCast_div_natCast]
    refine ⟨rfl, not_congr ?_⟩
    rw [eq_div_iff power]
    have parts := Nat.div_add_mod' count (2 ^ shift)
    constructor
    · intro noRest
      rw [noRest, Nat.add_zero] at parts
      exact_mod_cast parts
    · intro whole
      have whole' : count / 2 ^ shift * 2 ^ shift = count := by exact_mod_cast whole
      omega

section Limits

variable {bitWidth : ℕ} (positive : 1 ≤ bitWidth) (atMost : bitWidth ≤ 128)

include positive atMost

theorem outOfRange_iff (isSigned negative : Bool) (magnitude : BigUInt) :
    (if isSigned then
        (!negative && magnitude.compare
            ((BigUInt.ofU128 ((1 : Word128) <<< (bitWidth - 1))).subtract
              (BigUInt.ofU128 1)) == .gt) ||
          (negative && magnitude.compare (BigUInt.ofU128 ((1 : Word128) <<< (bitWidth - 1))) == .gt)
      else
        (negative && !magnitude.isZero) ||
          magnitude.compare (BigUInt.ofU128 (lowMask bitWidth)) == .gt) = true ↔
      ¬ FitsInteger bitWidth isSigned (signedInteger negative magnitude.toNat) := by
  have half := Nat.two_pow_pos (bitWidth - 1)
  have limit : (BigUInt.ofU128 ((1 : Word128) <<< (bitWidth - 1))).toNat = 2 ^ (bitWidth - 1) := by
    have small : 2 ^ (bitWidth - 1) < 2 ^ 128 := Nat.pow_lt_pow_right (by norm_num) (by omega)
    have one : (1 : Word128).toNat = 1 := rfl
    rw [BigUInt.toNat_ofU128, BitVec.toNat_shiftLeft, one, Nat.shiftLeft_eq, Nat.one_mul,
      Nat.mod_eq_of_lt small]
  have one : (BigUInt.ofU128 1).toNat = 1 := by
    rw [BigUInt.toNat_ofU128]
    rfl
  have positiveLimit : ((BigUInt.ofU128 ((1 : Word128) <<< (bitWidth - 1))).subtract
      (BigUInt.ofU128 1)).toNat = 2 ^ (bitWidth - 1) - 1 := by
    rw [BigUInt.toNat_subtract (by omega), limit, one]
  have mask : (BigUInt.ofU128 (lowMask bitWidth)).toNat = 2 ^ bitWidth - 1 := by
    rw [BigUInt.toNat_ofU128, toNat_lowMask atMost]
  have isZero : (!magnitude.isZero) = true ↔ magnitude.toNat ≠ 0 := by
    rw [Bool.not_eq_true', ← Bool.not_eq_true, magnitude.isZero_iff]
  have full := Nat.two_pow_pos bitWidth
  have halfCast : ((2 ^ (bitWidth - 1) : ℕ) : ℤ) = 2 ^ (bitWidth - 1) := by push_cast; rfl
  have fullCast : ((2 ^ bitWidth : ℕ) : ℤ) = 2 ^ bitWidth := by push_cast; rfl
  rw [FitsInteger, signedInteger]
  cases isSigned <;> cases negative <;>
    simp only [if_true, if_false, Bool.false_eq_true, Bool.not_true, Bool.not_false, Bool.true_and,
      Bool.false_and, Bool.or_false, Bool.false_or, Bool.or_eq_true, beq_iff_eq,
      BigUInt.compare_eq, compare_gt_iff_gt, limit, positiveLimit, mask, isZero] <;>
    omega

omit positive in
theorem toNat_integerBits (number : ℤ) :
    ((integerBits bitWidth number).toNat : ℤ) = number % 2 ^ bitWidth := by
  have full := Nat.two_pow_pos bitWidth
  have low := emod_nonneg number (by exact_mod_cast full.ne' : ((2 ^ bitWidth : ℕ) : ℤ) ≠ 0)
  have wide : 2 ^ bitWidth ≤ 2 ^ 128 := Nat.pow_le_pow_right (by norm_num) atMost
  rw [integerBits, BitVec.toNat_setWidth, BitVec.toNat_ofInt, Nat.mod_eq_of_lt (by omega)]
  push_cast at low ⊢
  omega

theorem raw_eq {isSigned negative : Bool} {magnitude : BigUInt}
    (fits : FitsInteger bitWidth isSigned (signedInteger negative magnitude.toNat)) :
    (if negative && magnitude.toU128 &&& lowMask bitWidth != 0 then
        (~~~(magnitude.toU128 &&& lowMask bitWidth) + 1) &&& lowMask bitWidth
      else magnitude.toU128 &&& lowMask bitWidth) =
      integerBits bitWidth (signedInteger negative magnitude.toNat) := by
  have halves : 2 ^ bitWidth = 2 * 2 ^ (bitWidth - 1) := by
    rw [← Nat.pow_succ']
    congr 1
    omega
  have halfCast : ((2 ^ (bitWidth - 1) : ℕ) : ℤ) = 2 ^ (bitWidth - 1) := by push_cast; rfl
  have fullCast : ((2 ^ bitWidth : ℕ) : ℤ) = 2 ^ bitWidth := by push_cast; rfl
  have small : magnitude.toNat < 2 ^ bitWidth ∧ (negative = true → isSigned = true ∨
      magnitude.toNat = 0) := by
    rw [FitsInteger, signedInteger] at fits
    cases isSigned <;> cases negative <;>
      simp only [if_true, if_false, Bool.false_eq_true] at fits <;> simp <;> omega
  have isMagnitude : magnitude.toU128.toNat % 2 ^ bitWidth = magnitude.toNat := by
    rw [BigUInt.toNat_toU128, Nat.mod_mod_of_dvd _ (Nat.pow_dvd_pow 2 atMost),
      Nat.mod_eq_of_lt small.1]
  have isRaw : (magnitude.toU128 &&& lowMask bitWidth).toNat = magnitude.toNat := by
    rw [toNat_and_lowMask atMost, isMagnitude]
  have bits := toNat_integerBits atMost (signedInteger negative magnitude.toNat)
  apply BitVec.eq_of_toNat_eq
  split
  case isTrue complement =>
    rw [Bool.and_eq_true, bne_iff_ne, Ne, BitVec.toNat_eq, isRaw] at complement
    have nonzero : 0 < magnitude.toU128.toNat % 2 ^ bitWidth := by
      rw [isMagnitude]
      exact Nat.pos_of_ne_zero complement.2
    have isComplement := @integer_complement magnitude.toU128 bitWidth atMost nonzero
    rw [isComplement, isMagnitude]
    rw [signedInteger, if_pos complement.1] at bits ⊢
    rw [isMagnitude] at nonzero
    have wraps : -(magnitude.toNat : ℤ) % 2 ^ bitWidth = 2 ^ bitWidth - magnitude.toNat := by
      rw [emod_eq_iff (by omega)]
      refine ⟨by omega, by omega, ⟨1, by ring⟩⟩
    omega
  case isFalse direct =>
    rw [Bool.and_eq_true, bne_iff_ne, Ne, BitVec.toNat_eq, isRaw] at direct
    have isNumber : signedInteger negative magnitude.toNat = magnitude.toNat := by
      rw [signedInteger]
      split
      case isTrue isNegative =>
        have isZero : magnitude.toNat = 0 := by
          by_contra nonzero
          exact direct ⟨isNegative, nonzero⟩
        rw [isZero]
        rfl
      case isFalse => rfl
    rw [isNumber] at bits ⊢
    rw [isRaw]
    rw [← fullCast, ← natCast_emod, Nat.mod_eq_of_lt small.1] at bits
    omega

end Limits

section Conversion

variable {bitWidth : ℕ} (positive : 1 ≤ bitWidth) (atMost : bitWidth ≤ 128)

include positive atMost

theorem toInteger_finite {value : FloatValue} (finite : value.IsFinite) (isSigned : Bool) :
    ∃ discarded : Bool,
      (discarded = true ↔ (truncate value.toRat : ℚ) ≠ value.toRat) ∧
      (FitsInteger bitWidth isSigned (truncate value.toRat) →
        toInteger value bitWidth isSigned =
          { value := integerBits bitWidth (truncate value.toRat)
            status := { inexact := discarded } }) ∧
      (¬ FitsInteger bitWidth isSigned (truncate value.toRat) →
        toInteger value bitWidth isSigned = outOfRangeResult { inexact := discarded }) := by
  have width : ¬ (bitWidth = 0 ∨ 128 < bitWidth) := by omega
  have isCount := toNat_significand finite
  obtain ⟨magnitude, discarded, isShifted⟩ : ∃ magnitude discarded, (magnitude, discarded) =
      if 0 ≤ (decode value).exponent then
        ((BigUInt.ofU128 (BitVec.ofNat 128 (decode value).significand)).shiftedLeft
          (decode value).exponent.toNat, false)
      else (BigUInt.ofU128 (BitVec.ofNat 128 (decode value).significand)).shiftedRight
        (-(decode value).exponent).toNat := ⟨_, _, rfl⟩
  obtain ⟨isWhole, isDiscarded⟩ := shifted_truncates isCount (decode value).exponent isShifted
  have nonneg : 0 ≤ ((decode value).significand : ℚ) * 2 ^ (decode value).exponent :=
    mul_nonneg (Nat.cast_nonneg _) (two_zpow_pos _).le
  have isTruncated := signed_floor (decode value).negative isWhole nonneg
  rw [← toRat_eq] at isTruncated
  have outside := outOfRange_iff positive atMost isSigned (decode value).negative magnitude
  refine ⟨discarded, ?_, ?_, ?_⟩
  · rw [isDiscarded, isTruncated, toRat_eq]
    cases (decode value).negative <;> simp [signed, signedInteger]
  · intro fits
    rw [isTruncated] at fits ⊢
    have inside := (Bool.not_eq_true _).mp (mt outside.mp (not_not.mpr fits))
    rw [toInteger, if_neg width]
    simp only [finite.not_invalid, finite.not_infinity, finite.not_nan, if_false,
      Bool.false_eq_true, or_self, ← isShifted, inside, raw_eq positive atMost fits]
  · intro overflows
    rw [isTruncated] at overflows
    have beyond := outside.mpr overflows
    rw [toInteger, if_neg width]
    simp only [finite.not_invalid, finite.not_infinity, finite.not_nan, if_false,
      Bool.false_eq_true, or_self, ← isShifted, beyond, if_true]

theorem toInteger_not_finite {value : FloatValue} (notFinite : ¬ value.IsFinite)
    (isSigned : Bool) :
    ((toInteger value bitWidth isSigned).error = .integerOutOfRange ↔
      (decode value).classification = .infinity ∨
        isNanClass (decode value).classification = true) := by
  have width : ¬ (bitWidth = 0 ∨ 128 < bitWidth) := by omega
  rw [toInteger, if_neg width]
  rw [FloatValue.IsFinite] at notFinite
  cases isClass : (decode value).classification <;> simp_all [isNanClass, outOfRangeResult]

theorem integerValue_ofInt {isSigned : Bool} {number : ℤ}
    (fits : FitsInteger bitWidth isSigned number) :
    integerValue (BitVec.ofInt 128 number) bitWidth isSigned = number := by
  have halves : 2 ^ bitWidth = 2 * 2 ^ (bitWidth - 1) := by
    rw [← Nat.pow_succ']
    congr 1
    omega
  have halfCast : ((2 ^ (bitWidth - 1) : ℕ) : ℤ) = 2 ^ (bitWidth - 1) := by push_cast; rfl
  have fullCast : ((2 ^ bitWidth : ℕ) : ℤ) = 2 ^ bitWidth := by push_cast; rfl
  have half := Nat.two_pow_pos (bitWidth - 1)
  have isLow : (((BitVec.ofInt 128 number).toNat % 2 ^ bitWidth : ℕ) : ℤ) =
      number % 2 ^ bitWidth := by
    have wide : ((2 ^ 128 : ℕ) : ℤ) ≠ 0 := by norm_num
    rw [natCast_emod, BitVec.toNat_ofInt, toNat_of_nonneg (emod_nonneg _ wide),
      fullCast]
    exact emod_emod_of_dvd number (by
      rw [← fullCast]
      exact_mod_cast Nat.pow_dvd_pow 2 atMost)
  rw [integerValue]
  generalize (BitVec.ofInt 128 number).toNat % 2 ^ bitWidth = low at isLow ⊢
  by_cases sign : 0 ≤ number
  · have small : number < 2 ^ bitWidth := by
      rw [FitsInteger] at fits
      split at fits <;> omega
    rw [emod_eq_of_lt sign small] at isLow
    split
    case isTrue high =>
      rw [FitsInteger, if_pos high.1] at fits
      omega
    case isFalse => exact isLow
  · rw [FitsInteger] at fits
    have isSignedTrue : isSigned = true := by
      by_contra unsigned
      rw [if_neg unsigned] at fits
      exact sign fits.1
    rw [if_pos isSignedTrue] at fits
    have wraps : number % 2 ^ bitWidth = number + 2 ^ bitWidth := by
      rw [emod_eq_iff (by omega)]
      refine ⟨by omega, by omega, ⟨1, by ring⟩⟩
    rw [if_pos ⟨isSignedTrue, by omega⟩]
    omega

end Conversion

/-- What the conversion reports for a value. -/
structure Truncates (value : FloatValue) (bitWidth : ℕ) (isSigned : Bool)
    (result : FloatIntegerResult) : Prop where
  outOfRange : result.error = .integerOutOfRange ↔
    ((decode value).classification = .infinity ∨ isNanClass (decode value).classification = true) ∨
      value.IsFinite ∧ ¬ FitsInteger bitWidth isSigned (truncate value.toRat)
  converted : value.IsFinite → FitsInteger bitWidth isSigned (truncate value.toRat) →
    result.error = .none ∧ result.value = integerBits bitWidth (truncate value.toRat) ∧
      (result.status.inexact = true ↔ (truncate value.toRat : ℚ) ≠ value.toRat)

/-- The conversion truncates, and integers of a format come back from it. -/
theorem toInteger_truncates {bitWidth : ℕ} (positive : 1 ≤ bitWidth) (atMost : bitWidth ≤ 128)
    (isSigned : Bool) :
    (∀ value, Truncates value bitWidth isSigned (toInteger value bitWidth isSigned)) ∧
      ∀ (format : FloatFormat) (control : FloatControl) (number : ℤ),
        (descriptor format).isSome → FitsInteger bitWidth isSigned number →
          (number : ℚ) ∈ finiteValues format →
            toInteger (fromInteger (BitVec.ofInt 128 number) bitWidth isSigned format
              control).value bitWidth isSigned = { value := integerBits bitWidth number } := by
  constructor
  · intro value
    by_cases finite : value.IsFinite
    · obtain ⟨discarded, isDiscarded, inside, outside⟩ :=
        toInteger_finite positive atMost finite isSigned
      by_cases fits : FitsInteger bitWidth isSigned (truncate value.toRat)
      · rw [inside fits]
        refine ⟨iff_of_false (by simp) ?_, fun _ _ => ⟨rfl, rfl, isDiscarded⟩⟩
        simp [finite.not_infinity, finite.not_nan, fits]
      · rw [outside fits]
        exact ⟨iff_of_true rfl (.inr ⟨finite, fits⟩), fun _ isFit => absurd isFit fits⟩
    · refine ⟨?_, fun isFinite => absurd isFinite finite⟩
      rw [toInteger_not_finite positive atMost finite]
      simp [finite]
  · intro format control number isKnown fits member
    obtain ⟨fmt, known⟩ := Option.isSome_iff_exists.mp isKnown
    have correct := fromInteger_correct known (BitVec.ofInt 128 number) positive atMost isSigned
      control
    rw [integerValue_ofInt positive atMost fits] at correct
    obtain ⟨value, semantics, finite, isNumber⟩ := member
    have rounds := roundsTo_exact known semantics finite control.rounding
    rw [isNumber] at rounds
    generalize (fromInteger (BitVec.ofInt 128 number) bitWidth isSigned format control) = converted
      at correct ⊢
    have same : converted.value.IsFinite ∧ converted.value.toRat = number := by
      rcases roundsTo_unique known correct.semantics semantics correct.rounds rounds with
        equal | ⟨convertedFinite, -, equal⟩
      · exact ⟨equal ▸ finite, (congrArg FloatValue.toRat equal).trans isNumber⟩
      · exact ⟨convertedFinite, equal.trans isNumber⟩
    obtain ⟨discarded, isDiscarded, inside, -⟩ := toInteger_finite positive atMost same.1 isSigned
    have isTruncated : truncate converted.value.toRat = number := by
      rw [same.2, truncate]
      split <;> simp
    rw [isTruncated] at isDiscarded inside
    have noFraction : discarded = false := by
      rw [← Bool.not_eq_true, isDiscarded, not_not]
      exact same.2.symm
    rw [inside fits, noFraction]

/-- A double just below minus one hundred and twenty-eight still fits a byte. -/
theorem toInteger_truncates_byte :
    (toInteger ⟨.ieeeBinary64, 0xc060100000000000, 0⟩ 8 true).value = 0x80 ∧
      ∀ value, Truncates value 8 true (toInteger value 8 true) :=
  ⟨by decide, (toInteger_truncates (by decide) (by decide) true).1⟩

end Aburi.Numeric
