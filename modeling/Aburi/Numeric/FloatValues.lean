import Aburi.Lib.Rounding
import Aburi.Numeric.FloatingPoint
import Mathlib.Data.Nat.Bitwise

/-!
# The numbers that encodings stand for

Every encoding is a sign, an exponent field and a significand field.  A finite
one stands for a rational number, and the magnitudes of a format are a binary
grid.
-/

namespace Aburi.Numeric

open Aburi.Lib BitVec Bool

/-- How the fields of an encoding fit together. -/
structure FormatFacts (fmt : FloatFormatDescriptor) : Prop where
  storage : fmt.storageBits = fmt.significandStorageBits + fmt.exponentBits + 1
  fits : fmt.storageBits ≤ 128
  significand : fmt.significandStorageBits =
    if fmt.explicitIntegerBit then fmt.precision else fmt.precision - 1
  precision : 2 ≤ fmt.precision
  exponents : 2 ≤ fmt.exponentBits
  bias : fmt.exponentBias = 2 ^ (fmt.exponentBits - 1) - 1

theorem formatFacts {format : FloatFormat} {fmt : FloatFormatDescriptor}
    (known : descriptor format = some fmt) : FormatFacts fmt := by
  cases format with
  | invalid => cases known
  | ieeeBinary16 | ieeeBinary32 | ieeeBinary64 | x87Extended80 | ieeeBinary128 =>
    cases known
    constructor <;> decide

namespace FormatFacts

variable {fmt : FloatFormatDescriptor} (facts : FormatFacts fmt)

include facts

theorem bias_pos : 1 ≤ fmt.exponentBias := by
  rw [facts.bias]
  have := facts.exponents
  have power : (2 : ℤ) ^ 1 ≤ 2 ^ (fmt.exponentBits - 1) :=
    pow_le_pow_right₀ (by norm_num) (by omega)
  linarith

theorem exponents_pow : 4 ≤ 2 ^ fmt.exponentBits :=
  Nat.pow_le_pow_right (by norm_num) facts.exponents (n := 2)

theorem maxNormal : fmt.maxNormalExponent = fmt.exponentBias := by
  rw [FloatFormatDescriptor.maxNormalExponent, facts.bias]
  obtain ⟨bits, isBits⟩ : ∃ bits, fmt.exponentBits = bits + 1 :=
    ⟨fmt.exponentBits - 1, by have := facts.exponents; omega⟩
  rw [isBits, Nat.add_sub_cancel, pow_succ]
  ring

end FormatFacts

theorem toNat_lowMask {bits : ℕ} (fits : bits ≤ 128) : (lowMask bits).toNat = 2 ^ bits - 1 := by
  have positive := Nat.two_pow_pos bits
  have bound : 2 ^ bits ≤ 2 ^ 128 := Nat.pow_le_pow_right (by norm_num) fits
  rw [lowMask, toNat_ofNat, Nat.mod_eq_of_lt (by omega)]

theorem toNat_and_lowMask {bits : ℕ} (fits : bits ≤ 128) (word : Word128) :
    (word &&& lowMask bits).toNat = word.toNat % 2 ^ bits := by
  rw [toNat_and, toNat_lowMask fits, Nat.and_two_pow_sub_one_eq_mod]

theorem toNat_setBit {bit : ℕ} (fits : bit < 128) :
    ((1 <<< bit : ℕ) : Word128).toNat = 2 ^ bit := by
  have bound : 2 ^ bit < 2 ^ 128 := Nat.pow_lt_pow_right (by norm_num) fits
  have cast : ((1 <<< bit : ℕ) : Word128).toNat = (1 <<< bit) % 2 ^ 128 := toNat_ofNat _ _
  rw [cast, Nat.one_shiftLeft, Nat.mod_eq_of_lt bound]

/-- A bit of a word that is known below its double. -/
theorem and_setBit_eq_zero {bit : ℕ} (fits : bit < 128) {word : Word128}
    (small : word.toNat < 2 ^ (bit + 1)) :
    word &&& ((1 <<< bit : ℕ) : Word128) = 0 ↔ word.toNat < 2 ^ bit := by
  have masked : (word &&& ((1 <<< bit : ℕ) : Word128)).toNat =
      (word.toNat.testBit bit).toNat * 2 ^ bit := by
    rw [toNat_and, toNat_setBit fits, Nat.and_two_pow]
  have isZero : word &&& ((1 <<< bit : ℕ) : Word128) = 0 ↔ word.toNat.testBit bit = false := by
    constructor
    · intro same
      have none := congrArg BitVec.toNat same
      rw [masked] at none
      cases set : word.toNat.testBit bit with
      | false => rfl
      | true => simp [set] at none
    · intro unset
      apply eq_of_toNat_eq
      rw [masked, unset]
      simp
  rw [isZero]
  rcases Nat.lt_or_ge word.toNat (2 ^ bit) with below | above
  · simp [Nat.testBit_lt_two_pow below, below]
  · have set := Nat.testBit_of_two_pow_le_and_two_pow_add_one_gt above small
    simp [set, above]

section Fields

variable {format : FloatFormat} {fmt : FloatFormatDescriptor}

section

variable (facts : FormatFacts fmt)
include facts

theorem FormatFacts.toNat_exponentMask :
    (exponentMask fmt).toNat = 2 ^ fmt.exponentBits - 1 := by
  have storage := facts.storage
  have fits := facts.fits
  rw [exponentMask, toNat_lowMask (by omega)]

theorem FormatFacts.zero_ne_exponentMask :
    ¬ (0 : Word128) = exponentMask fmt := by
  intro same
  have mask := congrArg BitVec.toNat same
  rw [facts.toNat_exponentMask] at mask
  have power := facts.exponents_pow
  simp only [ofNat_eq_ofNat, toNat_ofNat, Nat.zero_mod] at mask
  omega

theorem toNat_exponentField (value : FloatValue) :
    (exponentField value fmt).toNat =
      (rawBits value).toNat / 2 ^ fmt.significandStorageBits % 2 ^ fmt.exponentBits := by
  have storage := facts.storage
  have fits := facts.fits
  rw [exponentField, exponentMask, toNat_and_lowMask (by omega), toNat_ushiftRight,
    Nat.shiftRight_eq_div_pow]

theorem toNat_significandField (value : FloatValue) :
    (significandField value fmt).toNat =
      (rawBits value).toNat % 2 ^ fmt.significandStorageBits := by
  have storage := facts.storage
  have fits := facts.fits
  rw [significandField, toNat_and_lowMask (by omega)]

end

theorem signField_eq (value : FloatValue) :
    signField value fmt = decide ((rawBits value).toNat / 2 ^ (fmt.storageBits - 1) % 2 = 1) := by
  have bit : ∀ word : Word128, (word &&& 1 != 0) = decide (word.toNat % 2 = 1) := by
    intro word
    have masked : (word &&& 1).toNat = word.toNat % 2 := by
      rw [toNat_and]
      exact Nat.and_one_is_mod _
    have isZero : word &&& 1 = 0 ↔ word.toNat % 2 = 0 := by
      rw [← masked]
      exact ⟨fun same => by rw [same]; rfl, fun same => eq_of_toNat_eq same⟩
    have odd : word.toNat % 2 = 1 ↔ ¬ word.toNat % 2 = 0 := by omega
    rw [Bool.eq_iff_iff, bne_iff_ne, Ne, isZero, decide_eq_true_iff, odd]
  rw [signField, bit, toNat_ushiftRight, Nat.shiftRight_eq_div_pow]

def FloatValue.IsFinite (value : FloatValue) : Prop :=
  (decode value).classification = .zero ∨ (decode value).classification = .subnormal ∨
    (decode value).classification = .normal

/-- The number that a finite encoding stands for. -/
def FloatValue.toRat (value : FloatValue) : ℚ :=
  (if (decode value).negative then -1 else 1) * (decode value).significand *
    2 ^ (decode value).exponent

/-- The worth of the last bit of a subnormal value. -/
def FloatFormatDescriptor.lowestExponent (fmt : FloatFormatDescriptor) : ℤ :=
  fmt.minNormalExponent - (fmt.precision - 1)

/-- The worth of the last bit of the largest values. -/
def FloatFormatDescriptor.highestExponent (fmt : FloatFormatDescriptor) : ℤ :=
  fmt.maxNormalExponent - (fmt.precision - 1)

variable (known : descriptor format = some fmt) {value : FloatValue}
  (semantics : value.semantics = format) (canonical : value.canonical = true)

include known semantics canonical

theorem decode_low (low : (exponentField value fmt).toNat = 0) :
    (decode value).negative = signField value fmt ∧
      value.IsFinite ∧ (decode value).significand = (significandField value fmt).toNat ∧
      ((significandField value fmt).toNat ≠ 0 → (decode value).exponent = fmt.lowestExponent) := by
  have facts := formatFacts known
  have isZero : exponentField value fmt = 0 := eq_of_toNat_eq low
  have notMask := facts.zero_ne_exponentMask
  unfold FloatValue.IsFinite
  simp only [decode, semantics, known, canonical, Bool.not_true, false_eq_true, if_false,
    notMask, isZero, if_true]
  split
  case isTrue none => simp [none]
  case isFalse some =>
    exact ⟨rfl, .inr (ite_eq_or_eq _ _ _).symm, rfl, fun _ => rfl⟩

theorem decode_low_zero (low : (exponentField value fmt).toNat = 0) :
    (decode value).classification = .zero ↔ (significandField value fmt).toNat = 0 := by
  have facts := formatFacts known
  have isZero : exponentField value fmt = 0 := eq_of_toNat_eq low
  have notMask := facts.zero_ne_exponentMask
  have zeroIff : significandField value fmt = 0 ↔ (significandField value fmt).toNat = 0 := by
    rw [← toNat_inj]
    rfl
  simp only [decode, semantics, known, canonical, Bool.not_true, false_eq_true, if_false,
    notMask, isZero, if_true, ← zeroIff]
  split
  case isTrue none => simp [none]
  case isFalse some =>
    simp only [some, iff_false]
    split_ifs <;> simp

section

variable (positive : 0 < (exponentField value fmt).toNat)
  (below : (exponentField value fmt).toNat < 2 ^ fmt.exponentBits - 1)
include positive below

theorem decode_middle
    (integerBit : fmt.explicitIntegerBit = true →
      2 ^ (fmt.precision - 1) ≤ (significandField value fmt).toNat) :
    decode value =
      { classification := .normal
        negative := signField value fmt
        significand :=
          if fmt.explicitIntegerBit then (significandField value fmt).toNat
          else (significandField value fmt).toNat + 2 ^ (fmt.precision - 1)
        exponent := (exponentField value fmt).toNat - fmt.exponentBias - (fmt.precision - 1) } := by
  have facts := formatFacts known
  have notMask : ¬ exponentField value fmt = exponentMask fmt := by
    intro same
    rw [same, facts.toNat_exponentMask] at below
    omega
  have notZero : ¬ exponentField value fmt = 0 := by
    intro same
    rw [same] at positive
    exact absurd positive (by decide)
  simp only [decode, semantics, known, canonical, Bool.not_true, false_eq_true, if_false,
    notMask, notZero]
  have storage := facts.storage
  have fits := facts.fits
  have significand := facts.significand
  have precision := facts.precision
  have small := toNat_significandField facts value ▸
    Nat.mod_lt (rawBits value).toNat (Nat.two_pow_pos fmt.significandStorageBits)
  cases explicit : fmt.explicitIntegerBit with
  | true =>
    simp only [explicit, if_true] at significand
    have set : (significandField value fmt &&& ((1 <<< (fmt.precision - 1) : ℕ) : Word128) == 0) =
        false := by
      rw [beq_eq_false_iff_ne, Ne, and_setBit_eq_zero (by omega) (by
        rw [Nat.sub_add_cancel (by omega), ← significand]
        exact small)]
      exact Nat.not_lt.mpr (integerBit explicit)
    simp only [if_true, Bool.true_and, set, false_eq_true, if_false]
  | false =>
    simp only [explicit, false_eq_true, if_false] at significand
    have joined : (significandField value fmt ||| ((1 <<< (fmt.precision - 1) : ℕ) : Word128)).toNat =
        (significandField value fmt).toNat + 2 ^ (fmt.precision - 1) := by
      rw [toNat_or, toNat_setBit (by omega), Nat.or_two_pow_eq_add_of_lt (significand ▸ small)]
    simp only [Bool.false_and, false_eq_true, if_false, joined]

/-- Encodings without the integer bit they need are no values. -/
theorem decode_unnormal (explicit : fmt.explicitIntegerBit = true)
    (unset : (significandField value fmt).toNat < 2 ^ (fmt.precision - 1)) :
    ¬ value.IsFinite := by
  have facts := formatFacts known
  have notMask : ¬ exponentField value fmt = exponentMask fmt := by
    intro same
    rw [same, facts.toNat_exponentMask] at below
    omega
  have notZero : ¬ exponentField value fmt = 0 := by
    intro same
    rw [same] at positive
    exact absurd positive (by decide)
  have storage := facts.storage
  have fits := facts.fits
  have significand := facts.significand
  have precision := facts.precision
  have clear : (significandField value fmt &&& ((1 <<< (fmt.precision - 1) : ℕ) : Word128) == 0) =
      true := by
    simp only [explicit, if_true] at significand
    rw [beq_iff_eq, and_setBit_eq_zero (by omega)
      (unset.trans (Nat.pow_lt_pow_right (by norm_num) (Nat.lt_succ_self _)))]
    exact unset
  simp only [FloatValue.IsFinite, decode, semantics, known, canonical, Bool.not_true,
    false_eq_true, if_false, notMask, notZero, explicit, if_true, Bool.true_and, clear]
  simp

end

theorem decode_high (high : (exponentField value fmt).toNat = 2 ^ fmt.exponentBits - 1) :
    ¬ value.IsFinite := by
  have isMask : exponentField value fmt = exponentMask fmt :=
    eq_of_toNat_eq (high.trans (formatFacts known).toNat_exponentMask.symm)
  simp only [FloatValue.IsFinite, decode, semantics, known, canonical, Bool.not_true,
    false_eq_true, if_false, isMask, if_true]
  split_ifs <;> simp

end Fields

section Encodings

variable {format : FloatFormat} {fmt : FloatFormatDescriptor}

theorem toNat_rawBits (value : FloatValue) :
    (rawBits value).toNat = 2 ^ 64 * value.highBits.toNat + value.lowBits.toNat := by
  rw [rawBits, toNat_append, Nat.shiftLeft_eq, Nat.mul_comm,
    Nat.two_pow_add_eq_or_of_lt value.lowBits.isLt]

theorem shiftRight_beq_zero (word : BitVec 64) (count : ℕ) :
    (word >>> count == 0) = decide (word.toNat < 2 ^ count) := by
  have isZero : word >>> count = 0 ↔ word.toNat / 2 ^ count = 0 := by
    rw [← toNat_inj, toNat_ushiftRight, Nat.shiftRight_eq_div_pow]
    rfl
  rw [Bool.eq_iff_iff, beq_iff_eq, isZero, decide_eq_true_iff, Nat.div_eq_zero_iff]
  have := Nat.two_pow_pos count
  omega

theorem canonical_iff (known : descriptor format = some fmt) {value : FloatValue}
    (semantics : value.semantics = format) :
    value.canonical = true ↔ (rawBits value).toNat < 2 ^ fmt.storageBits := by
  have low := value.lowBits.isLt
  have high := value.highBits.isLt
  have noHigh : (value.highBits == 0) = decide (value.highBits.toNat = 0) := by
    rw [Bool.eq_iff_iff, beq_iff_eq, decide_eq_true_iff, ← toNat_inj]
    rfl
  rw [toNat_rawBits]
  cases format with
  | invalid => cases known
  | ieeeBinary16 | ieeeBinary32 | ieeeBinary64 | x87Extended80 | ieeeBinary128 =>
    cases known
    simp only [FloatValue.canonical, semantics, descriptor, shiftRight_beq_zero, noHigh]
    simp
    omega

theorem FloatValue.IsFinite.known {value : FloatValue} (finite : value.IsFinite) :
    ∃ fmt, descriptor value.semantics = some fmt ∧ value.canonical = true := by
  unfold FloatValue.IsFinite decode at finite
  split at finite
  · simp at finite
  · rename_i fmt known
    refine ⟨fmt, known, ?_⟩
    by_contra notCanonical
    rw [not_eq_true] at notCanonical
    simp only [notCanonical, Bool.not_false, if_true] at finite
    simp at finite

theorem fromRaw_semantics (known : descriptor format = some fmt) (raw : Word128) :
    (fromRaw format raw).semantics = format := by
  simp [fromRaw, known]

theorem rawBits_fromRaw (known : descriptor format = some fmt) {raw : Word128}
    (fits : raw.toNat < 2 ^ fmt.storageBits) : rawBits (fromRaw format raw) = raw := by
  have kept : (if fmt.storageBits < 128 then raw &&& lowMask fmt.storageBits else raw) = raw := by
    split
    · apply eq_of_toNat_eq
      rw [toNat_and_lowMask (formatFacts known).fits, Nat.mod_eq_of_lt fits]
    · rfl
  apply eq_of_toNat_eq
  rw [toNat_rawBits]
  simp only [fromRaw, known, kept]
  rw [toNat_setWidth, toNat_setWidth, toNat_ushiftRight, Nat.shiftRight_eq_div_pow]
  have := raw.isLt
  omega

/-- The number made of three fields. -/
def packed (fmt : FloatFormatDescriptor) (negative : Bool) (exponent significand : ℕ) : ℕ :=
  (if negative then 2 ^ (fmt.storageBits - 1) else 0) +
    exponent * 2 ^ fmt.significandStorageBits + significand

/-- An encoding packed from three fields. -/
structure Packs (format : FloatFormat) (fmt : FloatFormatDescriptor) (negative : Bool)
    (exponent significand : ℕ) (value : FloatValue) : Prop where
  semantics : value.semantics = format
  canonical : value.canonical = true
  sign : signField value fmt = negative
  exponent : (exponentField value fmt).toNat = exponent
  significand : (significandField value fmt).toNat = significand

theorem packs_fromRaw (known : descriptor format = some fmt) {negative : Bool}
    {exponent significand : ℕ} (exponentFits : exponent < 2 ^ fmt.exponentBits)
    (significandFits : significand < 2 ^ fmt.significandStorageBits) {raw : Word128}
    (isPacked : raw.toNat = packed fmt negative exponent significand) :
    Packs format fmt negative exponent significand (fromRaw format raw) := by
  have facts := formatFacts known
  have top : 2 ^ (fmt.storageBits - 1) = 2 ^ fmt.exponentBits * 2 ^ fmt.significandStorageBits := by
    rw [← Nat.pow_add]
    have storage := facts.storage
    congr 1
    omega
  have double : 2 ^ fmt.storageBits = 2 * 2 ^ (fmt.storageBits - 1) := by
    rw [← Nat.pow_succ']
    have storage := facts.storage
    congr 1
    omega
  have unit := Nat.two_pow_pos fmt.significandStorageBits
  have low : exponent * 2 ^ fmt.significandStorageBits + significand <
      2 ^ (fmt.storageBits - 1) := by
    rw [top]
    calc exponent * 2 ^ fmt.significandStorageBits + significand
        < exponent * 2 ^ fmt.significandStorageBits + 2 ^ fmt.significandStorageBits := by omega
      _ = (exponent + 1) * 2 ^ fmt.significandStorageBits := by ring
      _ ≤ 2 ^ fmt.exponentBits * 2 ^ fmt.significandStorageBits :=
          Nat.mul_le_mul_right _ exponentFits
  have fits : raw.toNat < 2 ^ fmt.storageBits := by
    rw [isPacked, packed, double]
    split <;> omega
  have bits := rawBits_fromRaw known fits
  have semantics := fromRaw_semantics known raw
  -- the sign and the exponent field together
  have upper : raw.toNat = significand + 2 ^ fmt.significandStorageBits *
      ((if negative then 2 ^ fmt.exponentBits else 0) + exponent) := by
    rw [isPacked, packed, top]
    split <;> ring
  refine ⟨semantics, ?_, ?_, ?_, ?_⟩
  · rw [canonical_iff known semantics, bits]
    exact fits
  · rw [signField_eq, bits, isPacked, packed]
    cases negative with
    | true =>
      have quotient : (2 ^ (fmt.storageBits - 1) +
          exponent * 2 ^ fmt.significandStorageBits + significand) /
            2 ^ (fmt.storageBits - 1) = 1 := by
        rw [Nat.add_assoc, Nat.add_div_left _ (Nat.two_pow_pos _), Nat.div_eq_of_lt low]
      simp [quotient]
    | false =>
      have quotient : (exponent * 2 ^ fmt.significandStorageBits + significand) /
          2 ^ (fmt.storageBits - 1) = 0 := Nat.div_eq_of_lt low
      simp [quotient]
  · rw [toNat_exponentField facts, bits, upper, Nat.add_mul_div_left _ _ unit,
      Nat.div_eq_of_lt significandFits, Nat.zero_add]
    split
    · rw [Nat.add_mod_left, Nat.mod_eq_of_lt exponentFits]
    · rw [Nat.zero_add, Nat.mod_eq_of_lt exponentFits]
  · rw [toNat_significandField facts, bits, upper, Nat.add_mul_mod_self_left,
      Nat.mod_eq_of_lt significandFits]

/-- Encodings that differ in the sign field only. -/
theorem Packs.decode_eq (known : descriptor format = some fmt) {negative other : Bool}
    {exponent significand : ℕ} {left right : FloatValue}
    (leftPacks : Packs format fmt negative exponent significand left)
    (rightPacks : Packs format fmt other exponent significand right) :
    decode right = { decode left with negative := other } := by
  have exponents : exponentField right fmt = exponentField left fmt :=
    eq_of_toNat_eq (rightPacks.exponent.trans leftPacks.exponent.symm)
  have significands : significandField right fmt = significandField left fmt :=
    eq_of_toNat_eq (rightPacks.significand.trans leftPacks.significand.symm)
  simp only [decode, leftPacks.semantics, rightPacks.semantics, known, leftPacks.canonical,
    rightPacks.canonical, Bool.not_true, false_eq_true, if_false, exponents, significands,
    rightPacks.sign]
  split_ifs <;> rfl

/-- A magnitude with a sign. -/
def signed (negative : Bool) (magnitude : ℚ) : ℚ := if negative then -magnitude else magnitude

theorem toRat_eq (value : FloatValue) :
    value.toRat = signed (decode value).negative
      ((decode value).significand * 2 ^ (decode value).exponent) := by
  rw [FloatValue.toRat, signed]
  split <;> ring

/-- What an encoding stands for. -/
structure Stands (format : FloatFormat) (negative : Bool) (count : ℕ) (unit : ℤ)
    (value : FloatValue) : Prop where
  semantics : value.semantics = format
  canonical : value.canonical = true
  finite : value.IsFinite
  sign : (decode value).negative = negative
  significand : (decode value).significand = count
  toRat : value.toRat = signed negative (count * 2 ^ unit)

theorem Packs.stands_low (known : descriptor format = some fmt) {negative : Bool}
    {significand : ℕ} {value : FloatValue} (packs : Packs format fmt negative 0 significand value) :
    Stands format negative significand fmt.lowestExponent value := by
  obtain ⟨sign, finite, isSignificand, exponent⟩ :=
    decode_low known packs.semantics packs.canonical packs.exponent
  rw [packs.significand] at isSignificand exponent
  rw [packs.sign] at sign
  refine ⟨packs.semantics, packs.canonical, finite, sign, isSignificand, ?_⟩
  rw [toRat_eq, sign, isSignificand]
  by_cases isZero : significand = 0
  · simp [isZero]
  · rw [exponent isZero]

/-- The significand field of a normal value leaves an implicit integer bit out. -/
def storedSignificand (fmt : FloatFormatDescriptor) (significand : ℕ) : ℕ :=
  if fmt.explicitIntegerBit then significand else significand - 2 ^ (fmt.precision - 1)

theorem Packs.stands_normal (known : descriptor format = some fmt) {negative : Bool}
    {exponent significand : ℕ} {value : FloatValue}
    (packs : Packs format fmt negative exponent (storedSignificand fmt significand) value)
    (positive : 0 < exponent) (below : exponent < 2 ^ fmt.exponentBits - 1)
    (normal : 2 ^ (fmt.precision - 1) ≤ significand) :
    Stands format negative significand (exponent - fmt.exponentBias - (fmt.precision - 1))
      value := by
  have decoded := decode_middle known packs.semantics packs.canonical
    (packs.exponent.symm ▸ positive) (packs.exponent.symm ▸ below) (by
      intro explicit
      rw [packs.significand, storedSignificand, explicit, if_pos rfl]
      exact normal)
  have full : (if fmt.explicitIntegerBit = true then (significandField value fmt).toNat
      else (significandField value fmt).toNat + 2 ^ (fmt.precision - 1)) = significand := by
    rw [packs.significand, storedSignificand]
    split <;> omega
  rw [full, packs.sign, packs.exponent] at decoded
  refine ⟨packs.semantics, packs.canonical, .inr (.inr (by rw [decoded])), by rw [decoded],
    by rw [decoded], ?_⟩
  rw [toRat_eq, decoded]

section

variable (facts : FormatFacts fmt) (negative : Bool)
include facts negative

theorem toNat_signBits :
    (signBits negative fmt).toNat = if negative then 2 ^ (fmt.storageBits - 1) else 0 := by
  have storage := facts.storage
  have fits := facts.fits
  rw [signBits]
  split
  · exact toNat_setBit (by omega)
  · rfl

/-- Fields next to each other do not overlap. -/
theorem toNat_fields {exponent significand : Word128}
    (exponentFits : exponent.toNat < 2 ^ fmt.exponentBits)
    (significandFits : significand.toNat < 2 ^ fmt.significandStorageBits) :
    (signBits negative fmt ||| exponent <<< fmt.significandStorageBits ||| significand).toNat =
      packed fmt negative exponent.toNat significand.toNat := by
  have storage := facts.storage
  have fits := facts.fits
  have top : 2 ^ (fmt.storageBits - 1) = 2 ^ fmt.significandStorageBits * 2 ^ fmt.exponentBits := by
    rw [← Nat.pow_add]
    congr 1
    omega
  have shifted : (exponent <<< fmt.significandStorageBits).toNat =
      2 ^ fmt.significandStorageBits * exponent.toNat := by
    have room : 2 ^ fmt.significandStorageBits * exponent.toNat < 2 ^ 128 := by
      calc 2 ^ fmt.significandStorageBits * exponent.toNat
          < 2 ^ fmt.significandStorageBits * 2 ^ fmt.exponentBits :=
            Nat.mul_lt_mul_of_pos_left exponentFits (Nat.two_pow_pos _)
        _ = 2 ^ (fmt.storageBits - 1) := top.symm
        _ ≤ 2 ^ 128 := Nat.pow_le_pow_right (by norm_num) (by omega)
    rw [toNat_shiftLeft, Nat.shiftLeft_eq, Nat.mul_comm, Nat.mod_eq_of_lt room]
  have upper : (if negative then 2 ^ (fmt.storageBits - 1) else 0) |||
      2 ^ fmt.significandStorageBits * exponent.toNat =
      2 ^ fmt.significandStorageBits *
        ((if negative then 2 ^ fmt.exponentBits else 0) + exponent.toNat) := by
    cases negative with
    | true =>
      simp only [if_true]
      have joined := Nat.two_pow_add_eq_or_of_lt exponentFits 1
      rw [Nat.mul_one] at joined
      rw [top, joined, Nat.mul_comm, ← Nat.shiftLeft_eq, Nat.mul_comm, ← Nat.shiftLeft_eq,
        Nat.mul_comm, ← Nat.shiftLeft_eq, Nat.shiftLeft_or_distrib]
    | false => simp
  rw [toNat_or, toNat_or, toNat_signBits facts, shifted, upper,
    ← Nat.two_pow_add_eq_or_of_lt significandFits, packed, top]
  split <;> ring

theorem toNat_lowFields {significand : Word128}
    (significandFits : significand.toNat < 2 ^ fmt.significandStorageBits) :
    (signBits negative fmt ||| significand).toNat = packed fmt negative 0 significand.toNat := by
  have fields := @toNat_fields _ facts negative 0#128 _ (by simp) significandFits
  simpa using fields

end

theorem FormatFacts.lowest_le_highest (facts : FormatFacts fmt) :
    fmt.lowestExponent ≤ fmt.highestExponent := by
  have bias := facts.bias_pos
  rw [FloatFormatDescriptor.lowestExponent, FloatFormatDescriptor.highestExponent,
    facts.maxNormal, FloatFormatDescriptor.minNormalExponent]
  omega

section

variable {value : FloatValue} (finite : value.IsFinite)
include finite

/-- The fields of a finite value that is not low. -/
theorem FloatValue.IsFinite.normal_fields (known : descriptor format = some fmt)
    (semantics : value.semantics = format) (notLow : ¬ (exponentField value fmt).toNat = 0) :
    0 < (exponentField value fmt).toNat ∧
      (exponentField value fmt).toNat < 2 ^ fmt.exponentBits - 1 ∧
      (fmt.explicitIntegerBit = true →
        2 ^ (fmt.precision - 1) ≤ (significandField value fmt).toNat) := by
  obtain ⟨other, isOther, canonical⟩ := finite.known
  have facts := formatFacts known
  have bound : (exponentField value fmt).toNat < 2 ^ fmt.exponentBits :=
    toNat_exponentField facts value ▸ Nat.mod_lt _ (Nat.two_pow_pos _)
  have positive : 0 < (exponentField value fmt).toNat := Nat.pos_of_ne_zero notLow
  have below : (exponentField value fmt).toNat < 2 ^ fmt.exponentBits - 1 := by
    by_contra high
    exact decode_high known semantics canonical (by omega) finite
  refine ⟨positive, below, fun explicit => ?_⟩
  by_contra unset
  exact decode_unnormal known semantics canonical positive below explicit (by omega) finite

theorem FloatValue.IsFinite.zero_iff :
    (decode value).classification = .zero ↔ (decode value).significand = 0 := by
  obtain ⟨fmt, known, canonical⟩ := finite.known
  by_cases low : (exponentField value fmt).toNat = 0
  · rw [decode_low_zero known rfl canonical low, (decode_low known rfl canonical low).2.2.1]
  · obtain ⟨positive, below, integerBit⟩ := finite.normal_fields known rfl low
    have leading := Nat.two_pow_pos (fmt.precision - 1)
    rw [decode_middle known rfl canonical positive below integerBit]
    simp only [reduceCtorEq, false_iff]
    split
    case isTrue explicit =>
      have := integerBit explicit
      omega
    case isFalse => omega

/-- The integer and the exponent of a finite value other than zero. -/
theorem FloatValue.IsFinite.decoded_form (known : descriptor format = some fmt)
    (semantics : value.semantics = format) :
    (decode value).significand < 2 ^ fmt.precision ∧
      ((decode value).significand ≠ 0 → fmt.lowestExponent ≤ (decode value).exponent ∧
        (decode value).exponent ≤ fmt.highestExponent ∧
        ((decode value).exponent = fmt.lowestExponent ∨
          2 ^ fmt.precision ≤ 2 * (decode value).significand)) := by
  have facts := formatFacts known
  obtain ⟨other, isOther, canonical⟩ := finite.known
  have precision := facts.precision
  have storage := facts.significand
  have double : 2 ^ fmt.precision = 2 * 2 ^ (fmt.precision - 1) := by
    rw [← Nat.pow_succ']
    congr 1
    omega
  have stored : (significandField value fmt).toNat < 2 ^ fmt.significandStorageBits :=
    toNat_significandField facts value ▸ Nat.mod_lt _ (Nat.two_pow_pos _)
  have widest : 2 ^ fmt.significandStorageBits ≤ 2 ^ fmt.precision := by
    apply Nat.pow_le_pow_right (by norm_num)
    rw [storage]
    split <;> omega
  by_cases low : (exponentField value fmt).toNat = 0
  · obtain ⟨-, -, isSignificand, exponent⟩ := decode_low known semantics canonical low
    rw [isSignificand]
    refine ⟨stored.trans_le widest, fun nonzero => ?_⟩
    rw [exponent nonzero]
    exact ⟨le_refl _, facts.lowest_le_highest, .inl rfl⟩
  · obtain ⟨positive, below, integerBit⟩ := finite.normal_fields known semantics low
    have decoded := decode_middle known semantics canonical positive below integerBit
    have full : (decode value).significand < 2 ^ fmt.precision ∧
        2 ^ fmt.precision ≤ 2 * (decode value).significand := by
      rw [decoded]
      cases explicit : fmt.explicitIntegerBit with
      | true =>
        have leading := integerBit explicit
        simp only [explicit, if_true] at storage ⊢
        exact ⟨storage ▸ stored, by omega⟩
      | false =>
        simp only [explicit, false_eq_true, if_false] at storage ⊢
        rw [storage] at stored
        omega
    have exponent : (decode value).exponent =
        (exponentField value fmt).toNat - fmt.exponentBias - (fmt.precision - 1) := by
      rw [decoded]
    have top : ((2 ^ fmt.exponentBits : ℕ) : ℤ) = 2 ^ fmt.exponentBits := by push_cast; rfl
    refine ⟨full.1, fun _ => ⟨?_, ?_, .inr full.2⟩⟩
    · rw [exponent, FloatFormatDescriptor.lowestExponent, FloatFormatDescriptor.minNormalExponent]
      omega
    · rw [exponent, FloatFormatDescriptor.highestExponent, FloatFormatDescriptor.maxNormalExponent]
      omega

theorem FloatValue.IsFinite.onGrid (known : descriptor format = some fmt)
    (semantics : value.semantics = format) :
    ∃ magnitude ∈ grid fmt.precision fmt.lowestExponent fmt.highestExponent,
      value.toRat = signed (decode value).negative magnitude := by
  obtain ⟨small, form⟩ := finite.decoded_form known semantics
  by_cases isZero : (decode value).significand = 0
  · refine ⟨0, ⟨0, fmt.lowestExponent, Nat.two_pow_pos _, le_refl _,
      (formatFacts known).lowest_le_highest, by simp⟩, ?_⟩
    rw [toRat_eq, isZero]
    simp
  · obtain ⟨atLeast, atMost, -⟩ := form isZero
    exact ⟨_, ⟨_, _, small, atLeast, atMost, rfl⟩, toRat_eq value⟩

end

section Stands

variable (known : descriptor format = some fmt) (negative : Bool)

include known

theorem stands_subnormal {significand : ℕ}
    (small : significand < 2 ^ fmt.significandStorageBits) :
    Stands format negative significand fmt.lowestExponent
      (fromRaw format (signBits negative fmt ||| BitVec.ofNat 128 significand)) := by
  have facts := formatFacts known
  have storage := facts.storage
  have fits := facts.fits
  have word : (BitVec.ofNat 128 significand).toNat = significand := by
    rw [toNat_ofNat, Nat.mod_eq_of_lt]
    exact small.trans_le (Nat.pow_le_pow_right (by norm_num) (by omega))
  have fields := @toNat_lowFields _ facts negative (BitVec.ofNat 128 significand)
    (by rw [word]; exact small)
  rw [word] at fields
  have packs := packs_fromRaw known (Nat.two_pow_pos fmt.exponentBits) small fields
  exact packs.stands_low known

theorem precision_pow : 2 ^ fmt.precision = 2 * 2 ^ (fmt.precision - 1) := by
  have precision := (formatFacts known).precision
  rw [← Nat.pow_succ']
  congr 1
  omega

/-- The significand field takes what the integer bit leaves. -/
theorem storedSignificand_lt {significand : ℕ} (normal : 2 ^ (fmt.precision - 1) ≤ significand)
    (small : significand < 2 ^ fmt.precision) :
    storedSignificand fmt significand < 2 ^ fmt.significandStorageBits := by
  have double := precision_pow known
  rw [storedSignificand, (formatFacts known).significand]
  split <;> omega

theorem stands_normal {exponent : ℤ} {significand : ℕ}
    (atLeast : fmt.minNormalExponent ≤ exponent) (atMost : exponent ≤ fmt.maxNormalExponent)
    (normal : 2 ^ (fmt.precision - 1) ≤ significand) (small : significand < 2 ^ fmt.precision) :
    Stands format negative significand (exponent - (fmt.precision - 1))
      (fromRaw format (signBits negative fmt |||
        BitVec.ofInt 128 (exponent + fmt.exponentBias) <<< fmt.significandStorageBits |||
        if fmt.explicitIntegerBit then BitVec.ofNat 128 significand
        else BitVec.ofNat 128 significand &&& BitVec.ofNat 128 (2 ^ (fmt.precision - 1) - 1))) := by
  have facts := formatFacts known
  have storage := facts.storage
  have fits := facts.fits
  have width := facts.significand
  have precision := facts.precision
  have power := facts.exponents_pow
  have double := precision_pow known
  have stored := storedSignificand_lt known normal small
  -- the exponent field
  obtain ⟨field, isField⟩ : ∃ field : ℕ, exponent + fmt.exponentBias = field :=
    ⟨(exponent + fmt.exponentBias).toNat, by
      rw [FloatFormatDescriptor.minNormalExponent] at atLeast
      omega⟩
  have top : ((2 ^ fmt.exponentBits : ℕ) : ℤ) = 2 ^ fmt.exponentBits := by push_cast; rfl
  have below : field < 2 ^ fmt.exponentBits - 1 := by
    rw [FloatFormatDescriptor.maxNormalExponent] at atMost
    omega
  have positive : 0 < field := by
    rw [FloatFormatDescriptor.minNormalExponent] at atLeast
    omega
  have fieldWord : (BitVec.ofInt 128 (exponent + fmt.exponentBias)).toNat = field := by
    rw [isField, ofInt_natCast, toNat_ofNat, Nat.mod_eq_of_lt]
    calc field < 2 ^ fmt.exponentBits := by omega
      _ ≤ 2 ^ 128 := Nat.pow_le_pow_right (by norm_num) (by omega)
  -- the significand field
  have word : (BitVec.ofNat 128 significand).toNat = significand := by
    rw [toNat_ofNat, Nat.mod_eq_of_lt]
    refine small.trans_le (Nat.pow_le_pow_right (by norm_num) ?_)
    split at width <;> omega
  have storedWord : (if fmt.explicitIntegerBit then BitVec.ofNat 128 significand
      else BitVec.ofNat 128 significand &&& BitVec.ofNat 128 (2 ^ (fmt.precision - 1) - 1)).toNat =
      storedSignificand fmt significand := by
    rw [storedSignificand]
    split
    · exact word
    · have masked := @toNat_and_lowMask (fmt.precision - 1)
        (by split at width <;> omega) (BitVec.ofNat 128 significand)
      rw [lowMask, word] at masked
      rw [masked, Nat.mod_eq_sub_mod normal, Nat.mod_eq_of_lt (by omega)]
  have fields := toNat_fields facts negative (by rw [fieldWord]; omega)
    (by rw [storedWord]; exact stored)
  rw [fieldWord, storedWord] at fields
  have stands := (packs_fromRaw known (by omega) stored fields).stands_normal known positive
    below normal
  rwa [← isField, Int.add_sub_cancel] at stands

theorem stands_zero : Stands format negative 0 fmt.lowestExponent (zero format negative) := by
  have stands := stands_subnormal known negative (Nat.two_pow_pos fmt.significandStorageBits)
  simp only [zero, known]
  simpa using stands

theorem stands_minimumSubnormal :
    Stands format negative 1 fmt.lowestExponent (minimumSubnormal format negative) := by
  have facts := formatFacts known
  have precision := facts.precision
  have width := facts.significand
  have stands := @stands_subnormal _ _ known negative 1
    (Nat.one_lt_two_pow (by split at width <;> omega))
  simp only [minimumSubnormal, known]
  exact stands

theorem stands_maximumFinite :
    Stands format negative (2 ^ fmt.precision - 1) fmt.highestExponent
      (maximumFinite format negative) := by
  have facts := formatFacts known
  have storage := facts.storage
  have fits := facts.fits
  have power := facts.exponents_pow
  have double := precision_pow known
  have half := Nat.two_pow_pos (fmt.precision - 1)
  have all : storedSignificand fmt (2 ^ fmt.precision - 1) =
      2 ^ fmt.significandStorageBits - 1 := by
    rw [storedSignificand, facts.significand]
    split
    · rfl
    · omega
  have exponentWord : (exponentMask fmt - 1).toNat = 2 ^ fmt.exponentBits - 2 := by
    have mask := facts.toNat_exponentMask
    rw [toNat_sub_of_le (by rw [le_def, mask]; simp; omega), mask]
    simp
    omega
  have significandWord : (lowMask fmt.significandStorageBits).toNat =
      storedSignificand fmt (2 ^ fmt.precision - 1) := by
    rw [toNat_lowMask (by omega), all]
  have stored : storedSignificand fmt (2 ^ fmt.precision - 1) < 2 ^ fmt.significandStorageBits :=
    storedSignificand_lt known (by omega) (by omega)
  have fields := toNat_fields facts negative (by rw [exponentWord]; omega)
    (by rw [significandWord]; exact stored)
  rw [exponentWord, significandWord] at fields
  have stands := (packs_fromRaw known (by omega) stored fields).stands_normal known (by omega)
    (by omega) (by omega)
  have top : ((2 ^ fmt.exponentBits - 2 : ℕ) : ℤ) = 2 ^ fmt.exponentBits - 2 := by
    rw [Nat.cast_sub (by omega)]
    push_cast
    rfl
  simp only [maximumFinite, known]
  rw [top] at stands
  exact stands

theorem decode_infinity :
    (infinity format negative).semantics = format ∧
      (infinity format negative).canonical = true ∧
      decode (infinity format negative) = { classification := .infinity, negative } := by
  cases format with
  | invalid => cases known
  | ieeeBinary16 | ieeeBinary32 | ieeeBinary64 | x87Extended80 | ieeeBinary128 =>
    revert negative
    decide

theorem infinity_not_finite : ¬ (infinity format negative).IsFinite := by
  obtain ⟨-, -, decoded⟩ := decode_infinity known negative
  simp [FloatValue.IsFinite, decoded]

end Stands

end Encodings

end Aburi.Numeric
