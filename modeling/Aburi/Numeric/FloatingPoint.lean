import Mathlib.Algebra.Group.Int.Defs
import Mathlib.Algebra.Ring.Nat
import Mathlib.Data.Nat.Size

/-!
# Software floating point

Encodings, decoding and the rounding of an exact rational into a format, with
the conversions built on it.  Unsigned big integers are natural numbers and
the 128-bit words of the source are bit vectors.
-/

namespace Aburi.Numeric

open BitVec

abbrev Word128 := BitVec 128

inductive FloatFormat where
  | invalid
  | ieeeBinary16
  | ieeeBinary32
  | ieeeBinary64
  | x87Extended80
  | ieeeBinary128
  deriving DecidableEq

structure FloatFormatDescriptor where
  storageBits : ℕ
  precision : ℕ
  significandStorageBits : ℕ
  exponentBits : ℕ
  exponentBias : ℤ
  explicitIntegerBit : Bool
  deriving DecidableEq

namespace FloatFormatDescriptor

def minNormalExponent (fmt : FloatFormatDescriptor) : ℤ := 1 - fmt.exponentBias

def maxNormalExponent (fmt : FloatFormatDescriptor) : ℤ :=
  2 ^ fmt.exponentBits - 2 - fmt.exponentBias

end FloatFormatDescriptor

def descriptor : FloatFormat → Option FloatFormatDescriptor
  | .invalid => none
  | .ieeeBinary16 => some ⟨16, 11, 10, 5, 15, false⟩
  | .ieeeBinary32 => some ⟨32, 24, 23, 8, 127, false⟩
  | .ieeeBinary64 => some ⟨64, 53, 52, 11, 1023, false⟩
  | .x87Extended80 => some ⟨80, 64, 64, 15, 16383, true⟩
  | .ieeeBinary128 => some ⟨128, 113, 112, 15, 16383, false⟩

structure FloatValue where
  semantics : FloatFormat := .invalid
  lowBits : BitVec 64 := 0
  highBits : BitVec 64 := 0
  deriving DecidableEq

inductive FloatClass where
  | invalid
  | zero
  | subnormal
  | normal
  | infinity
  | quietNaN
  | signalingNaN
  deriving DecidableEq

inductive RoundingMode where
  | nearestTiesToEven
  | nearestTiesAway
  | towardZero
  | towardPositive
  | towardNegative
  deriving DecidableEq

inductive TininessMode where
  | beforeRounding
  | afterRounding
  deriving DecidableEq

structure FloatControl where
  rounding : RoundingMode := .nearestTiesToEven
  tininess : TininessMode := .afterRounding
  deriving DecidableEq

structure FloatStatus where
  invalid : Bool := false
  divideByZero : Bool := false
  overflow : Bool := false
  underflow : Bool := false
  inexact : Bool := false
  deriving DecidableEq

inductive FloatError where
  | none
  | invalidFormat
  | invalidEncoding
  | formatMismatch
  | invalidIntegerWidth
  | integerOutOfRange
  deriving DecidableEq

structure FloatResult where
  value : FloatValue := {}
  status : FloatStatus := {}
  error : FloatError := .none
  deriving DecidableEq

def FloatResult.hasValue (result : FloatResult) : Bool :=
  result.error == .none && result.value.semantics != .invalid

def lowMask (bits : ℕ) : Word128 := BitVec.ofNat 128 (2 ^ bits - 1)

def rawBits (value : FloatValue) : Word128 := value.highBits ++ value.lowBits

def fromRaw (format : FloatFormat) (raw : Word128) : FloatValue :=
  match descriptor format with
  | none => {}
  | some fmt =>
    let kept := if fmt.storageBits < 128 then raw &&& lowMask fmt.storageBits else raw
    ⟨format, kept.setWidth 64, (kept >>> 64).setWidth 64⟩

def FloatValue.canonical (value : FloatValue) : Bool :=
  match descriptor value.semantics with
  | none => false
  | some fmt =>
    if fmt.storageBits ≤ 64 then
      value.highBits == 0 && (fmt.storageBits == 64 || value.lowBits >>> fmt.storageBits == 0)
    else
      fmt.storageBits - 64 == 64 || value.highBits >>> (fmt.storageBits - 64) == 0

def exponentMask (fmt : FloatFormatDescriptor) : Word128 := lowMask fmt.exponentBits

def exponentField (value : FloatValue) (fmt : FloatFormatDescriptor) : Word128 :=
  rawBits value >>> fmt.significandStorageBits &&& exponentMask fmt

def significandField (value : FloatValue) (fmt : FloatFormatDescriptor) : Word128 :=
  rawBits value &&& lowMask fmt.significandStorageBits

def signField (value : FloatValue) (fmt : FloatFormatDescriptor) : Bool :=
  rawBits value >>> (fmt.storageBits - 1) &&& 1 != 0

def signBits (negative : Bool) (fmt : FloatFormatDescriptor) : Word128 :=
  if negative then 1 <<< (fmt.storageBits - 1) else 0

def zero (format : FloatFormat) (negative : Bool) : FloatValue :=
  match descriptor format with
  | none => {}
  | some fmt => fromRaw format (signBits negative fmt)

def infinity (format : FloatFormat) (negative : Bool) : FloatValue :=
  match descriptor format with
  | none => {}
  | some fmt =>
    let significand : Word128 :=
      if fmt.explicitIntegerBit then 1 <<< (fmt.precision - 1) else 0
    fromRaw format (signBits negative fmt |||
      exponentMask fmt <<< fmt.significandStorageBits ||| significand)

def maximumFinite (format : FloatFormat) (negative : Bool) : FloatValue :=
  match descriptor format with
  | none => {}
  | some fmt =>
    fromRaw format (signBits negative fmt |||
      (exponentMask fmt - 1) <<< fmt.significandStorageBits |||
      lowMask fmt.significandStorageBits)

def minimumSubnormal (format : FloatFormat) (negative : Bool) : FloatValue :=
  match descriptor format with
  | none => {}
  | some fmt => fromRaw format (signBits negative fmt ||| 1)

/-- The quiet bit is the highest bit of the fraction. -/
def quietPosition (fmt : FloatFormatDescriptor) : ℕ :=
  if fmt.explicitIntegerBit then fmt.precision - 2 else fmt.significandStorageBits - 1

def makeNan (format : FloatFormat) (negative signaling : Bool) (payload : ℕ) :
    FloatValue :=
  match descriptor format with
  | none => {}
  | some fmt =>
    let quietBit : Word128 := 1 <<< quietPosition fmt
    let kept := BitVec.ofNat 128 payload &&& (quietBit - 1)
    let fraction :=
      if signaling then if kept = 0 then 1 else kept else kept ||| quietBit
    let fraction :=
      if fmt.explicitIntegerBit then fraction ||| 1 <<< (fmt.precision - 1)
      else fraction
    fromRaw format (signBits negative fmt |||
      exponentMask fmt <<< fmt.significandStorageBits ||| fraction)

/-- A finite value is its significand times two to its exponent. -/
structure DecodedFloat where
  classification : FloatClass := .invalid
  negative : Bool := false
  significand : ℕ := 0
  payload : ℕ := 0
  exponent : ℤ := 0
  deriving DecidableEq

def decode (value : FloatValue) : DecodedFloat :=
  match descriptor value.semantics with
  | none => {}
  | some fmt =>
    if !value.canonical then {}
    else
      let negative := signField value fmt
      let exponent := exponentField value fmt
      let significand := significandField value fmt
      let integerBit : Word128 :=
        if fmt.explicitIntegerBit then 1 <<< (fmt.precision - 1) else 0
      let fractionMask :=
        if fmt.explicitIntegerBit then integerBit - 1
        else lowMask fmt.significandStorageBits
      if exponent = exponentMask fmt then
        if fmt.explicitIntegerBit && significand &&& integerBit == 0 then
          { negative }
        else
          let fraction := significand &&& fractionMask
          if fraction = 0 then { classification := .infinity, negative }
          else
            let quietBit : Word128 := 1 <<< quietPosition fmt
            { classification :=
                if fraction &&& quietBit != 0 then .quietNaN else .signalingNaN
              negative
              payload := (fraction &&& ~~~quietBit).toNat }
      else if exponent = 0 then
        if significand = 0 then { classification := .zero, negative }
        else
          { classification :=
              if fmt.explicitIntegerBit && significand &&& integerBit != 0 then .normal
              else .subnormal
            negative
            significand := significand.toNat
            exponent := fmt.minNormalExponent - (fmt.precision - 1) }
      else if fmt.explicitIntegerBit && significand &&& integerBit == 0 then
        { negative }
      else
        let full :=
          if fmt.explicitIntegerBit then significand
          else significand ||| 1 <<< (fmt.precision - 1)
        { classification := .normal
          negative
          significand := full.toNat
          exponent := exponent.toNat - fmt.exponentBias - (fmt.precision - 1) }

def errorResult (error : FloatError) : FloatResult := { error }

def overflowResult (format : FloatFormat) (negative : Bool) (control : FloatControl) :
    FloatResult :=
  let toInfinity :=
    match control.rounding with
    | .nearestTiesToEven | .nearestTiesAway => true
    | .towardZero => false
    | .towardPositive => !negative
    | .towardNegative => negative
  { value := if toInfinity then infinity format negative else maximumFinite format negative
    status := { overflow := true, inexact := true } }

def tinyNonzeroResult (format : FloatFormat) (negative : Bool) (control : FloatControl) :
    FloatResult :=
  let away :=
    control.rounding == .towardPositive && !negative ||
      control.rounding == .towardNegative && negative
  { value := if away then minimumSubnormal format negative else zero format negative
    status := { underflow := true, inexact := true } }

/-- Scaling compares numbers of equal bit width after a common shift. -/
def scaledBelow (lhs rhs : ℕ) : Bool :=
  let shift : ℤ := (lhs.size : ℤ) - rhs.size
  if shift ≤ 0 then decide (lhs <<< (-shift).toNat < rhs)
  else decide (lhs < rhs <<< shift.toNat)

def roundsUp (control : FloatControl) (negative : Bool)
    (significand remainder denominator : ℕ) : Bool :=
  match control.rounding with
  | .nearestTiesToEven =>
    decide (denominator < 2 * remainder) ||
      decide (2 * remainder = denominator) && significand % 2 == 1
  | .nearestTiesAway => decide (denominator ≤ 2 * remainder)
  | .towardZero => false
  | .towardPositive => !negative
  | .towardNegative => negative

/-- Rounds the rational `numerator / denominator * 2 ^ binaryExponent`. -/
def roundRational (negative : Bool) (numerator denominator : ℕ) (binaryExponent : ℤ)
    (format : FloatFormat) (control : FloatControl) : FloatResult :=
  match descriptor format with
  | none => errorResult .invalidFormat
  | some fmt =>
    if numerator = 0 then { value := zero format negative }
    else if denominator = 0 then errorResult .invalidEncoding
    else
      let candidate : ℤ := (numerator.size : ℤ) - denominator.size + binaryExponent
      let exponent := candidate - if scaledBelow numerator denominator then 1 else 0
      let minimumSubnormalExponent := fmt.minNormalExponent - (fmt.precision - 1)
      if fmt.maxNormalExponent + 1 < exponent then
        overflowResult format negative control
      else if exponent < minimumSubnormalExponent - 1 then
        tinyNonzeroResult format negative control
      else
        let tinyBefore := decide (exponent < fmt.minNormalExponent)
        let unitExponent :=
          if tinyBefore then minimumSubnormalExponent else exponent - (fmt.precision - 1)
        let shift := binaryExponent - unitExponent
        let effectiveNumerator := if 0 ≤ shift then numerator <<< shift.toNat else numerator
        let effectiveDenominator :=
          if 0 ≤ shift then denominator else denominator <<< (-shift).toNat
        let quotient := effectiveNumerator / effectiveDenominator
        let remainder := effectiveNumerator % effectiveDenominator
        let inexact := remainder != 0
        let rounded :=
          if inexact && roundsUp control negative quotient remainder effectiveDenominator
          then quotient + 1 else quotient
        let normalLimit := 2 ^ fmt.precision
        let minimumNormal := 2 ^ (fmt.precision - 1)
        let carried := !tinyBefore && decide (normalLimit ≤ rounded)
        let significand := if carried then rounded / 2 else rounded
        let normal := !tinyBefore || decide (minimumNormal ≤ rounded)
        let exponent :=
          if carried then exponent + 1
          else if tinyBefore && decide (minimumNormal ≤ rounded) then fmt.minNormalExponent
          else exponent
        if normal && decide (fmt.maxNormalExponent < exponent) then
          overflowResult format negative control
        else
          let raw :=
            if normal then
              let stored :=
                if fmt.explicitIntegerBit then BitVec.ofNat 128 significand
                else BitVec.ofNat 128 significand &&& BitVec.ofNat 128 (minimumNormal - 1)
              signBits negative fmt |||
                BitVec.ofInt 128 (exponent + fmt.exponentBias) <<<
                  fmt.significandStorageBits ||| stored
            else signBits negative fmt ||| BitVec.ofNat 128 significand
          let tiny := if control.tininess = .beforeRounding then tinyBefore else !normal
          { value := fromRaw format raw
            status := { inexact, underflow := inexact && tiny } }

def convert (value : FloatValue) (format : FloatFormat) (control : FloatControl := {}) :
    FloatResult :=
  if (descriptor format).isNone then errorResult .invalidFormat
  else
    let decoded := decode value
    match decoded.classification with
    | .invalid => errorResult .invalidEncoding
    | .zero => { value := zero format decoded.negative }
    | .infinity => { value := infinity format decoded.negative }
    | .quietNaN => { value := makeNan format decoded.negative false decoded.payload }
    | .signalingNaN =>
      { value := makeNan format decoded.negative false decoded.payload
        status := { invalid := true } }
    | .subnormal | .normal =>
      roundRational decoded.negative decoded.significand 1 decoded.exponent format control

def fromInteger (bits : Word128) (bitWidth : ℕ) (isSigned : Bool) (format : FloatFormat)
    (control : FloatControl := {}) : FloatResult :=
  if (descriptor format).isNone then errorResult .invalidFormat
  else if bitWidth = 0 ∨ 128 < bitWidth then errorResult .invalidIntegerWidth
  else
    let mask := lowMask bitWidth
    let bits := bits &&& mask
    let negative := isSigned && bits &&& 1 <<< (bitWidth - 1) != 0
    let magnitude := if negative then (~~~bits + 1) &&& mask else bits
    roundRational negative magnitude.toNat 1 0 format control

example : (fromInteger 7 32 true .ieeeBinary64).value.lowBits = 0x401c000000000000 := by
  decide

/-- The value was cut to the storage bits of its format. -/
def Encoded (format : FloatFormat) (value : FloatValue) : Prop :=
  ∃ raw, value = fromRaw format raw

section Encodings

variable {format : FloatFormat} {fmt : FloatFormatDescriptor} (known : descriptor format = some fmt)

include known

theorem zero_encoded (negative : Bool) : Encoded format (zero format negative) := by
  simp only [zero, known]
  exact ⟨_, rfl⟩

theorem infinity_encoded (negative : Bool) : Encoded format (infinity format negative) := by
  simp only [infinity, known]
  exact ⟨_, rfl⟩

theorem maximumFinite_encoded (negative : Bool) :
    Encoded format (maximumFinite format negative) := by
  simp only [maximumFinite, known]
  exact ⟨_, rfl⟩

theorem minimumSubnormal_encoded (negative : Bool) :
    Encoded format (minimumSubnormal format negative) := by
  simp only [minimumSubnormal, known]
  exact ⟨_, rfl⟩

theorem makeNan_encoded (negative signaling : Bool) (payload : ℕ) :
    Encoded format (makeNan format negative signaling payload) := by
  simp only [makeNan, known]
  exact ⟨_, rfl⟩

theorem overflowResult_encoded (negative : Bool) (control : FloatControl) :
    Encoded format (overflowResult format negative control).value := by
  rw [overflowResult]
  dsimp only
  generalize (match control.rounding with
    | .nearestTiesToEven | .nearestTiesAway => true
    | .towardZero => false
    | .towardPositive => !negative
    | .towardNegative => negative) = toInfinity
  cases toInfinity with
  | true => exact infinity_encoded known negative
  | false => exact maximumFinite_encoded known negative

theorem tinyNonzeroResult_encoded (negative : Bool) (control : FloatControl) :
    Encoded format (tinyNonzeroResult format negative control).value := by
  simp only [tinyNonzeroResult]
  split
  · exact minimumSubnormal_encoded known negative
  · exact zero_encoded known negative

theorem roundRational_encoded {negative : Bool} {numerator denominator : ℕ}
    {binaryExponent : ℤ} {control : FloatControl}
    (valued : (roundRational negative numerator denominator binaryExponent format
      control).hasValue = true) :
    Encoded format
      (roundRational negative numerator denominator binaryExponent format control).value := by
  unfold roundRational at valued ⊢
  simp -zeta only [known] at valued ⊢
  split at valued
  · rw [if_pos ‹_›]
    exact zero_encoded known negative
  rw [if_neg ‹_›]
  split at valued
  · cases valued
  rw [if_neg ‹_›]
  extract_lets
  split
  · exact overflowResult_encoded known negative control
  split
  · exact tinyNonzeroResult_encoded known negative control
  split
  · exact overflowResult_encoded known negative control
  · exact ⟨_, rfl⟩

/-- The bits of an encoding fit its storage. -/
theorem rawBits_fromRaw_lt (raw : Word128) :
    (rawBits (fromRaw format raw)).toNat < 2 ^ fmt.storageBits := by
  have joined : ∀ kept : Word128, (kept >>> 64).setWidth 64 ++ kept.setWidth 64 = kept := by
    intro kept
    apply eq_of_toNat_eq
    have bound := kept.isLt
    rw [toNat_append, toNat_setWidth, toNat_setWidth,
      toNat_ushiftRight, Nat.shiftRight_eq_div_pow,
      Nat.mod_eq_of_lt (show kept.toNat / 2 ^ 64 < 2 ^ 64 by omega), Nat.shiftLeft_eq,
      Nat.mul_comm, ← Nat.two_pow_add_eq_or_of_lt (Nat.mod_lt _ (Nat.two_pow_pos 64)),
      Nat.div_add_mod]
  simp only [fromRaw, known, rawBits, joined]
  split
  case isTrue narrow =>
    have bound : 2 ^ fmt.storageBits < 2 ^ 128 := Nat.pow_lt_pow_right (by omega) narrow
    have positive := Nat.two_pow_pos fmt.storageBits
    rw [toNat_and, lowMask, toNat_ofNat,
      Nat.mod_eq_of_lt (show 2 ^ fmt.storageBits - 1 < 2 ^ 128 by omega),
      Nat.and_two_pow_sub_one_eq_mod]
    exact Nat.mod_lt _ positive
  case isFalse wide =>
    exact Nat.lt_of_lt_of_le raw.isLt (Nat.pow_le_pow_right (by omega) (by omega))

end Encodings

theorem convert_encoded {value : FloatValue} {format : FloatFormat} {control : FloatControl}
    (valued : (convert value format control).hasValue = true) :
    Encoded format (convert value format control).value := by
  rw [convert] at valued ⊢
  split at valued
  · cases valued
  rename_i isKnown
  obtain ⟨fmt, known⟩ := Option.ne_none_iff_exists'.mp (by simpa using isKnown)
  rw [if_neg isKnown]
  simp only at valued ⊢
  split at valued
  · cases valued
  · exact zero_encoded known _
  · exact infinity_encoded known _
  · exact makeNan_encoded known _ _ _
  · exact makeNan_encoded known _ _ _
  all_goals exact roundRational_encoded known valued

theorem fromInteger_encoded {bits : Word128} {bitWidth : ℕ} {isSigned : Bool}
    {format : FloatFormat} {control : FloatControl}
    (valued : (fromInteger bits bitWidth isSigned format control).hasValue = true) :
    Encoded format (fromInteger bits bitWidth isSigned format control).value := by
  rw [fromInteger] at valued ⊢
  split at valued
  · cases valued
  rename_i isKnown
  obtain ⟨fmt, known⟩ := Option.ne_none_iff_exists'.mp (by simpa using isKnown)
  rw [if_neg isKnown]
  split at valued
  · cases valued
  rw [if_neg ‹_›]
  exact roundRational_encoded known valued

end Aburi.Numeric
