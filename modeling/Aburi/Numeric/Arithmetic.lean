import Aburi.Numeric.RoundRational

/-!
# Arithmetic

The binary operations, scaling and the conversions on software floating-point
values.  On finite operands each returns the correctly rounded value of the
exact result.
-/

namespace Aburi.Numeric

open Aburi.Lib
open Bool (false_eq_true)

inductive BinaryOperation where
  | add
  | subtract
  | multiply
  | divide
  | modulo
  deriving DecidableEq

def negate (value : FloatValue) : FloatValue :=
  match descriptor value.semantics with
  | none => {}
  | some fmt =>
    if !value.canonical then {}
    else fromRaw value.semantics (rawBits value ^^^ 1 <<< (fmt.storageBits - 1))

def isNanClass (classification : FloatClass) : Bool :=
  classification == .quietNaN || classification == .signalingNaN

def invalidOperation (format : FloatFormat) : FloatResult :=
  { value := makeNan format false false 0, status := { invalid := true } }

/-- The payload of the first operand that is not a number. -/
def propagateNan (lhs : FloatValue) (left : DecodedFloat) (rhs : FloatValue)
    (right : DecodedFloat) : FloatResult :=
  let signaling :=
    left.classification == .signalingNaN || right.classification == .signalingNaN
  if isNanClass left.classification then
    { value := makeNan lhs.semantics left.negative false left.payload
      status := { invalid := signaling } }
  else if isNanClass right.classification then
    { value := makeNan rhs.semantics right.negative false right.payload
      status := { invalid := signaling } }
  else invalidOperation lhs.semantics

def addValues (lhs rhs : FloatValue) (subtract : Bool) (control : FloatControl) :
    FloatResult :=
  if lhs.semantics ≠ rhs.semantics then errorResult .formatMismatch
  else
    let left := decode lhs
    let right := decode rhs
    if left.classification = .invalid ∨ right.classification = .invalid then
      errorResult .invalidEncoding
    else
      let right := if subtract then { right with negative := !right.negative } else right
      if isNanClass left.classification || isNanClass right.classification then
        propagateNan lhs left rhs right
      else if left.classification = .infinity ∨ right.classification = .infinity then
        if left.classification = .infinity ∧ right.classification = .infinity ∧
            left.negative ≠ right.negative then
          invalidOperation lhs.semantics
        else
          let negative :=
            if left.classification = .infinity then left.negative else right.negative
          { value := infinity lhs.semantics negative }
      else if left.classification = .zero ∧ right.classification = .zero then
        let negative :=
          if left.negative = right.negative then left.negative
          else control.rounding == .towardNegative
        { value := zero lhs.semantics negative }
      else if left.classification = .zero then
        { value := if subtract then negate rhs else rhs }
      else if right.classification = .zero then { value := lhs }
      else
        let commonExponent := min left.exponent right.exponent
        let leftInteger := left.significand <<< (left.exponent - commonExponent).toNat
        let rightInteger := right.significand <<< (right.exponent - commonExponent).toNat
        if left.negative = right.negative then
          roundRational left.negative (leftInteger + rightInteger) 1 commonExponent
            lhs.semantics control
        else if leftInteger = rightInteger then
          { value := zero lhs.semantics (control.rounding == .towardNegative) }
        else if rightInteger < leftInteger then
          roundRational left.negative (leftInteger - rightInteger) 1 commonExponent
            lhs.semantics control
        else
          roundRational right.negative (rightInteger - leftInteger) 1 commonExponent
            lhs.semantics control

def multiplyValues (lhs rhs : FloatValue) (control : FloatControl) : FloatResult :=
  if lhs.semantics ≠ rhs.semantics then errorResult .formatMismatch
  else
    let left := decode lhs
    let right := decode rhs
    if left.classification = .invalid ∨ right.classification = .invalid then
      errorResult .invalidEncoding
    else if isNanClass left.classification || isNanClass right.classification then
      propagateNan lhs left rhs right
    else
      let negative := left.negative != right.negative
      let leftZero := left.classification == .zero
      let rightZero := right.classification == .zero
      let leftInf := left.classification == .infinity
      let rightInf := right.classification == .infinity
      if leftZero && rightInf || leftInf && rightZero then invalidOperation lhs.semantics
      else if leftInf || rightInf then { value := infinity lhs.semantics negative }
      else if leftZero || rightZero then { value := zero lhs.semantics negative }
      else
        roundRational negative (left.significand * right.significand) 1
          (left.exponent + right.exponent) lhs.semantics control

def divideValues (lhs rhs : FloatValue) (control : FloatControl) : FloatResult :=
  if lhs.semantics ≠ rhs.semantics then errorResult .formatMismatch
  else
    let left := decode lhs
    let right := decode rhs
    if left.classification = .invalid ∨ right.classification = .invalid then
      errorResult .invalidEncoding
    else if isNanClass left.classification || isNanClass right.classification then
      propagateNan lhs left rhs right
    else
      let negative := left.negative != right.negative
      let leftZero := left.classification == .zero
      let rightZero := right.classification == .zero
      let leftInf := left.classification == .infinity
      let rightInf := right.classification == .infinity
      if leftZero && rightZero || leftInf && rightInf then invalidOperation lhs.semantics
      else if rightZero then
        { value := infinity lhs.semantics negative, status := { divideByZero := true } }
      else if leftInf then { value := infinity lhs.semantics negative }
      else if rightInf || leftZero then { value := zero lhs.semantics negative }
      else
        roundRational negative left.significand right.significand
          (left.exponent - right.exponent) lhs.semantics control

def remainderValues (lhs rhs : FloatValue) (control : FloatControl) : FloatResult :=
  if lhs.semantics ≠ rhs.semantics then errorResult .formatMismatch
  else
    let left := decode lhs
    let right := decode rhs
    if left.classification = .invalid ∨ right.classification = .invalid then
      errorResult .invalidEncoding
    else if isNanClass left.classification || isNanClass right.classification then
      propagateNan lhs left rhs right
    else if left.classification = .infinity ∨ right.classification = .zero then
      invalidOperation lhs.semantics
    else if left.classification = .zero ∨ right.classification = .infinity then
      { value := lhs }
    else
      let common := min left.exponent right.exponent
      let dividend := left.significand <<< (left.exponent - common).toNat
      let divisor := right.significand <<< (right.exponent - common).toNat
      let remainder := dividend % divisor
      if remainder = 0 then { value := zero lhs.semantics left.negative }
      else roundRational left.negative remainder 1 common lhs.semantics control

def scaleByPowerOfTwo (value : FloatValue) (exponent : ℤ) (control : FloatControl := {}) :
    FloatResult :=
  let decoded := decode value
  if decoded.classification = .invalid then errorResult .invalidEncoding
  else if decoded.classification = .zero ∨ decoded.classification = .infinity ∨
      isNanClass decoded.classification then
    convert value value.semantics control
  else if 1000000 < exponent then overflowResult value.semantics decoded.negative control
  else if exponent < -1000000 then
    tinyNonzeroResult value.semantics decoded.negative control
  else
    roundRational decoded.negative decoded.significand 1 (decoded.exponent + exponent)
      value.semantics control

def binary (operation : BinaryOperation) (lhs rhs : FloatValue)
    (control : FloatControl := {}) : FloatResult :=
  match operation with
  | .add => addValues lhs rhs false control
  | .subtract => addValues lhs rhs true control
  | .multiply => multiplyValues lhs rhs control
  | .divide => divideValues lhs rhs control
  | .modulo => remainderValues lhs rhs control

/-- The magnitude that a finite encoding stands for. -/
def FloatValue.magnitude (value : FloatValue) : ℚ :=
  (decode value).significand * 2 ^ (decode value).exponent

theorem toRat_signed (value : FloatValue) :
    value.toRat = signed (decode value).negative value.magnitude := toRat_eq value

theorem signed_not (negative : Bool) (magnitude : ℚ) :
    signed (!negative) magnitude = -signed negative magnitude := by
  cases negative <;> simp [signed]

namespace FloatValue.IsFinite

variable {value : FloatValue} (finite : value.IsFinite)

include finite

theorem not_invalid : (decode value).classification ≠ .invalid := by
  rcases finite with class_ | class_ | class_ <;> simp [class_]

theorem not_infinity : (decode value).classification ≠ .infinity := by
  rcases finite with class_ | class_ | class_ <;> simp [class_]

theorem not_nan : isNanClass (decode value).classification = false := by
  rcases finite with class_ | class_ | class_ <;> simp [class_, isNanClass]

theorem significand_pos (nonzero : (decode value).classification ≠ .zero) :
    0 < (decode value).significand :=
  Nat.pos_of_ne_zero (mt finite.zero_iff.mpr nonzero)

theorem magnitude_pos (nonzero : (decode value).classification ≠ .zero) :
    0 < value.magnitude := by
  have positive := finite.significand_pos nonzero
  exact mul_pos (by exact_mod_cast positive) (two_zpow_pos _)

theorem magnitude_zero (isZero : (decode value).classification = .zero) :
    value.magnitude = 0 := by
  rw [FloatValue.magnitude, finite.zero_iff.mp isZero]
  simp

theorem toRat_zero (isZero : (decode value).classification = .zero) : value.toRat = 0 := by
  rw [toRat_signed, finite.magnitude_zero isZero]
  simp [signed]

theorem toRat_ne_zero (nonzero : (decode value).classification ≠ .zero) : value.toRat ≠ 0 := by
  have positive := finite.magnitude_pos nonzero
  rw [toRat_signed, signed]
  split
  · exact neg_ne_zero.mpr positive.ne'
  · exact positive.ne'

theorem canonical : value.canonical = true := by
  obtain ⟨fmt, -, canonical⟩ := finite.known
  exact canonical

end FloatValue.IsFinite

section Negation

variable {fmt : FloatFormatDescriptor} {value : FloatValue}
  (known : descriptor value.semantics = some fmt) (canonical : value.canonical = true)

include known canonical

theorem packs_negate :
    Packs value.semantics fmt (!signField value fmt) (exponentField value fmt).toNat
      (significandField value fmt).toNat (negate value) := by
  have facts := formatFacts known
  have storage := facts.storage
  have fits := facts.fits
  have bound := (canonical_iff known rfl).mp canonical
  have isNegate : negate value =
      fromRaw value.semantics (rawBits value ^^^ ((1 <<< (fmt.storageBits - 1) : ℕ) : Word128)) := by
    simp only [negate, known, canonical, Bool.not_true, false_eq_true, if_false]
  have flipped : (rawBits value ^^^ ((1 <<< (fmt.storageBits - 1) : ℕ) : Word128)).toNat =
      (rawBits value).toNat ^^^ 2 ^ (fmt.storageBits - 1) := by
    rw [BitVec.toNat_xor, toNat_setBit (by omega)]
  have small : (rawBits value ^^^ ((1 <<< (fmt.storageBits - 1) : ℕ) : Word128)).toNat <
      2 ^ fmt.storageBits := by
    rw [flipped]
    exact Nat.xor_lt_two_pow bound (Nat.pow_lt_pow_right (by norm_num) (by omega))
  have bits := rawBits_fromRaw known small
  have semantics := fromRaw_semantics known
    (rawBits value ^^^ ((1 <<< (fmt.storageBits - 1) : ℕ) : Word128))
  rw [isNegate]
  refine ⟨semantics, ?_, ?_, ?_, ?_⟩
  · rw [canonical_iff known semantics, bits]
    exact small
  · rw [signField_eq, signField_eq, bits, flipped, Nat.xor_div_two_pow,
      Nat.div_self (Nat.two_pow_pos _), Bool.eq_iff_iff, Bool.not_eq_true',
      decide_eq_true_iff, decide_eq_false_iff_not, Nat.xor_mod_two_eq_one]
    omega
  · have top : 2 ^ (fmt.storageBits - 1) =
        2 ^ fmt.exponentBits * 2 ^ fmt.significandStorageBits := by
      rw [← Nat.pow_add]
      congr 1
      omega
    rw [toNat_exponentField facts, toNat_exponentField facts, bits, flipped,
      Nat.xor_div_two_pow, top, Nat.mul_div_cancel _ (Nat.two_pow_pos _), Nat.xor_mod_two_pow,
      Nat.mod_self, Nat.xor_zero]
  · have whole : 2 ^ (fmt.storageBits - 1) % 2 ^ fmt.significandStorageBits = 0 :=
      Nat.mod_eq_zero_of_dvd (Nat.pow_dvd_pow 2 (by omega))
    rw [toNat_significandField facts, toNat_significandField facts, bits, flipped,
      Nat.xor_mod_two_pow, whole, Nat.xor_zero]

theorem decode_negate :
    decode (negate value) = { decode value with negative := !(decode value).negative } := by
  have packs : Packs value.semantics fmt (signField value fmt) (exponentField value fmt).toNat
      (significandField value fmt).toNat value := ⟨rfl, canonical, rfl, rfl, rfl⟩
  have same := packs.decode_eq known packs
  have other := packs.decode_eq known (packs_negate known canonical)
  rw [other, same]

theorem negate_finite (finite : value.IsFinite)
    (nonzero : (decode value).classification ≠ .zero) :
    (negate value).semantics = value.semantics ∧ (negate value).IsFinite ∧
      (decode (negate value)).classification ≠ .zero := by
  have decoded := decode_negate known canonical
  refine ⟨(packs_negate known canonical).semantics, ?_, ?_⟩
  · rw [FloatValue.IsFinite, decoded]
    exact finite
  · rw [decoded]
    exact nonzero

end Negation

section Exact

variable {format : FloatFormat} {fmt : FloatFormatDescriptor}
  (known : descriptor format = some fmt) (rounding : RoundingMode)

include known

theorem correct_exact {value : FloatValue} (semantics : value.semantics = format)
    (canonical : value.canonical = true) (finite : value.IsFinite) {zeroNegative : Bool}
    (sign : (decode value).negative =
      if value.toRat = 0 then zeroNegative else decide (value.toRat < 0)) :
    CorrectlyRounded format fmt rounding value.toRat zeroNegative { value } := by
  refine ⟨rfl, semantics, canonical, roundsTo_exact known semantics finite rounding, sign, ?_⟩
  simp [finite]

theorem correct_zero (negative : Bool) :
    CorrectlyRounded format fmt rounding 0 negative { value := zero format negative } := by
  have stands := stands_zero known negative
  have isZero : (zero format negative).toRat = 0 := by
    rw [stands.toRat]
    simp [signed]
  have exact_ := @correct_exact _ _ known rounding _ stands.semantics stands.canonical
    stands.finite negative (by rw [if_pos isZero, stands.sign])
  rwa [isZero] at exact_

theorem correct_operand {value : FloatValue} (semantics : value.semantics = format)
    (finite : value.IsFinite) (nonzero : (decode value).classification ≠ .zero)
    (zeroNegative : Bool) :
    CorrectlyRounded format fmt rounding value.toRat zeroNegative { value } := by
  apply correct_exact known rounding semantics finite.canonical finite
  rw [toRat_signed, sign_signed _ (finite.magnitude_pos nonzero)]

end Exact

section Operations

variable {lhs rhs : FloatValue} {fmt : FloatFormatDescriptor}
  (known : descriptor lhs.semantics = some fmt) (sameFormat : lhs.semantics = rhs.semantics)
  (leftFinite : lhs.IsFinite) (rightFinite : rhs.IsFinite) (control : FloatControl)

/-- The sign of a sum of zeros or of cancelling operands. -/
def sumZeroNegative (left right : Bool) (rounding : RoundingMode) : Bool :=
  if left = right then left else rounding == .towardNegative

theorem signed_add (left right : Bool) (first second : ℚ) :
    signed left first + signed right second =
      if left = right then signed left (first + second)
      else if second < first then signed left (first - second)
      else signed right (second - first) := by
  cases left <;> cases right <;> simp [signed] <;> ring

theorem signed_mul (left right : Bool) (first second : ℚ) :
    signed left first * signed right second = signed (left != right) (first * second) := by
  cases left <;> cases right <;> simp [signed]

theorem signed_div (left right : Bool) (first second : ℚ) :
    signed left first / signed right second = signed (left != right) (first / second) := by
  cases left <;> cases right <;> simp [signed, neg_div, div_neg]

theorem integer_magnitude {significand : ℕ} {exponent common : ℤ} (lower : common ≤ exponent) :
    ((significand <<< (exponent - common).toNat : ℕ) : ℚ) / ((1 : ℕ) : ℚ) * 2 ^ common =
      significand * 2 ^ exponent := by
  obtain ⟨shift, rfl⟩ : ∃ shift : ℕ, exponent = common + shift :=
    ⟨(exponent - common).toNat, by omega⟩
  rw [add_sub_cancel_left, Int.toNat_natCast, Nat.shiftLeft_eq, zpow_add₀ (by norm_num),
    zpow_natCast]
  push_cast
  ring

theorem sum_correct {format : FloatFormat} (known : descriptor format = some fmt)
    (leftFinite : lhs.IsFinite) (leftNonzero : (decode lhs).classification ≠ .zero)
    (rightNegative : Bool) :
    let commonExponent := min (decode lhs).exponent (decode rhs).exponent
    let leftInteger := (decode lhs).significand <<<
      ((decode lhs).exponent - commonExponent).toNat
    let rightInteger := (decode rhs).significand <<<
      ((decode rhs).exponent - commonExponent).toNat
    CorrectlyRounded format fmt control.rounding
      (signed (decode lhs).negative lhs.magnitude + signed rightNegative rhs.magnitude)
      (sumZeroNegative (decode lhs).negative rightNegative control.rounding)
      (if (decode lhs).negative = rightNegative then
        roundRational (decode lhs).negative (leftInteger + rightInteger) 1 commonExponent
          format control
      else if leftInteger = rightInteger then
        { value := zero format (control.rounding == .towardNegative) }
      else if rightInteger < leftInteger then
        roundRational (decode lhs).negative (leftInteger - rightInteger) 1 commonExponent
          format control
      else
        roundRational rightNegative (rightInteger - leftInteger) 1 commonExponent
          format control) := by
  intro commonExponent leftInteger rightInteger
  have leftMagnitude : lhs.magnitude = leftInteger / (1 : ℕ) * 2 ^ commonExponent :=
    (integer_magnitude (min_le_left _ _)).symm
  have rightMagnitude : rhs.magnitude = rightInteger / (1 : ℕ) * 2 ^ commonExponent :=
    (integer_magnitude (min_le_right _ _)).symm
  have leftPos : 0 < leftInteger := by
    simp only [leftInteger, Nat.shiftLeft_eq]
    exact Nat.mul_pos (leftFinite.significand_pos leftNonzero) (Nat.two_pow_pos _)
  have unit := two_zpow_pos commonExponent
  have ordered : rhs.magnitude < lhs.magnitude ↔ rightInteger < leftInteger := by
    rw [leftMagnitude, rightMagnitude, mul_lt_mul_iff_left₀ unit]
    push_cast
    rw [div_one, div_one, Nat.cast_lt]
  rw [signed_add, sumZeroNegative]
  split
  case isTrue sameSign =>
    have sum : lhs.magnitude + rhs.magnitude =
        ((leftInteger + rightInteger : ℕ) : ℚ) / (1 : ℕ) * 2 ^ commonExponent := by
      rw [leftMagnitude, rightMagnitude]
      push_cast
      ring
    rw [sum]
    exact roundRational_correct known _ _ (Nat.add_pos_left leftPos _) one_pos _ _
  case isFalse differ =>
    by_cases cancel : leftInteger = rightInteger
    · have same : rhs.magnitude - lhs.magnitude = 0 := by
        rw [leftMagnitude, rightMagnitude, cancel, sub_self]
      rw [if_pos cancel, if_neg (by rw [ordered]; omega), same]
      have isZero := correct_zero known control.rounding
        (control.rounding == RoundingMode.towardNegative)
      simpa [signed] using isZero
    · rw [if_neg cancel]
      by_cases larger : rightInteger < leftInteger
      · have difference : lhs.magnitude - rhs.magnitude =
            ((leftInteger - rightInteger : ℕ) : ℚ) / (1 : ℕ) * 2 ^ commonExponent := by
          rw [leftMagnitude, rightMagnitude, Nat.cast_sub larger.le]
          ring
        rw [if_pos (ordered.mpr larger), if_pos larger, difference]
        exact roundRational_correct known _ _ (by omega) one_pos _ _
      · have difference : rhs.magnitude - lhs.magnitude =
            ((rightInteger - leftInteger : ℕ) : ℚ) / (1 : ℕ) * 2 ^ commonExponent := by
          rw [leftMagnitude, rightMagnitude, Nat.cast_sub (by omega)]
          ring
        rw [if_neg (mt ordered.mp larger), if_neg larger, difference]
        exact roundRational_correct known _ _ (by omega) one_pos _ _

include known sameFormat leftFinite rightFinite

theorem addValues_correct (subtract : Bool) :
    CorrectlyRounded lhs.semantics fmt control.rounding
      (lhs.toRat + if subtract then -rhs.toRat else rhs.toRat)
      (sumZeroNegative (decode lhs).negative ((decode rhs).negative != subtract) control.rounding)
      (addValues lhs rhs subtract control) := by
  -- the right operand with the sign that is added
  have rightSigned : (if subtract then -rhs.toRat else rhs.toRat) =
      signed ((decode rhs).negative != subtract) rhs.magnitude := by
    rw [toRat_signed]
    cases subtract with
    | true => simp [← signed_not]
    | false => simp
  have operand : (if subtract then { decode rhs with negative := !(decode rhs).negative }
      else decode rhs) = { decode rhs with negative := (decode rhs).negative != subtract } := by
    cases subtract <;> simp
  simp only [addValues, ne_eq, sameFormat, not_true_eq_false, if_false,
    leftFinite.not_invalid, rightFinite.not_invalid, or_self, operand, leftFinite.not_nan,
    rightFinite.not_nan, leftFinite.not_infinity, rightFinite.not_infinity]
  rw [← sameFormat]
  by_cases leftZero : (decode lhs).classification = .zero
  · by_cases rightZero : (decode rhs).classification = .zero
    · have sum : (lhs.toRat + if subtract then -rhs.toRat else rhs.toRat) = 0 := by
        rw [leftFinite.toRat_zero leftZero, rightFinite.toRat_zero rightZero]
        simp
      simp only [leftZero, rightZero, and_self, if_true, sum]
      exact correct_zero known control.rounding _
    · have sum : (lhs.toRat + if subtract then -rhs.toRat else rhs.toRat) =
          (if subtract then negate rhs else rhs).toRat := by
        rw [leftFinite.toRat_zero leftZero, zero_add]
        cases subtract with
        | true =>
          have decoded := decode_negate (sameFormat ▸ known) rightFinite.canonical
          simp only [if_true]
          rw [toRat_eq (negate rhs), decoded, signed_not, ← toRat_eq]
        | false => rfl
      simp only [leftZero, rightZero, and_false, if_true, if_false, sum]
      cases subtract with
      | true =>
        have rightKnown : descriptor rhs.semantics = some fmt := sameFormat ▸ known
        obtain ⟨semantics, finite, nonzero⟩ :=
          negate_finite rightKnown rightFinite.canonical rightFinite rightZero
        exact correct_operand known control.rounding (semantics.trans sameFormat.symm) finite
          nonzero _
      | false =>
        exact correct_operand known control.rounding sameFormat.symm rightFinite rightZero _
  · by_cases rightZero : (decode rhs).classification = .zero
    · have sum : (lhs.toRat + if subtract then -rhs.toRat else rhs.toRat) = lhs.toRat := by
        rw [rightFinite.toRat_zero rightZero]
        simp
      simp only [leftZero, rightZero, and_true, if_true, if_false, sum]
      exact correct_operand known control.rounding rfl leftFinite leftZero _
    · simp only [leftZero, rightZero, and_self, if_false]
      rw [toRat_signed, rightSigned]
      exact sum_correct control known leftFinite leftZero _

theorem multiplyValues_correct :
    CorrectlyRounded lhs.semantics fmt control.rounding (lhs.toRat * rhs.toRat)
      ((decode lhs).negative != (decode rhs).negative) (multiplyValues lhs rhs control) := by
  simp only [multiplyValues, ne_eq, sameFormat, not_true_eq_false, if_false,
    leftFinite.not_invalid, rightFinite.not_invalid, or_self, leftFinite.not_nan,
    rightFinite.not_nan, false_eq_true, Bool.or_self, beq_eq_false_iff_ne.mpr
    leftFinite.not_infinity, beq_eq_false_iff_ne.mpr rightFinite.not_infinity, Bool.and_false,
    Bool.false_and, Bool.or_eq_true, beq_iff_eq]
  rw [← sameFormat]
  split
  case isTrue isZero =>
    have product : lhs.toRat * rhs.toRat = 0 := by
      rcases isZero with leftZero | rightZero
      · rw [leftFinite.toRat_zero leftZero, zero_mul]
      · rw [rightFinite.toRat_zero rightZero, mul_zero]
    rw [product]
    exact correct_zero known control.rounding _
  case isFalse nonzero =>
    rw [not_or] at nonzero
    have product : lhs.toRat * rhs.toRat =
        signed ((decode lhs).negative != (decode rhs).negative)
          (((decode lhs).significand * (decode rhs).significand : ℕ) / (1 : ℕ) *
            2 ^ ((decode lhs).exponent + (decode rhs).exponent)) := by
      rw [toRat_eq, toRat_eq, signed_mul, zpow_add₀ (by norm_num)]
      congr 1
      push_cast
      ring
    rw [product]
    exact roundRational_correct known _ _
      (Nat.mul_pos (leftFinite.significand_pos nonzero.1)
        (rightFinite.significand_pos nonzero.2)) one_pos _ _

theorem divideValues_correct (nonzero : rhs.toRat ≠ 0) :
    CorrectlyRounded lhs.semantics fmt control.rounding (lhs.toRat / rhs.toRat)
      ((decode lhs).negative != (decode rhs).negative) (divideValues lhs rhs control) := by
  have rightNonzero : (decode rhs).classification ≠ .zero := mt rightFinite.toRat_zero nonzero
  have rightPos := rightFinite.significand_pos rightNonzero
  simp only [divideValues, ne_eq, sameFormat, not_true_eq_false, if_false,
    leftFinite.not_invalid, rightFinite.not_invalid, or_self, leftFinite.not_nan,
    rightFinite.not_nan, false_eq_true, Bool.or_self, beq_eq_false_iff_ne.mpr
    leftFinite.not_infinity, beq_eq_false_iff_ne.mpr rightFinite.not_infinity,
    beq_eq_false_iff_ne.mpr rightNonzero, Bool.and_false, Bool.false_or, beq_iff_eq]
  rw [← sameFormat]
  split
  case isTrue leftZero =>
    rw [leftFinite.toRat_zero leftZero, zero_div]
    exact correct_zero known control.rounding _
  case isFalse leftNonzero =>
    have quotient : lhs.toRat / rhs.toRat =
        signed ((decode lhs).negative != (decode rhs).negative)
          (((decode lhs).significand : ℚ) / (decode rhs).significand *
            2 ^ ((decode lhs).exponent - (decode rhs).exponent)) := by
      rw [toRat_eq, toRat_eq, signed_div, zpow_sub₀ (by norm_num)]
      congr 1
      rw [div_mul_div_comm]
    rw [quotient]
    exact roundRational_correct known _ _ (leftFinite.significand_pos leftNonzero) rightPos
      _ _

end Operations

section Conversions

variable {format : FloatFormat} {fmt : FloatFormatDescriptor} {value : FloatValue}
  (finite : value.IsFinite) (control : FloatControl)

include finite

theorem convert_correct (known : descriptor format = some fmt) :
    CorrectlyRounded format fmt control.rounding value.toRat (decode value).negative
      (convert value format control) := by
  have isKnown : (descriptor format).isNone = false := by rw [known]; rfl
  simp only [convert, isKnown, false_eq_true, if_false]
  by_cases isZero : (decode value).classification = .zero
  · simp only [isZero]
    rw [finite.toRat_zero isZero]
    exact correct_zero known control.rounding _
  · have rounded : CorrectlyRounded format fmt control.rounding value.toRat
        (decode value).negative
        (roundRational (decode value).negative (decode value).significand 1
          (decode value).exponent format control) := by
      have number : value.toRat = signed (decode value).negative
          ((decode value).significand / (1 : ℕ) * 2 ^ (decode value).exponent) := by
        rw [toRat_eq]
        push_cast
        rw [div_one]
      rw [number]
      exact roundRational_correct known _ _ (finite.significand_pos isZero) one_pos _ _
    rcases finite with zeroClass | subnormal | normal
    · exact absurd zeroClass isZero
    · simp only [subnormal]
      exact rounded
    · simp only [normal]
      exact rounded

omit finite in
/-- The exponents of all formats are far from the cutoffs of scaling. -/
theorem exponent_range (known : descriptor format = some fmt) :
    -17000 ≤ fmt.lowestExponent ∧ fmt.precision + fmt.highestExponent ≤ 20000 := by
  cases format with
  | invalid => cases known
  | ieeeBinary16 | ieeeBinary32 | ieeeBinary64 | x87Extended80 | ieeeBinary128 =>
    cases known
    decide

/-- The magnitudes of nonzero values are at least the smallest one. -/
theorem lowest_le_magnitude (known : descriptor value.semantics = some fmt)
    (nonzero : (decode value).classification ≠ .zero) :
    2 ^ fmt.lowestExponent ≤ value.magnitude ∧
      value.magnitude < 2 ^ (fmt.precision + fmt.highestExponent) := by
  have positive := finite.magnitude_pos nonzero
  have member : value.magnitude ∈ fmt.grid := by
    have onGrid := abs_mem_grid known (finite_mem rfl finite)
    rwa [toRat_signed, abs_signed positive.le] at onGrid
  refine ⟨?_, grid_lt member⟩
  obtain ⟨significand, exponent, -, atLeast, -, isMagnitude⟩ := member
  rw [isMagnitude] at positive ⊢
  have isPositive : 0 < significand := by
    apply Nat.pos_of_ne_zero
    rintro rfl
    simp at positive
  have one_le : (1 : ℚ) ≤ significand := by exact_mod_cast isPositive
  calc (2 : ℚ) ^ fmt.lowestExponent ≤ 2 ^ exponent := zpow_le_zpow_right₀ (by norm_num) atLeast
    _ ≤ significand * 2 ^ exponent := le_mul_of_one_le_left (two_zpow_pos _).le one_le

theorem scaleByPowerOfTwo_correct (known : descriptor value.semantics = some fmt)
    (exponent : ℤ) :
    CorrectlyRounded value.semantics fmt control.rounding (value.toRat * 2 ^ exponent)
      (decode value).negative (scaleByPowerOfTwo value exponent control) := by
  simp only [scaleByPowerOfTwo, finite.not_invalid, if_false, finite.not_infinity,
    finite.not_nan, false_eq_true, or_false]
  by_cases isZero : (decode value).classification = .zero
  · rw [if_pos isZero, finite.toRat_zero isZero, zero_mul, ← finite.toRat_zero isZero]
    exact convert_correct finite control known
  · rw [if_neg isZero]
    obtain ⟨atLeast, below⟩ := lowest_le_magnitude finite known isZero
    obtain ⟨lowest, highest⟩ := exponent_range known
    have number : value.toRat * 2 ^ exponent =
        signed (decode value).negative (value.magnitude * 2 ^ exponent) := by
      rw [toRat_signed, signed, signed]
      split <;> ring
    have positive : 0 < value.magnitude * 2 ^ exponent :=
      mul_pos (finite.magnitude_pos isZero) (two_zpow_pos _)
    rw [number]
    split
    case isTrue huge =>
      apply overflow_above _ control known positive
      calc (2 : ℚ) ^ (fmt.precision + fmt.highestExponent)
          ≤ 2 ^ (fmt.lowestExponent + exponent) := zpow_le_zpow_right₀ (by norm_num) (by omega)
        _ = 2 ^ fmt.lowestExponent * 2 ^ exponent := zpow_add₀ (by norm_num) _ _
        _ ≤ value.magnitude * 2 ^ exponent := mul_le_mul_of_nonneg_right atLeast (two_zpow_pos _).le
    case isFalse notHuge =>
      split
      case isTrue tiny =>
        apply tinyNonzeroResult_correct known _ control _ positive
        calc value.magnitude * 2 ^ exponent
            < 2 ^ (fmt.precision + fmt.highestExponent) * 2 ^ exponent :=
              mul_lt_mul_of_pos_right below (two_zpow_pos _)
          _ = 2 ^ (fmt.precision + fmt.highestExponent + exponent) :=
              (zpow_add₀ (by norm_num) _ _).symm
          _ ≤ 2 ^ (fmt.lowestExponent - 1) := zpow_le_zpow_right₀ (by norm_num) (by omega)
      case isFalse notTiny =>
        have scaled : value.magnitude * 2 ^ exponent = (decode value).significand /
            (1 : ℕ) * 2 ^ ((decode value).exponent + exponent) := by
          rw [FloatValue.magnitude, zpow_add₀ (by norm_num)]
          push_cast
          ring
        rw [scaled]
        exact roundRational_correct known _ _ (finite.significand_pos isZero) one_pos _ _

end Conversions

/-- The integer in the low bits of a word. -/
def integerValue (bits : Word128) (bitWidth : ℕ) (isSigned : Bool) : ℤ :=
  let unsigned := bits.toNat % 2 ^ bitWidth
  if isSigned ∧ 2 ^ (bitWidth - 1) ≤ unsigned then unsigned - 2 ^ bitWidth else unsigned

section Integers

variable {bits : Word128} {bitWidth : ℕ} (positive : 1 ≤ bitWidth) (atMost : bitWidth ≤ 128)

include positive atMost

/-- The sign bit of the integer. -/
theorem integer_negative :
    (bits &&& lowMask bitWidth &&& ((1 <<< (bitWidth - 1) : ℕ) : Word128) != 0) =
      decide (2 ^ (bitWidth - 1) ≤ bits.toNat % 2 ^ bitWidth) := by
  have masked := toNat_and_lowMask atMost bits
  have small : (bits &&& lowMask bitWidth).toNat < 2 ^ (bitWidth - 1 + 1) := by
    rw [masked, Nat.sub_add_cancel positive]
    exact Nat.mod_lt _ (Nat.two_pow_pos _)
  rw [Bool.eq_iff_iff, bne_iff_ne, Ne, and_setBit_eq_zero (by omega) small, masked,
    decide_eq_true_iff, not_lt]

omit positive in
/-- Two's complement within the width. -/
theorem integer_complement (nonzero : 0 < bits.toNat % 2 ^ bitWidth) :
    ((~~~(bits &&& lowMask bitWidth) + 1) &&& lowMask bitWidth).toNat =
      2 ^ bitWidth - bits.toNat % 2 ^ bitWidth := by
  have masked := toNat_and_lowMask atMost bits
  obtain ⟨rest, isRest⟩ : ∃ rest, 2 ^ 128 = 2 ^ bitWidth * rest := Nat.pow_dvd_pow 2 atMost
  have restPos : 0 < rest := by
    apply Nat.pos_of_ne_zero
    rintro rfl
    simp at isRest
  have split : 2 ^ 128 - bits.toNat % 2 ^ bitWidth =
      2 ^ bitWidth - bits.toNat % 2 ^ bitWidth + 2 ^ bitWidth * (rest - 1) := by
    have whole : 2 ^ bitWidth * rest = 2 ^ bitWidth + 2 ^ bitWidth * (rest - 1) := by
      rw [Nat.mul_sub_one, Nat.add_sub_cancel' (Nat.le_mul_of_pos_right _ restPos)]
    omega
  have isNeg : ~~~(bits &&& lowMask bitWidth) + 1 = -(bits &&& lowMask bitWidth) :=
    (BitVec.neg_eq_not_add _).symm
  rw [toNat_and_lowMask atMost, isNeg, BitVec.toNat_neg, masked,
    Nat.mod_mod_of_dvd _ (Nat.pow_dvd_pow 2 atMost), split, Nat.add_mul_mod_self_left,
    Nat.mod_eq_of_lt (by omega)]

end Integers

theorem fromInteger_correct {format : FloatFormat} {fmt : FloatFormatDescriptor}
    (known : descriptor format = some fmt) (bits : Word128) {bitWidth : ℕ}
    (positive : 1 ≤ bitWidth) (atMost : bitWidth ≤ 128) (isSigned : Bool)
    (control : FloatControl) :
    CorrectlyRounded format fmt control.rounding (integerValue bits bitWidth isSigned) false
      (fromInteger bits bitWidth isSigned format control) := by
  have isKnown : (descriptor format).isNone = false := by rw [known]; rfl
  have width : ¬ (bitWidth = 0 ∨ 128 < bitWidth) := by omega
  have masked := toNat_and_lowMask atMost bits
  have below := Nat.mod_lt bits.toNat (Nat.two_pow_pos bitWidth)
  have half := Nat.two_pow_pos (bitWidth - 1)
  -- any sign and magnitude that make up the integer will do
  have rounds : ∀ (negative : Bool) (magnitude : ℕ), (magnitude = 0 → negative = false) →
      (integerValue bits bitWidth isSigned : ℚ) = signed negative magnitude →
      CorrectlyRounded format fmt control.rounding (integerValue bits bitWidth isSigned) false
        (roundRational negative magnitude 1 0 format control) := by
    intro negative magnitude zeroSign number
    by_cases isZero : magnitude = 0
    · rw [number, zeroSign isZero, isZero, roundRational_zero known]
      simpa [signed] using correct_zero known control.rounding false
    · have asQuotient : (magnitude : ℚ) = magnitude / (1 : ℕ) * 2 ^ (0 : ℤ) := by simp
      rw [number, asQuotient]
      exact roundRational_correct known _ _ (Nat.pos_of_ne_zero isZero) one_pos _ _
  simp only [fromInteger, isKnown, false_eq_true, if_false, width,
    integer_negative positive atMost]
  by_cases isNegative : isSigned = true ∧ 2 ^ (bitWidth - 1) ≤ bits.toNat % 2 ^ bitWidth
  · have complement := @integer_complement bits _ atMost (by omega)
    simp only [isNegative.1, isNegative.2, decide_true, Bool.and_self, if_true]
    rw [← isNegative.1]
    apply rounds
    · intro isZero
      omega
    · rw [integerValue, if_pos isNegative, complement, signed, if_pos isNegative.1,
        Nat.cast_sub below.le]
      generalize bits.toNat % 2 ^ bitWidth = unsigned
      push_cast
      ring
  · have isFalse : (isSigned && decide (2 ^ (bitWidth - 1) ≤ bits.toNat % 2 ^ bitWidth)) =
        false := by
      rw [Bool.eq_false_iff, ne_eq, Bool.and_eq_true, decide_eq_true_iff]
      exact isNegative
    simp only [isFalse, false_eq_true, if_false]
    apply rounds
    · intro _
      rfl
    · rw [integerValue, if_neg isNegative, masked, signed, if_neg (by decide)]
      push_cast
      rfl

/-- A call of the arithmetic with its operands. -/
inductive ArithmeticCall where
  | binary (operation : BinaryOperation) (lhs rhs : FloatValue)
  | convert (value : FloatValue) (format : FloatFormat)
  | fromInteger (bits : Word128) (bitWidth : ℕ) (isSigned : Bool) (format : FloatFormat)
  | scaleByPowerOfTwo (value : FloatValue) (exponent : ℤ)

namespace ArithmeticCall

def run (control : FloatControl) : ArithmeticCall → FloatResult
  | .binary operation lhs rhs => Numeric.binary operation lhs rhs control
  | .convert value format => Numeric.convert value format control
  | .fromInteger bits bitWidth isSigned format =>
    Numeric.fromInteger bits bitWidth isSigned format control
  | .scaleByPowerOfTwo value exponent => Numeric.scaleByPowerOfTwo value exponent control

/-- The format of the result. -/
def format : ArithmeticCall → FloatFormat
  | .binary _ lhs _ => lhs.semantics
  | .convert _ format => format
  | .fromInteger _ _ _ format => format
  | .scaleByPowerOfTwo value _ => value.semantics

/-- Finite operands with an exact rational result. -/
def HasExact : ArithmeticCall → Prop
  | .binary operation lhs rhs =>
    lhs.IsFinite ∧ rhs.IsFinite ∧ lhs.semantics = rhs.semantics ∧ operation ≠ .modulo ∧
      (operation = .divide → rhs.toRat ≠ 0)
  | .convert value _ => value.IsFinite
  | .fromInteger _ bitWidth _ _ => 1 ≤ bitWidth ∧ bitWidth ≤ 128
  | .scaleByPowerOfTwo value _ => value.IsFinite

/-- The exact result; the remainder has none here. -/
def exactResult : ArithmeticCall → ℚ
  | .binary .add lhs rhs => lhs.toRat + rhs.toRat
  | .binary .subtract lhs rhs => lhs.toRat - rhs.toRat
  | .binary .multiply lhs rhs => lhs.toRat * rhs.toRat
  | .binary .divide lhs rhs => lhs.toRat / rhs.toRat
  | .binary .modulo _ _ => 0
  | .convert value _ => value.toRat
  | .fromInteger bits bitWidth isSigned _ => integerValue bits bitWidth isSigned
  | .scaleByPowerOfTwo value exponent => value.toRat * 2 ^ exponent

/-- The sign of an exact zero: a sum of zeros with one sign keeps it, any other
sum is negative only when rounding downward, and products and quotients take
the sign that the operands have together. -/
def zeroNegative (rounding : RoundingMode) : ArithmeticCall → Bool
  | .binary .add lhs rhs =>
    if (decode lhs).negative = (decode rhs).negative then (decode lhs).negative
    else rounding == .towardNegative
  | .binary .subtract lhs rhs =>
    if (decode lhs).negative = !(decode rhs).negative then (decode lhs).negative
    else rounding == .towardNegative
  | .binary _ lhs rhs => (decode lhs).negative != (decode rhs).negative
  | .convert value _ => (decode value).negative
  | .fromInteger .. => false
  | .scaleByPowerOfTwo value _ => (decode value).negative

end ArithmeticCall

/-- Every operation returns the correctly rounded value of its exact result. -/
theorem run_correctlyRounded (call : ArithmeticCall) (hasExact : call.HasExact)
    {fmt : FloatFormatDescriptor} (known : descriptor call.format = some fmt)
    (control : FloatControl) :
    CorrectlyRounded call.format fmt control.rounding call.exactResult
      (call.zeroNegative control.rounding) (call.run control) := by
  cases call with
  | binary operation lhs rhs =>
    obtain ⟨leftFinite, rightFinite, sameFormat, notModulo, divisor⟩ := hasExact
    cases operation with
    | add =>
      have correct := addValues_correct known sameFormat leftFinite rightFinite control false
      simp only [Bool.bne_false, false_eq_true, if_false] at correct
      exact correct
    | subtract =>
      have correct := addValues_correct known sameFormat leftFinite rightFinite control true
      simp only [Bool.bne_true, if_true, ← sub_eq_add_neg] at correct
      exact correct
    | multiply =>
      exact multiplyValues_correct known sameFormat leftFinite rightFinite control
    | divide =>
      exact divideValues_correct known sameFormat leftFinite rightFinite control (divisor rfl)
    | modulo => exact absurd rfl notModulo
  | convert value format => exact convert_correct hasExact control known
  | fromInteger bits bitWidth isSigned format =>
    exact fromInteger_correct known bits hasExact.1 hasExact.2 isSigned control
  | scaleByPowerOfTwo value exponent =>
    exact scaleByPowerOfTwo_correct hasExact control known exponent

/-- One third in double precision, rounded upward. -/
def oneThird : ArithmeticCall :=
  .binary .divide ⟨.ieeeBinary64, 0x3ff0000000000000, 0⟩ ⟨.ieeeBinary64, 0x4008000000000000, 0⟩

theorem oneThird_correctlyRounded :
    (oneThird.run { rounding := .towardPositive }).value = ⟨.ieeeBinary64, 0x3fd5555555555556, 0⟩ ∧
      CorrectlyRounded .ieeeBinary64 ⟨64, 53, 52, 11, 1023, false⟩ .towardPositive
        oneThird.exactResult false (oneThird.run { rounding := .towardPositive }) := by
  refine ⟨by decide, ?_⟩
  have three : FloatValue.IsFinite ⟨.ieeeBinary64, 0x4008000000000000, 0⟩ := .inr (.inr (by decide))
  exact run_correctlyRounded oneThird
    ⟨.inr (.inr (by decide)), three, rfl, by decide, fun _ => three.toRat_ne_zero (by decide)⟩
    rfl { rounding := .towardPositive }

end Aburi.Numeric
