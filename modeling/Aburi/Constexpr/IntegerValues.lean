import Aburi.Cir.Types
import Aburi.Lib.Numerals
import Aburi.Numeric.Arithmetic
import Mathlib.Data.Int.ModEq

/-!
# Constant integers

Integers of at most 128 bits in two words, and what constant expressions compute with
them.
-/

namespace Aburi.Cir

open Aburi.Lib (numeral writeDigits writeDigits_eq)
open Aburi.Numeric (Word128 lowMask toNat_lowMask toNat_and_lowMask and_setBit_eq_zero)

namespace IntegerValue

def normalizedWidth (width : UInt16) : ℕ :=
  if width = 0 then 1 else if 128 < width then 128 else width.toNat

def widthMask (width : UInt16) : Word128 := lowMask (normalizedWidth width)

def fromBits128 (bits : Word128) (width : UInt16) (isUnsigned : Bool) : IntegerValue :=
  let bits := bits &&& widthMask width
  { lowBits := ⟨bits.setWidth 64⟩, highBits := ⟨(bits >>> 64).setWidth 64⟩
    bitWidth := if width = 0 then 1 else width, isUnsigned }

variable (value : IntegerValue)

def words : Word128 := value.highBits.toBitVec ++ value.lowBits.toBitVec

def toUnsignedU128 : Word128 := value.words &&& widthMask value.bitWidth

def toSignedI128 : Word128 :=
  let width := normalizedWidth value.bitWidth
  if width < 128 ∧ value.toUnsignedU128 &&& ((1 <<< (width - 1) : ℕ) : Word128) ≠ 0 then
    value.toUnsignedU128 ||| ~~~widthMask value.bitWidth
  else value.toUnsignedU128

def tryAsUint64 : Option (BitVec 64) :=
  if value.isUnsigned then
    if value.highBits = 0 then some value.lowBits.toBitVec else none
  else if value.toSignedI128.toInt < 0 ∨ 2 ^ 64 - 1 < value.toSignedI128.toNat then none
  else some (value.toSignedI128.setWidth 64)

def tryAsInt64 : Option (BitVec 64) :=
  if value.isUnsigned then
    if 2 ^ 63 - 1 < value.toUnsignedU128.toNat then none
    else some (value.toUnsignedU128.setWidth 64)
  else if value.toSignedI128.toInt < -2 ^ 63 ∨ 2 ^ 63 - 1 < value.toSignedI128.toInt then none
  else some (value.toSignedI128.setWidth 64)

def cast (newWidth : UInt16) (newUnsigned : Bool) : IntegerValue :=
  fromBits128 (if value.isUnsigned then value.toUnsignedU128 else value.toSignedI128) newWidth
    newUnsigned

def InRange (width : UInt16) : Prop := 1 ≤ width.toNat ∧ width.toNat ≤ 128

def Canonical : Prop :=
  InRange value.bitWidth ∧ value = fromBits128 value.words value.bitWidth value.isUnsigned

def isNegative : Bool := !value.isUnsigned && decide (value.toSignedI128.toInt < 0)

def decimal : Option (List Char) :=
  let magnitude :=
    if value.isNegative then (~~~value.toUnsignedU128 + 1) &&& widthMask value.bitWidth
    else value.toUnsignedU128
  (writeDigits Nat.digitChar 10 40 magnitude.toNat []).map
    ((if value.isNegative then ['-'] else []) ++ ·)

end IntegerValue

open IntegerValue

inductive ConstIntOpError where
  | divisionByZero | invalidShiftAmount
  deriving DecidableEq

abbrev ConstIntOpResult := Except ConstIntOpError IntegerValue

variable (lhs rhs : IntegerValue)

/-- `const_int_div` and `const_int_mod`; nothing, where the language leaves the signed
operation undefined. -/
def constIntDivision (unsignedOp signedOp : Word128 → Word128 → Word128) :
    Option ConstIntOpResult :=
  if rhs.toUnsignedU128 = 0 then some (.error .divisionByZero)
  else if lhs.isUnsigned then
    some (.ok (fromBits128 (unsignedOp lhs.toUnsignedU128 rhs.toUnsignedU128) lhs.bitWidth true))
  else if lhs.toSignedI128 = .intMin 128 ∧ rhs.toSignedI128 = -1 then none
  else some (.ok (fromBits128 (signedOp lhs.toSignedI128 rhs.toSignedI128) lhs.bitWidth false))

def constIntDiv : Option ConstIntOpResult := constIntDivision lhs rhs BitVec.udiv BitVec.sdiv

def constIntMod : Option ConstIntOpResult := constIntDivision lhs rhs BitVec.umod BitVec.srem

def constIntNeg : IntegerValue :=
  fromBits128 (0 - lhs.toUnsignedU128) lhs.bitWidth lhs.isUnsigned

def constIntAdd : IntegerValue :=
  fromBits128 (lhs.toUnsignedU128 + rhs.toUnsignedU128) lhs.bitWidth lhs.isUnsigned

def constIntSub : IntegerValue :=
  fromBits128 (lhs.toUnsignedU128 - rhs.toUnsignedU128) lhs.bitWidth lhs.isUnsigned

def constIntMul : IntegerValue :=
  fromBits128 (lhs.toUnsignedU128 * rhs.toUnsignedU128) lhs.bitWidth lhs.isUnsigned

/-- `const_int_shl` and `const_int_shr`. -/
def constIntShift (shifted : ℕ → Word128) : ConstIntOpResult :=
  match rhs.tryAsUint64 with
  | none => .error .invalidShiftAmount
  | some shift =>
    if lhs.bitWidth.toNat ≤ shift.toNat then .error .invalidShiftAmount
    else .ok (fromBits128 (shifted shift.toNat) lhs.bitWidth lhs.isUnsigned)

def constIntShl : ConstIntOpResult := constIntShift lhs rhs (lhs.toUnsignedU128 <<< ·)

def constIntShr : ConstIntOpResult :=
  constIntShift lhs rhs
    (if lhs.isUnsigned then (lhs.toUnsignedU128 >>> ·) else lhs.toSignedI128.sshiftRight)

/-- The residue of a number among those of a type. -/
def wrap (width : ℕ) (isUnsigned : Bool) (exact : ℤ) : ℤ :=
  if isUnsigned then exact % 2 ^ width else exact.bmod (2 ^ width)

def IntegerValue.number (value : IntegerValue) : ℤ :=
  wrap value.bitWidth.toNat value.isUnsigned value.words.toNat

variable {width : UInt16} {isUnsigned : Bool} {bits : Word128} {x y : ℤ}

theorem wrap_modEq (width : ℕ) : wrap width isUnsigned x ≡ x [ZMOD 2 ^ width] := by
  rw [wrap]
  split
  · exact Int.mod_modEq x _
  · exact_mod_cast @Int.bmod_emod x (2 ^ width)

theorem wrap_congr {width : ℕ} (same : x ≡ y [ZMOD 2 ^ width]) :
    wrap width isUnsigned x = wrap width isUnsigned y := by
  have rest : x % ((2 ^ width : ℕ) : ℤ) = y % ((2 ^ width : ℕ) : ℤ) := by exact_mod_cast same
  rw [wrap, wrap, same, ← Int.emod_bmod x, ← Int.emod_bmod y, rest]

theorem bmod_modEq {width full : ℕ} (atMost : width ≤ full) :
    x.bmod (2 ^ full) ≡ x [ZMOD 2 ^ width] :=
  (@wrap_modEq false x full).of_dvd (pow_dvd_pow 2 atMost)

theorem normalizedWidth_eq (inRange : InRange width) : normalizedWidth width = width.toNat := by
  obtain ⟨positive, atMost⟩ := inRange
  rw [normalizedWidth, if_neg (by rintro rfl; simp at positive),
    if_neg (by rw [UInt16.lt_iff_toNat_lt]; simpa using atMost)]

theorem toNat_masked (inRange : InRange width) :
    (bits &&& widthMask width).toNat = bits.toNat % 2 ^ width.toNat := by
  rw [widthMask, normalizedWidth_eq inRange, toNat_and_lowMask inRange.2]

theorem toInt_modEq (inRange : InRange width) : bits.toInt ≡ bits.toNat [ZMOD 2 ^ width.toNat] := by
  rw [BitVec.toInt_eq_toNat_bmod]
  exact bmod_modEq inRange.2

theorem words_fromBits128 :
    (fromBits128 bits width isUnsigned).words = bits &&& widthMask width := by
  rw [words, fromBits128]
  dsimp only
  rw [BitVec.setWidth_ushiftRight_eq_extractLsb, BitVec.setWidth_eq_extractLsb' (by decide)]
  exact BitVec.extractLsb'_append_extractLsb'

structure IsWrapped (value : IntegerValue) (width : UInt16) (isUnsigned : Bool) (exact : ℤ) :
    Prop where
  canonical : value.Canonical
  sameWidth : value.bitWidth = width
  sameSign : value.isUnsigned = isUnsigned
  number : value.number = wrap width.toNat isUnsigned exact

theorem isWrapped_fromBits128 (inRange : InRange width)
    (same : bits.toInt ≡ x [ZMOD 2 ^ width.toNat]) :
    IsWrapped (fromBits128 bits width isUnsigned) width isUnsigned x := by
  have isWidth : (fromBits128 bits width isUnsigned).bitWidth = width := by
    have := inRange.1
    rw [fromBits128, if_neg (by rintro rfl; simp at this)]
  refine ⟨⟨by rwa [isWidth], ?_⟩, isWidth, rfl, ?_⟩
  · rw [isWidth, words_fromBits128]
    simp only [fromBits128, BitVec.and_assoc, BitVec.and_self]
  · rw [number, isWidth, words_fromBits128, toNat_masked inRange]
    refine wrap_congr (Int.ModEq.trans ?_ ((toInt_modEq inRange).symm.trans same))
    exact_mod_cast Int.mod_modEq bits.toNat (2 ^ width.toNat : ℕ)

theorem isWrapped_of_bmod (inRange : InRange width) (isResult : bits.toInt = x.bmod (2 ^ 128))
    (same : x ≡ y [ZMOD 2 ^ width.toNat]) :
    IsWrapped (fromBits128 bits width isUnsigned) width isUnsigned y := by
  apply isWrapped_fromBits128 inRange
  rw [isResult]
  exact (bmod_modEq inRange.2).trans same

theorem number_range (value : IntegerValue) : -2 ^ value.bitWidth.toNat < value.number ∧
    value.number < 2 ^ value.bitWidth.toNat := by
  rw [number, wrap]
  generalize (value.words.toNat : ℤ) = exact
  have positive : (0 : ℤ) < 2 ^ value.bitWidth.toNat := by positivity
  split
  · have residue := Int.emod_nonneg exact positive.ne'
    omega
  · have atLeast := @Int.le_bmod exact _ (Nat.two_pow_pos value.bitWidth.toNat)
    have below := @Int.bmod_lt exact _ (Nat.two_pow_pos value.bitWidth.toNat)
    push_cast at atLeast below
    omega

section Values

variable {value : IntegerValue} (inRange : InRange value.bitWidth)

include inRange

theorem toNat_toUnsignedU128 :
    (value.toUnsignedU128.toNat : ℤ) = value.number % 2 ^ value.bitWidth.toNat := by
  rw [toUnsignedU128, toNat_masked inRange, number, wrap_modEq]
  norm_cast

theorem unsigned_modEq :
    value.toUnsignedU128.toInt ≡ value.number [ZMOD 2 ^ value.bitWidth.toNat] := by
  refine (toInt_modEq inRange).trans ?_
  rw [toNat_toUnsignedU128 inRange]
  exact Int.mod_modEq _ _

theorem toUnsignedU128_eq_zero : value.toUnsignedU128 = 0 ↔ value.number = 0 := by
  have isNumber := toNat_toUnsignedU128 inRange
  constructor
  · intro zero
    rw [zero] at isNumber
    have same : value.words.toNat ≡ 0 [ZMOD 2 ^ value.bitWidth.toNat] :=
      (wrap_modEq _).symm.trans isNumber.symm
    rw [number, wrap_congr same]
    simp [wrap]
  · intro zero
    rw [zero] at isNumber
    apply BitVec.eq_of_toNat_eq
    exact_mod_cast isNumber

theorem number_of_unsigned (isUnsigned : value.isUnsigned = true) :
    value.number = value.toUnsignedU128.toNat := by
  rw [toNat_toUnsignedU128 inRange, number, isUnsigned, wrap, if_pos rfl, Int.emod_emod]

/-- What a set sign bit adds above the width. -/
theorem toNat_signFill : (value.toUnsignedU128 ||| ~~~widthMask value.bitWidth).toNat =
    value.toUnsignedU128.toNat + (2 ^ 128 - 2 ^ value.bitWidth.toNat) := by
  have atMost := Nat.pow_le_pow_right (show 0 < 2 by decide) inRange.2
  have positive := Nat.two_pow_pos value.bitWidth.toNat
  have apart : value.toUnsignedU128 &&& ~~~widthMask value.bitWidth = 0#128 := by
    rw [toUnsignedU128, BitVec.and_assoc, BitVec.and_not_self]
    exact BitVec.and_zero
  have masked := @toNat_masked _ value.words inRange
  have isMask : (widthMask value.bitWidth).toNat = 2 ^ value.bitWidth.toNat - 1 := by
    rw [widthMask, normalizedWidth_eq inRange, toNat_lowMask inRange.2]
  rw [← BitVec.add_eq_or_of_and_eq_zero _ _ apart, BitVec.toNat_add, BitVec.toNat_not, isMask,
    toUnsignedU128, masked, Nat.mod_eq_of_lt (by omega)]
  omega

theorem number_of_signed (isSigned : value.isUnsigned = false) :
    value.number = value.toSignedI128.toInt := by
  have masked := @toNat_masked _ value.words inRange
  have below := Nat.mod_lt value.words.toNat (Nat.two_pow_pos value.bitWidth.toNat)
  have filled := toNat_signFill inRange
  obtain ⟨half, isHalf⟩ : ∃ half, value.bitWidth.toNat = half + 1 :=
    ⟨_, (Nat.sub_add_cancel inRange.1).symm⟩
  have atMost := Nat.pow_le_pow_right (show 0 < 2 by decide) inRange.2
  have inside := inRange.2
  have signBit := @and_setBit_eq_zero half (by omega) value.toUnsignedU128 (by
    rw [toUnsignedU128, masked, ← isHalf]
    exact below)
  rw [number, isSigned, wrap, if_neg (by decide), toSignedI128, normalizedWidth_eq inRange,
    Int.bmod, ← Int.natCast_emod, ← masked, ← toUnsignedU128]
  rw [← masked, ← toUnsignedU128] at below
  rw [isHalf, pow_succ] at below atMost filled
  rw [isHalf, Nat.add_sub_cancel, pow_succ]
  generalize value.toUnsignedU128 = word at signBit below filled ⊢
  by_cases small : word.toNat < 2 ^ half
  · rw [if_pos (by omega), if_neg (fun set => set.2 (signBit.mpr small)),
      BitVec.toInt_eq_toNat_of_lt (by omega)]
  · rw [if_neg (by omega)]
    split
    case isTrue narrow =>
      rw [BitVec.toInt_eq_toNat_cond, filled, if_neg (by omega)]
      omega
    case isFalse wide =>
      obtain rfl : half = 127 := by
        by_contra other
        exact wide ⟨by omega, fun unset => small (signBit.mp unset)⟩
      rw [BitVec.toInt_eq_toNat_cond, if_neg (by omega)]
      rfl

theorem extended_modEq : (if value.isUnsigned then value.toUnsignedU128
    else value.toSignedI128).toInt ≡ value.number [ZMOD 2 ^ 128] := by
  split
  case isTrue isUnsigned =>
    rw [number_of_unsigned inRange isUnsigned, BitVec.toInt_eq_toNat_bmod]
    exact bmod_modEq le_rfl
  case isFalse isSigned =>
    rw [number_of_signed inRange (Bool.eq_false_iff.mpr isSigned)]

theorem isNegative_iff : value.isNegative = true ↔ value.number < 0 := by
  cases sign : value.isUnsigned with
  | true => simp [isNegative, sign, number_of_unsigned inRange sign]
  | false => simp [isNegative, sign, number_of_signed inRange sign]

theorem magnitude_eq : (if value.isNegative then
      (~~~value.toUnsignedU128 + 1) &&& widthMask value.bitWidth
    else value.toUnsignedU128).toNat = value.number.natAbs := by
  split
  case isTrue negative =>
    have below := (isNegative_iff inRange).mp negative
    have atLeast := (number_range value).1
    have same : -value.toUnsignedU128.toInt ≡ -value.number [ZMOD 2 ^ value.bitWidth.toNat] :=
      (unsigned_modEq inRange).neg
    have complement : ((-value.toUnsignedU128).toNat : ℤ) ≡ -value.number
        [ZMOD 2 ^ value.bitWidth.toNat] := by
      refine (toInt_modEq inRange).symm.trans (Int.ModEq.trans ?_ same)
      rw [BitVec.toInt_neg]
      exact bmod_modEq inRange.2
    have isNeg : ~~~value.toUnsignedU128 + 1 = -value.toUnsignedU128 :=
      (BitVec.neg_eq_not_add _).symm
    rw [isNeg, toNat_masked inRange]
    zify
    rw [complement, Int.emod_eq_of_lt (by omega) (by omega), abs_of_neg below]
  case isFalse nonnegative =>
    have sign := (isNegative_iff inRange).not.mp nonnegative
    zify
    rw [toNat_toUnsignedU128 inRange, Int.emod_eq_of_lt (by omega) (number_range value).2,
      abs_of_nonneg (by omega)]

end Values

section Fits

variable {value : IntegerValue} (canonical : value.Canonical)

include canonical

theorem tryAsUint64_eq : value.tryAsUint64.map (fun word => (word.toNat : ℤ)) =
    if 0 ≤ value.number ∧ value.number < 2 ^ 64 then some value.number else none := by
  rw [tryAsUint64]
  cases sign : value.isUnsigned with
  | true =>
    have isWords : value.toUnsignedU128 = value.words := by
      conv_rhs => rw [canonical.2, words_fromBits128]
      rfl
    have isNumber := number_of_unsigned canonical.1 sign
    rw [isWords, words, BitVec.toNat_append,
      ← Nat.shiftLeft_add_eq_or_of_lt value.lowBits.toBitVec.isLt, Nat.shiftLeft_eq] at isNumber
    have isZero : value.highBits = 0 ↔ value.highBits.toBitVec.toNat = 0 := by
      rw [← UInt64.toNat_inj]
      rfl
    by_cases high : value.highBits = 0
    · have := isZero.mp high
      rw [if_pos rfl, if_pos high, if_pos (by omega)]
      simp only [Option.map_some, Option.some_inj]
      omega
    · have := isZero.not.mp high
      rw [if_pos rfl, if_neg high, if_neg (by omega)]
      rfl
  | false =>
    have isNumber := number_of_signed canonical.1 sign
    have isInt := BitVec.toInt_eq_toNat_cond value.toSignedI128
    rw [if_neg (by decide)]
    split
    case isTrue outside =>
      rw [if_neg (by omega)]
      rfl
    case isFalse inside =>
      rw [if_pos (by omega)]
      simp only [Option.map_some, BitVec.toNat_setWidth, Option.some_inj]
      omega

theorem tryAsInt64_eq : value.tryAsInt64.map BitVec.toInt =
    if -2 ^ 63 ≤ value.number ∧ value.number < 2 ^ 63 then some value.number else none := by
  have narrow : ∀ word : Word128, -2 ^ 63 ≤ word.toInt → word.toInt < 2 ^ 63 →
      (word.setWidth 64).toInt = word.toInt := by
    intro word atLeast below
    have isInt := BitVec.toInt_eq_toNat_cond word
    rw [BitVec.toInt_setWidth, Int.bmod]
    omega
  rw [tryAsInt64]
  cases sign : value.isUnsigned with
  | true =>
    have isNumber := number_of_unsigned canonical.1 sign
    have isInt := BitVec.toInt_eq_toNat_cond value.toUnsignedU128
    rw [if_pos rfl]
    split
    case isTrue outside =>
      rw [if_neg (by omega)]
      rfl
    case isFalse inside =>
      rw [if_pos (by omega), Option.map_some, narrow _ (by omega) (by omega)]
      congr
      omega
  | false =>
    have isNumber := number_of_signed canonical.1 sign
    rw [if_neg (by decide)]
    split
    case isTrue outside =>
      rw [if_neg (by omega)]
      rfl
    case isFalse inside =>
      rw [if_pos (by omega), Option.map_some, narrow _ (by omega) (by omega), isNumber]

theorem decimal_eq : value.decimal = some ((if value.number < 0 then ['-'] else []) ++
    numeral Nat.digitChar 10 value.number.natAbs) := by
  have fits : value.number.natAbs < 10 ^ 40 := by
    have range := number_range value
    have bound : (2 : ℤ) ^ value.bitWidth.toNat ≤ 2 ^ 128 :=
      pow_le_pow_right₀ (by decide) canonical.1.2
    omega
  rw [decimal, magnitude_eq canonical.1, writeDigits_eq (by decide) (by decide) fits]
  simp [isNegative_iff canonical.1]

end Fits

/-- The result fails where it should and otherwise is the exact one in the type. -/
def Gives (result : Option ConstIntOpResult) (width : UInt16) (isUnsigned : Bool)
    (error : ConstIntOpError) (fails : Prop) (exact : ℤ) : Prop :=
  (fails → result = some (.error error)) ∧
    (¬ fails → ∃ value, result = some (.ok value) ∧ IsWrapped value width isUnsigned exact)

structure TwosComplement (lhs rhs amount : IntegerValue) (newWidth : UInt16)
    (newUnsigned : Bool) : Prop where
  neg : IsWrapped (constIntNeg lhs) lhs.bitWidth lhs.isUnsigned (-lhs.number)
  add : IsWrapped (constIntAdd lhs rhs) lhs.bitWidth lhs.isUnsigned (lhs.number + rhs.number)
  sub : IsWrapped (constIntSub lhs rhs) lhs.bitWidth lhs.isUnsigned (lhs.number - rhs.number)
  mul : IsWrapped (constIntMul lhs rhs) lhs.bitWidth lhs.isUnsigned (lhs.number * rhs.number)
  div : Gives (constIntDiv lhs rhs) lhs.bitWidth lhs.isUnsigned .divisionByZero (rhs.number = 0)
    (lhs.number.tdiv rhs.number)
  mod : Gives (constIntMod lhs rhs) lhs.bitWidth lhs.isUnsigned .divisionByZero (rhs.number = 0)
    (lhs.number.tmod rhs.number)
  shl : Gives (some (constIntShl lhs amount)) lhs.bitWidth lhs.isUnsigned .invalidShiftAmount
    (amount.number < 0 ∨ lhs.bitWidth.toNat ≤ amount.number)
    (lhs.number * 2 ^ amount.number.toNat)
  shr : Gives (some (constIntShr lhs amount)) lhs.bitWidth lhs.isUnsigned .invalidShiftAmount
    (amount.number < 0 ∨ lhs.bitWidth.toNat ≤ amount.number)
    (lhs.number / 2 ^ amount.number.toNat)
  cast : IsWrapped (lhs.cast newWidth newUnsigned) newWidth newUnsigned lhs.number
  decimal : lhs.decimal =
    some ((if lhs.number < 0 then ['-'] else []) ++ numeral Nat.digitChar 10 lhs.number.natAbs)
  asUint64 : lhs.tryAsUint64.map (fun word => (word.toNat : ℤ)) =
    if 0 ≤ lhs.number ∧ lhs.number < 2 ^ 64 then some lhs.number else none
  asInt64 : lhs.tryAsInt64.map BitVec.toInt =
    if -2 ^ 63 ≤ lhs.number ∧ lhs.number < 2 ^ 63 then some lhs.number else none

variable {lhs rhs} {amount : IntegerValue}

theorem constIntDivision_gives {unsignedOp signedOp : Word128 → Word128 → Word128}
    {exact : ℤ → ℤ → ℤ} (left : InRange lhs.bitWidth) (right : InRange rhs.bitWidth)
    (sameSign : rhs.isUnsigned = lhs.isUnsigned)
    (whole : ∀ x y, ((unsignedOp x y).toNat : ℤ) = exact x.toNat y.toNat)
    (truncates : ∀ x y : Word128, (signedOp x y).toInt ≡ exact x.toInt y.toInt [ZMOD 2 ^ 128])
    (fits : ¬ (lhs.isUnsigned = false ∧ lhs.number = -2 ^ 127 ∧ rhs.number = -1)) :
    Gives (constIntDivision lhs rhs unsignedOp signedOp) lhs.bitWidth lhs.isUnsigned
      .divisionByZero (rhs.number = 0) (exact lhs.number rhs.number) := by
  have isZero := toUnsignedU128_eq_zero right
  rw [constIntDivision]
  refine ⟨fun zero => if_pos (isZero.mpr zero), fun nonzero => ?_⟩
  rw [if_neg (isZero.not.mpr nonzero)]
  cases sign : lhs.isUnsigned with
  | true =>
    refine ⟨_, rfl, isWrapped_fromBits128 left ?_⟩
    rw [number_of_unsigned left sign, number_of_unsigned right (sameSign.trans sign), ← whole]
    exact toInt_modEq left
  | false =>
    rw [number_of_signed left sign, number_of_signed right (sameSign.trans sign)] at fits ⊢
    rw [if_neg (by decide), if_neg]
    · exact ⟨_, rfl, isWrapped_fromBits128 left ((truncates _ _).of_dvd (pow_dvd_pow 2 left.2))⟩
    · rintro ⟨least, minusOne⟩
      rw [least, minusOne] at fits
      exact fits ⟨sign, by decide, by decide⟩

theorem constIntShift_gives {shifted : ℕ → Word128} {exact : ℤ} (left : InRange lhs.bitWidth)
    (canonical : amount.Canonical)
    (shifts : (shifted amount.number.toNat).toInt ≡ exact [ZMOD 2 ^ lhs.bitWidth.toNat]) :
    Gives (some (constIntShift lhs amount shifted)) lhs.bitWidth lhs.isUnsigned
      .invalidShiftAmount (amount.number < 0 ∨ lhs.bitWidth.toNat ≤ amount.number) exact := by
  have isAmount := tryAsUint64_eq canonical
  have atMost := left.2
  rw [constIntShift]
  cases read : amount.tryAsUint64 with
  | none =>
    rw [read] at isAmount
    refine ⟨fun _ => rfl, fun valid => ?_⟩
    rw [if_pos (by omega)] at isAmount
    cases isAmount
  | some shift =>
    rw [read] at isAmount
    split at isAmount
    case isFalse => cases isAmount
    case isTrue inside =>
      have isShift : (shift.toNat : ℤ) = amount.number := Option.some_inj.mp isAmount
      have isNat : shift.toNat = amount.number.toNat := by omega
      dsimp only
      refine ⟨fun fails => by rw [if_pos (by omega)], fun valid => ?_⟩
      rw [if_neg (by omega), isNat]
      exact ⟨_, rfl, isWrapped_fromBits128 left shifts⟩

/-- Signed numbers of 128 bits are the only ones whose quotient may not fit. -/
theorem twosComplement_iff {newWidth : UInt16} {newUnsigned : Bool} (left : lhs.Canonical)
    (right : rhs.Canonical) (shift : amount.Canonical) (sameSign : rhs.isUnsigned = lhs.isUnsigned)
    (sameWidth : rhs.bitWidth = lhs.bitWidth) (inRange : InRange newWidth) :
    TwosComplement lhs rhs amount newWidth newUnsigned ↔
      ¬ (lhs.isUnsigned = false ∧ lhs.number = -2 ^ 127 ∧ rhs.number = -1) := by
  constructor
  · rintro whole ⟨isSigned, least, minusOne⟩
    have nonzero : ¬ rhs.number = 0 := by omega
    have isZero := toUnsignedU128_eq_zero right.1
    obtain ⟨value, isValue, -⟩ := whole.div.2 nonzero
    rw [number_of_signed left.1 isSigned] at least
    rw [number_of_signed right.1 (sameSign.trans isSigned)] at minusOne
    have isLeast : lhs.toSignedI128 = .intMin 128 := BitVec.eq_of_toInt_eq (least.trans (by decide))
    have isMinusOne : rhs.toSignedI128 = -1 := BitVec.eq_of_toInt_eq (minusOne.trans (by decide))
    rw [constIntDiv, constIntDivision, if_neg (isZero.not.mpr nonzero), isSigned,
      if_neg (by decide), if_pos ⟨isLeast, isMinusOne⟩] at isValue
    cases isValue
  · intro fits
    have leftModEq := unsigned_modEq left.1
    have rightModEq := unsigned_modEq right.1
    rw [sameWidth] at rightModEq
    have isNeg : 0 - lhs.toUnsignedU128 = -lhs.toUnsignedU128 := BitVec.zero_sub _
    refine
      { neg := isWrapped_of_bmod left.1 (isNeg ▸ BitVec.toInt_neg) leftModEq.neg
        add := isWrapped_of_bmod left.1 (BitVec.toInt_add _ _) (leftModEq.add rightModEq)
        sub := isWrapped_of_bmod left.1 BitVec.toInt_sub (leftModEq.sub rightModEq)
        mul := isWrapped_of_bmod left.1 (BitVec.toInt_mul _ _) (leftModEq.mul rightModEq)
        div := constIntDivision_gives left.1 right.1 sameSign (fun _ _ => Int.ofNat_tdiv _ _)
          (fun x y => BitVec.toInt_sdiv x y ▸ bmod_modEq le_rfl) fits
        mod := constIntDivision_gives left.1 right.1 sameSign (fun _ _ => Int.ofNat_tmod _ _)
          (fun x y => congrArg (· % 2 ^ 128) (BitVec.toInt_srem x y)) fits
        shl := constIntShift_gives left.1 shift ?_
        shr := constIntShift_gives left.1 shift ?_
        cast := isWrapped_fromBits128 inRange
          ((extended_modEq left.1).of_dvd (pow_dvd_pow 2 inRange.2))
        decimal := decimal_eq left
        asUint64 := tryAsUint64_eq left
        asInt64 := tryAsInt64_eq left }
    · rw [BitVec.toInt_shiftLeft, Nat.shiftLeft_eq]
      push_cast
      exact (bmod_modEq left.1.2).trans (((toInt_modEq left.1).symm.trans leftModEq).mul_right _)
    · cases sign : lhs.isUnsigned with
      | true =>
        rw [if_pos rfl, number_of_unsigned left.1 sign]
        refine (toInt_modEq left.1).trans ?_
        rw [BitVec.toNat_ushiftRight, Nat.shiftRight_eq_div_pow]
        norm_cast
      | false =>
        rw [if_neg (by decide), number_of_signed left.1 sign, BitVec.toInt_sshiftRight,
          Int.shiftRight_eq_div_pow]
        norm_cast

/-- A signed number of 128 bits. -/
def signed128 (bits : Word128) : IntegerValue := fromBits128 bits 128 false

theorem canonical_signed128 (bits : Word128) : (signed128 bits).Canonical :=
  (isWrapped_fromBits128 ⟨by decide, by decide⟩ rfl).canonical

theorem twosComplement_iff_least :
    TwosComplement (signed128 (.intMin 128)) (signed128 3) (signed128 127) 65 true := by
  have inRange : InRange 65 := by constructor <;> decide
  apply (twosComplement_iff (canonical_signed128 (.intMin 128)) (canonical_signed128 3)
    (canonical_signed128 127) rfl rfl inRange).mpr
  decide

/-- The quotient would be `2 ^ 127`. -/
theorem least_by_minusOne :
    (signed128 (.intMin 128)).Canonical ∧ (signed128 (-1)).Canonical ∧
      constIntDiv (signed128 (.intMin 128)) (signed128 (-1)) = none ∧
      constIntMod (signed128 (.intMin 128)) (signed128 (-1)) = none :=
  ⟨canonical_signed128 _, canonical_signed128 _, by decide, by decide⟩

end Aburi.Cir
