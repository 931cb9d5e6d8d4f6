import Aburi.Lib.Numerals
import Aburi.Numeric.BigUInt

/-!
# Numerals of big integers

The decimal numeral is made from chunks of nine digits, the hexadecimal one from the
words.
-/

namespace Aburi.Numeric.BigUInt

open Aburi.Lib Nat List
open Aburi.Lib.Words (value)

/-- The divisor is not zero where this is called. -/
def divideSmall (number : BigUInt) (divisor : BitVec 32) : BigUInt × ℕ :=
  let (words, remainder) := Words.divideFrom divisor.toNat number.words
  (ofWords words, remainder)

theorem divideSmall_spec (number : BigUInt) {divisor : BitVec 32} (positive : 0 < divisor.toNat) :
    (number.divideSmall divisor).1.toNat = number.toNat / divisor.toNat ∧
      (number.divideSmall divisor).2 = number.toNat % divisor.toNat := by
  obtain ⟨below, sum⟩ := Words.divideFrom_spec positive number.words
  rw [divideSmall, toNat_ofWords, toNat, ← sum, Nat.mul_add_div positive, Nat.mul_add_mod,
    Nat.div_eq_of_lt below, Nat.mod_eq_of_lt below, Nat.add_zero]
  exact ⟨rfl, rfl⟩

/-- The chunks of nine digits, the lowest first. -/
def decimalChunks (number : BigUInt) : List ℕ :=
  if number.isZero then []
  else
    (number.divideSmall 1000000000).2 :: decimalChunks (number.divideSmall 1000000000).1
termination_by number.toNat
decreasing_by
  rename_i nonzero
  rw [isZero_iff] at nonzero
  rw [(number.divideSmall_spec (by decide : 0 < (1000000000 : BitVec 32).toNat)).1]
  exact Nat.div_lt_self (Nat.pos_of_ne_zero nonzero) (by decide)

def toDecimal (number : BigUInt) : List Char :=
  if number.isZero then ['0'] else joinDigits 10 9 number.decimalChunks

def toHex (number : BigUInt) : List Char :=
  if number.isZero then ['0'] else joinDigits 16 16 (number.words.map BitVec.toNat)

theorem decimalChunks_eq (number : BigUInt) :
    number.decimalChunks = digits (10 ^ 9) number.toNat := by
  induction number using decimalChunks.induct with
  | case1 number zero =>
    rw [decimalChunks, if_pos zero, (isZero_iff number).mp zero, digits_zero]
  | case2 number nonzero ih =>
    have divides := number.divideSmall_spec (by decide : 0 < (1000000000 : BitVec 32).toNat)
    rw [decimalChunks, if_neg nonzero, ih, divides.1, divides.2]
    rw [isZero_iff] at nonzero
    exact (digits_def' (by decide) (Nat.pos_of_ne_zero nonzero)).symm

theorem toDecimal_eq (number : BigUInt) : number.toDecimal = toDigits 10 number.toNat := by
  rw [toDecimal]
  split
  case isTrue zero => rw [(isZero_iff number).mp zero, toDigits_zero]
  case isFalse nonzero =>
    rw [isZero_iff] at nonzero
    rw [decimalChunks_eq, joinDigits_digits (by decide) (by decide) (Nat.pos_of_ne_zero nonzero)]

theorem ofDigits_words (words : List (BitVec 64)) :
    ofDigits (2 ^ 64) (words.map BitVec.toNat) = value words := by
  induction words with
  | nil => rfl
  | cons word words ih => rw [List.map_cons, ofDigits_cons, ih, Words.value_cons]

theorem words_eq_digits (number : BigUInt) :
    number.words.map BitVec.toNat = digits (16 ^ 16) number.toNat := by
  rw [toNat, ← ofDigits_words]
  refine (digits_ofDigits (2 ^ 64) (by decide) _ ?_ ?_).symm
  · intro word member
    obtain ⟨bits, -, rfl⟩ := mem_map.mp member
    exact bits.isLt
  · intro nonempty zero
    rw [getLast_map] at zero
    apply number.normalized _ (getLast?_eq_getLast_of_ne_nil (by simpa using nonempty))
    rwa [BitVec.toNat_eq]

theorem toHex_eq (number : BigUInt) : number.toHex = toDigits 16 number.toNat := by
  rw [toHex]
  split
  case isTrue zero => rw [(isZero_iff number).mp zero, toDigits_zero]
  case isFalse nonzero =>
    rw [isZero_iff] at nonzero
    rw [words_eq_digits, joinDigits_digits (by decide) (by decide) (Nat.pos_of_ne_zero nonzero)]

/-- The operations on words are those on numbers. -/
theorem implements_naturals (left right : BigUInt) (small divisor : BitVec 32) (bits : ℕ)
    (positive : 0 < divisor.toNat) :
    (left.add right).toNat = left.toNat + right.toNat ∧
      (left.addSmall small).toNat = left.toNat + small.toNat ∧
      (right.toNat ≤ left.toNat → (left.subtract right).toNat = left.toNat - right.toNat) ∧
      (left.multiplySmall small).toNat = left.toNat * small.toNat ∧
      (left.multiply right).toNat = left.toNat * right.toNat ∧
      (left.shiftedLeft bits).toNat = left.toNat * 2 ^ bits ∧
      (left.shiftedRight bits).1.toNat = left.toNat / 2 ^ bits ∧
      ((left.shiftedRight bits).2 = true ↔ left.toNat % 2 ^ bits ≠ 0) ∧
      (0 < right.toNat → (divmod left right).1.toNat = left.toNat / right.toNat ∧
        (divmod left right).2.toNat = left.toNat % right.toNat) ∧
      (left.divideSmall divisor).1.toNat = left.toNat / divisor.toNat ∧
      (left.divideSmall divisor).2 = left.toNat % divisor.toNat ∧
      left.compare right = Ord.compare left.toNat right.toNat ∧
      left.bitWidth = left.toNat.size ∧
      left.toDecimal = toDigits 10 left.toNat ∧
      left.toHex = toDigits 16 left.toNat := by
  have divides := left.divideSmall_spec positive
  exact ⟨toNat_add left right, toNat_addSmall left small, toNat_subtract,
    toNat_multiplySmall left small, toNat_multiply left right, toNat_shiftedLeft left bits,
    toNat_shiftedRight left bits, shiftedRight_discarded left bits,
    fun _ => divmod_spec left right, divides.1, divides.2, compare_eq left right,
    bitWidth_eq left, toDecimal_eq left, toHex_eq left⟩

/-- `2 ^ 65 - 1`. -/
def twoWords : BigUInt := ofWords [0xFFFFFFFFFFFFFFFF, 1]

theorem implements_naturals_twoWords :
    (twoWords.multiply twoWords).toNat = 36893488147419103231 * 36893488147419103231 ∧
      (twoWords.divideSmall 1000000000).2 = 419103231 ∧
      twoWords.toDecimal = "36893488147419103231".toList ∧
      twoWords.toHex = "1ffffffffffffffff".toList := by
  have isNumber : twoWords.toNat = 36893488147419103231 := toNat_ofWords _
  obtain ⟨-, -, -, -, product, -, -, -, -, -, remainder, -, -, decimal, hex⟩ :=
    implements_naturals twoWords twoWords 0 1000000000 0 (by decide)
  rw [isNumber] at product remainder decimal hex
  exact ⟨product, remainder, decimal.trans (by decide), hex.trans (by decide)⟩

end Aburi.Numeric.BigUInt
