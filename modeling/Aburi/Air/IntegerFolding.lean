import Aburi.Air.InstSimplify
import Mathlib.Tactic.Linarith

/-!
# Folding in a word

The folder keeps an integer of up to 64 bits zero-extended in a word and sign
extends it where the operation is signed.  On such words it computes what the
operation means at its own width, and it folds exactly the operations that
have a value.
-/

namespace Aburi.Air

open Nat
open BitVec (allOnes eq_of_toInt_eq eq_of_toNat_eq intMin setWidth_add setWidth_and setWidth_eq
  toInt_inj toInt_sdiv toInt_signExtend_of_le toInt_srem toNat_inj toNat_setWidth toNat_shiftLeft
  toNat_udiv toNat_umod)
open Option (map_none map_some)

section Words

variable {width : ℕ}

theorem toNat_one_shiftLeft {amount : ℕ} (small : amount < 64) :
    ((1 : Word) <<< amount).toNat = 2 ^ amount := by
  have bound : 2 ^ amount < 2 ^ 64 := Nat.pow_lt_pow_right (by omega) small
  rw [toNat_shiftLeft, shiftLeft_eq, show (1 : Word).toNat = 1 from rfl,
    Nat.one_mul, mod_eq_of_lt bound]

theorem toNat_widthMask (narrow : width ≤ 64) :
    (widthMask width).toNat = 2 ^ width - 1 := by
  rw [widthMask]
  split
  case isTrue full =>
    have : width = 64 := by omega
    subst this
    rfl
  case isFalse partial' =>
    have small : width < 64 := by omega
    have bound : 2 ^ width < 2 ^ 64 := Nat.pow_lt_pow_right (by omega) small
    have positive := Nat.two_pow_pos width
    have one : (1 : Word).toNat = 1 := rfl
    rw [BitVec.toNat_sub_of_le, toNat_one_shiftLeft small, one]
    rw [BitVec.le_def, toNat_one_shiftLeft small, one]
    omega

theorem and_widthMask (narrow : width ≤ 64) (bits : Word) :
    bits &&& widthMask width = (bits.setWidth width).setWidth 64 := by
  apply eq_of_toNat_eq
  have bound : 2 ^ width ≤ 2 ^ 64 := Nat.pow_le_pow_right (by omega) narrow
  have low : bits.toNat % 2 ^ width < 2 ^ width := mod_lt _ (Nat.two_pow_pos width)
  rw [BitVec.toNat_and, toNat_widthMask narrow, and_two_pow_sub_one_eq_mod,
    toNat_setWidth, toNat_setWidth, mod_eq_of_lt (low.trans_le bound)]

theorem setWidth_and_widthMask (narrow : width ≤ 64) (bits : BitVec width) :
    bits.setWidth 64 &&& widthMask width = bits.setWidth 64 := by
  rw [and_widthMask narrow, BitVec.setWidth_setWidth_of_le _ narrow, setWidth_eq]

theorem xor_two_pow_of_lt {amount n : ℕ} (below : n < 2 ^ amount) :
    n ^^^ 2 ^ amount = n + 2 ^ amount := by
  have sum := two_pow_add_eq_or_of_lt below 1
  rw [Nat.mul_one] at sum
  rw [Nat.add_comm, sum]
  apply eq_of_testBit_eq
  intro index
  rw [testBit_xor, testBit_or, testBit_two_pow]
  by_cases same : amount = index
  · subst same
    rw [testBit_lt_two_pow below]
    simp
  · simp [same]

theorem signExtend_setWidth (positive : 0 < width) (narrow : width ≤ 64)
    (bits : BitVec width) : signExtend (bits.setWidth 64) width = bits.signExtend 64 := by
  rw [signExtend]
  split
  case isTrue full =>
    have : width = 64 := by omega
    subst this
    simp
  case isFalse partial' =>
    have bound : 2 ^ width ≤ 2 ^ 63 := Nat.pow_le_pow_right (by omega) (by omega)
    have half : 2 ^ width = 2 * 2 ^ (width - 1) := by
      rw [← Nat.pow_succ']
      congr 1
      omega
    have below := bits.isLt
    have word : (bits.setWidth 64).toNat = bits.toNat := by
      rw [toNat_setWidth, mod_eq_of_lt (by omega)]
    have sign := toNat_one_shiftLeft (show width - 1 < 64 by omega)
    apply eq_of_toInt_eq
    rw [toInt_signExtend_of_le narrow, BitVec.toInt_eq_toNat_bmod,
      BitVec.toInt_eq_toNat_cond, BitVec.toNat_sub, BitVec.toNat_xor, word, sign]
    generalize bits.toNat = n at *
    rcases Nat.lt_or_ge n (2 ^ (width - 1)) with small | large
    · rw [if_pos (by omega), xor_two_pow_of_lt small]
      have same : (2 ^ 64 - 2 ^ (width - 1) + (n + 2 ^ (width - 1))) % 2 ^ 64 = n := by omega
      rw [same]
      exact Int.bmod_eq_of_le (by omega) (by omega)
    · rw [if_neg (by omega)]
      obtain ⟨rest, rfl⟩ := Nat.exists_eq_add_of_le' large
      have cleared : (rest + 2 ^ (width - 1)) ^^^ 2 ^ (width - 1) = rest := by
        rw [← xor_two_pow_of_lt (by omega), Nat.xor_assoc, Nat.xor_self, xor_zero]
      rw [cleared, mod_eq_of_lt (by omega), Int.bmod_def, half]
      generalize 2 ^ (width - 1) = high at *
      split <;> omega

section

variable (narrow : width ≤ 64)
include narrow

theorem toNat_setWidth_word (bits : BitVec width) :
    (bits.setWidth 64).toNat = bits.toNat := by
  have bound : 2 ^ width ≤ 2 ^ 64 := Nat.pow_le_pow_right (by omega) narrow
  rw [toNat_setWidth, mod_eq_of_lt (bits.isLt.trans_le bound)]

theorem toInt_setWidth_of_le (bits : Word) :
    (bits.setWidth width).toInt = bits.toInt.bmod (2 ^ width) := by
  have divides : (2 : ℕ) ^ width ∣ 2 ^ 64 := Nat.pow_dvd_pow 2 narrow
  rw [BitVec.toInt_setWidth, BitVec.toInt_eq_toNat_bmod, Int.bmod_bmod_of_dvd divides]

/-- A signed operation in a word, masked, is the operation at the width when
both agree on signed values. -/
theorem masked_eq_of_toInt {wide : Word} {bits : BitVec width}
    (agree : wide.toInt.bmod (2 ^ width) = bits.toInt) :
    wide &&& widthMask width = bits.setWidth 64 := by
  rw [and_widthMask narrow]
  congr 1
  apply eq_of_toInt_eq
  rw [toInt_setWidth_of_le narrow, agree]

theorem signExtend_inj {a b : BitVec width} :
    a.signExtend 64 = b.signExtend 64 ↔ a = b := by
  rw [← toInt_inj, toInt_signExtend_of_le narrow,
    toInt_signExtend_of_le narrow, toInt_inj]

theorem setWidth_word_inj {a b : BitVec width} :
    a.setWidth 64 = b.setWidth 64 ↔ a = b := by
  rw [← toNat_inj, toNat_setWidth_word narrow, toNat_setWidth_word narrow, toNat_inj]

end

theorem overflowsDivision_iff (positive : 0 < width) (narrow : width ≤ 64)
    (a b : BitVec width) :
    overflowsDivision width (a.signExtend 64) (b.signExtend 64) = true ↔
      a = intMin width ∧ b = -1 := by
  have least : (1 : Word) <<< (width - 1) = (intMin width).setWidth 64 := by
    apply eq_of_toNat_eq
    rw [toNat_one_shiftLeft (by omega), toNat_setWidth_word narrow, BitVec.toNat_intMin,
      mod_eq_of_lt]
    exact Nat.pow_lt_pow_right (by omega) (by omega)
  have minusOne : (-1 : Word) = (-1 : BitVec width).signExtend 64 := by
    have ones : ∀ {size : ℕ}, 0 < size → (-1 : BitVec size).toInt = -1 := by
      intro size nonzero
      have same : (-1 : BitVec size) = allOnes size := BitVec.neg_one_eq_allOnes
      rw [same, BitVec.toInt_allOnes, if_pos nonzero]
    apply eq_of_toInt_eq
    rw [toInt_signExtend_of_le narrow, ones positive]
    exact ones (by omega)
  rw [overflowsDivision, Bool.and_eq_true, beq_iff_eq, beq_iff_eq, least,
    signExtend_setWidth positive narrow, minusOne, signExtend_inj narrow, signExtend_inj narrow]

end Words

/-- Folding a binary operation computes it, where it has a value. -/
theorem foldIntBinop_eq {width : ℕ} (positive : 0 < width) (narrow : width ≤ 64)
    (op : Opcode) (a b : BitVec width) :
    foldIntBinop op ⟨a.setWidth 64, width⟩ ⟨b.setWidth 64, width⟩ =
      (evalBinop op a b).map (·.setWidth 64) := by
  have amount := toNat_setWidth_word narrow b
  have isZero : b.setWidth 64 = 0 ↔ b = 0 := by
    have zero : (0 : BitVec width).setWidth 64 = 0 := by simp
    rw [← zero, setWidth_word_inj narrow]
  have signedZero : b.signExtend 64 = 0 ↔ b = 0 := by
    have zero : (0 : BitVec width).signExtend 64 = 0 := by
      apply eq_of_toInt_eq
      rw [toInt_signExtend_of_le narrow]
      simp
    rw [← zero, signExtend_inj narrow]
  have overflow := overflowsDivision_iff positive narrow a b
  have signed := signExtend_setWidth positive narrow
  have signedInt : ∀ bits : BitVec width, (bits.signExtend 64).toInt = bits.toInt :=
    fun bits => toInt_signExtend_of_le narrow
  have truncated : ∀ bits : BitVec width, (bits.setWidth 64).setWidth width = bits :=
    fun bits => by rw [BitVec.setWidth_setWidth_of_le _ narrow, setWidth_eq]
  cases op
  case iadd =>
    simp only [foldIntBinop, evalBinop, map_some, and_widthMask narrow]
    rw [setWidth_add _ _ narrow, truncated, truncated]
  case imul =>
    simp only [foldIntBinop, evalBinop, map_some, and_widthMask narrow]
    rw [BitVec.setWidth_mul _ _ narrow, truncated, truncated]
  case isub =>
    simp only [foldIntBinop, evalBinop, map_some, and_widthMask narrow]
    rw [BitVec.sub_eq_add_neg, setWidth_add _ _ narrow,
      BitVec.setWidth_neg_of_le narrow, truncated, truncated, ← BitVec.sub_eq_add_neg]
  case iand =>
    simp only [foldIntBinop, evalBinop, map_some, setWidth_and]
  case ior =>
    simp only [foldIntBinop, evalBinop, map_some, BitVec.setWidth_or]
  case ixor =>
    simp only [foldIntBinop, evalBinop, map_some, BitVec.setWidth_xor]
  case shl =>
    simp only [foldIntBinop, evalBinop, amount]
    split
    · rw [if_neg (by omega), map_none]
    · rw [if_pos (by omega), map_some, and_widthMask narrow]
      congr 2
      apply eq_of_toNat_eq
      rw [toNat_setWidth, toNat_shiftLeft, toNat_shiftLeft,
        toNat_setWidth_word narrow, mod_mod_of_dvd _ (Nat.pow_dvd_pow 2 narrow)]
  case lshr =>
    simp only [foldIntBinop, evalBinop, amount]
    split
    · rw [if_neg (by omega), map_none]
    · rw [if_pos (by omega), map_some]
      congr 1
      apply eq_of_toNat_eq
      rw [BitVec.toNat_ushiftRight, toNat_setWidth_word narrow, toNat_setWidth_word narrow,
        BitVec.toNat_ushiftRight]
  case ashr =>
    simp only [foldIntBinop, evalBinop, amount, signed]
    split
    · rw [if_neg (by omega), map_none]
    · rw [if_pos (by omega), map_some]
      congr 1
      apply masked_eq_of_toInt narrow
      rw [BitVec.toInt_sshiftRight, signedInt, ← BitVec.toInt_sshiftRight, BitVec.toInt_bmod_cancel]
  case udiv | urem =>
    simp only [foldIntBinop, evalBinop, isZero]
    split
    · rfl
    · rw [map_some]
      congr 1
      apply eq_of_toNat_eq
      simp only [toNat_udiv, toNat_umod, toNat_setWidth_word narrow]
  case sdiv =>
    simp only [foldIntBinop, evalBinop, signed, signedZero, overflow]
    split
    · rfl
    · rw [map_some]
      congr 1
      apply masked_eq_of_toInt narrow
      rw [toInt_sdiv, toInt_sdiv, signedInt, signedInt,
        Int.bmod_bmod_of_dvd (Nat.pow_dvd_pow 2 narrow)]
  case srem =>
    simp only [foldIntBinop, evalBinop, signed, signedZero, overflow]
    split
    · rfl
    · rw [map_some]
      congr 1
      apply masked_eq_of_toInt narrow
      rw [toInt_srem, signedInt, signedInt, ← toInt_srem, BitVec.toInt_bmod_cancel]
  all_goals rfl

theorem foldIcmp_eq {width : ℕ} (positive : 0 < width) (narrow : width ≤ 64)
    (cond : IntCond) (a b : BitVec width) :
    foldIcmp cond ⟨a.setWidth 64, width⟩ ⟨b.setWidth 64, width⟩ = evalCond cond a b := by
  have signed := signExtend_setWidth positive narrow
  have signedInt : ∀ bits : BitVec width, (bits.signExtend 64).toInt = bits.toInt :=
    fun bits => toInt_signExtend_of_le narrow
  have unsigned := toNat_setWidth_word narrow
  cases cond <;>
    simp only [foldIcmp, evalCond, signed, BitVec.slt_eq_decide, BitVec.sle_eq_decide,
      BitVec.ult_eq_decide, BitVec.ule_eq_decide, signedInt, unsigned]
  case eq =>
    rw [Bool.eq_iff_iff, beq_iff_eq, beq_iff_eq, setWidth_word_inj narrow]
  case ne =>
    rw [Bool.eq_iff_iff, bne_iff_ne, bne_iff_ne, ne_eq, setWidth_word_inj narrow]

/-- The operator with a constant on one side. -/
def evalWithConstant (op : Opcode) (onRight : Bool) {width : ℕ} (const x : BitVec width) :
    Option (BitVec width) :=
  if onRight then evalBinop op x const else evalBinop op const x

/-- An identity with a constant yields the other operand, or zero. -/
theorem simplifyWithConstant_eq {width : ℕ} (wide : 2 ≤ width) (narrow : width ≤ 64)
    {f : Function} {op : Opcode} {type : TypeId} {value : ValueId} {const : BitVec width}
    {onRight : Bool} {simplified : ValueId × Function}
    (found : simplifyWithConstant f op type value ⟨const.setWidth 64, width⟩ onRight =
      some simplified) :
    simplified = (value, f) ∧ (∀ x, evalWithConstant op onRight const x = some x) ∨
      simplified = f.constInt type 0 0 ∧ ∀ x, evalWithConstant op onRight const x = some 0 := by
  have one : (1 : BitVec width).toNat = 1 := BitVec.toNat_one (by omega)
  have isZero : const.setWidth 64 = 0 ↔ const = 0 := by
    have zero : (0 : BitVec width).setWidth 64 = 0 := by simp
    rw [← zero, setWidth_word_inj narrow]
  have isOne : const.setWidth 64 = 1 ↔ const = 1 := by
    have wordOne : (1 : BitVec width).setWidth 64 = 1 := by
      apply eq_of_toNat_eq
      rw [toNat_setWidth_word narrow, one]
      rfl
    rw [← wordOne, setWidth_word_inj narrow]
  have isAll : const.setWidth 64 = widthMask width → ∀ x : BitVec width, x &&& const = x := by
    intro all x
    rw [← setWidth_word_inj narrow, setWidth_and, all, setWidth_and_widthMask narrow]
  have oneNonzero : (1 : BitVec width) ≠ 0 := by
    intro same
    have numbers := congrArg BitVec.toNat same
    rw [one] at numbers
    simp at numbers
  have oneNotMinus : (1 : BitVec width) ≠ -1 := by
    intro same
    have numbers := congrArg BitVec.toNat same
    have all : (-1 : BitVec width) = allOnes width := BitVec.neg_one_eq_allOnes
    rw [all, one, BitVec.toNat_allOnes] at numbers
    have large : 2 ^ 2 ≤ 2 ^ width := Nat.pow_le_pow_right (by omega) wide
    omega
  have positive : 0 < width := by omega
  cases op <;> simp only [simplifyWithConstant, isZero, isOne] at found
  case iadd | ixor | ior =>
    split at found
    · cases found
      subst const
      left
      refine ⟨rfl, fun x => ?_⟩
      cases onRight <;> simp [evalWithConstant, evalBinop]
    · cases found
  case isub | shl | lshr | ashr =>
    split at found
    · rename_i both
      cases found
      obtain ⟨zero, right⟩ := both
      subst const
      left
      refine ⟨rfl, fun x => ?_⟩
      simp [evalWithConstant, evalBinop, right, positive]
    · cases found
  case imul =>
    split at found
    · cases found
      subst const
      left
      refine ⟨rfl, fun x => ?_⟩
      cases onRight <;> simp [evalWithConstant, evalBinop]
    split at found
    · cases found
      subst const
      right
      refine ⟨rfl, fun x => ?_⟩
      cases onRight <;> simp [evalWithConstant, evalBinop]
    · cases found
  case iand =>
    split at found
    · rename_i all
      cases found
      left
      refine ⟨rfl, fun x => ?_⟩
      cases onRight with
      | true => simp [evalWithConstant, evalBinop, isAll all x]
      | false => simp [evalWithConstant, evalBinop, BitVec.and_comm const x, isAll all x]
    split at found
    · cases found
      subst const
      right
      refine ⟨rfl, fun x => ?_⟩
      cases onRight <;> simp [evalWithConstant, evalBinop]
    · cases found
  case udiv | sdiv =>
    split at found
    · rename_i both
      cases found
      obtain ⟨isOne, right⟩ := both
      subst const
      left
      refine ⟨rfl, fun x => ?_⟩
      simp only [evalWithConstant, right, if_true, evalBinop, oneNonzero, oneNotMinus,
        and_false, or_self, if_false]
      exact congrArg some (by first | exact BitVec.udiv_one | exact BitVec.sdiv_one)
    · cases found
  all_goals cases found

theorem evalCond_self (cond : IntCond) {width : ℕ} (a : BitVec width) :
    evalCond cond a a = reflexiveCond cond := by
  cases cond <;>
    simp [evalCond, reflexiveCond, BitVec.slt_eq_decide, BitVec.sle_eq_decide,
      BitVec.ult_eq_decide, BitVec.ule_eq_decide]

/-- Folding on 64-bit words agrees with the operations at every narrower width. -/
theorem folding_exact {width : ℕ} (positive : 0 < width) (narrow : width ≤ 64)
    (a b : BitVec width) :
    (∀ op, foldIntBinop op ⟨a.setWidth 64, width⟩ ⟨b.setWidth 64, width⟩ =
        (evalBinop op a b).map (·.setWidth 64)) ∧
      (∀ cond, foldIcmp cond ⟨a.setWidth 64, width⟩ ⟨b.setWidth 64, width⟩ = evalCond cond a b) ∧
      ∀ cond, evalCond cond a a = reflexiveCond cond :=
  ⟨fun op => foldIntBinop_eq positive narrow op a b,
    fun cond => foldIcmp_eq positive narrow cond a b, fun cond => evalCond_self cond a⟩

theorem folding_exact_byte : foldIntBinop .sdiv ⟨(128 : BitVec 8).setWidth 64, 8⟩
    ⟨(255 : BitVec 8).setWidth 64, 8⟩ = none :=
  (folding_exact (by decide) (by decide) 128 255).1 .sdiv

end Aburi.Air
