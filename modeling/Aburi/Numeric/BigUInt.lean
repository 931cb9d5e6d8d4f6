import Aburi.Lib.Words
import Aburi.Numeric.FloatingPoint

/-!
# Unsigned big integers

Numbers in 64-bit words without zeros at the top.  Shifts and the long division
bit by bit compute what their names say.
-/

namespace Aburi.Numeric

open Aburi.Lib Nat List
open Aburi.Lib.Words (Normalized normalize value)

structure BigUInt where
  words : List (BitVec 64)
  normalized : Normalized words

namespace BigUInt

def toNat (number : BigUInt) : ℕ := value number.words

/-- The words without the zeros at their top. -/
def ofWords (words : List (BitVec 64)) : BigUInt :=
  ⟨normalize words, Words.normalized_normalize words⟩

@[simp] theorem toNat_ofWords (words : List (BitVec 64)) : (ofWords words).toNat = value words :=
  Words.value_normalize words

/-- The constructor from a 128-bit word leaves out a high half of zeros, and a
low one with it. -/
def ofU128 (number : Word128) : BigUInt :=
  ofWords [number.setWidth 64, (number >>> 64).setWidth 64]

@[simp] theorem toNat_ofU128 (number : Word128) : (ofU128 number).toNat = number.toNat := by
  have small := number.isLt
  rw [ofU128, toNat_ofWords]
  simp only [Words.value_cons, Words.value_nil, BitVec.toNat_setWidth, BitVec.toNat_ushiftRight,
    shiftRight_eq_div_pow]
  omega

def isZero (number : BigUInt) : Bool := number.words.isEmpty

theorem isZero_iff (number : BigUInt) : number.isZero = true ↔ number.toNat = 0 := by
  rw [isZero, List.isEmpty_iff]
  constructor
  · intro empty
    rw [toNat, empty, Words.value_nil]
  · intro zero
    by_contra nonempty
    have filled := number.normalized.le_value nonempty
    have power := Nat.two_pow_pos (64 * (number.words.length - 1))
    rw [toNat] at zero
    omega

/-- The width of the top word stands for counting its leading zeros. -/
def bitWidth (number : BigUInt) : ℕ :=
  match number.words.getLast? with
  | none => 0
  | some top => (number.words.length - 1) * 64 + top.toNat.size

theorem size_add_mul {low high count : ℕ} (small : low < 2 ^ count) (positive : 0 < high) :
    (low + 2 ^ count * high).size = count + high.size := by
  have sizePos := Nat.size_pos.mpr positive
  have lower : 2 ^ (high.size - 1) ≤ high := Nat.lt_size.mp (by omega)
  have upper := lt_size_self high
  apply le_antisymm
  · apply Nat.size_le.mpr
    have step := Nat.mul_le_mul_left (2 ^ count) (succ_le_of_lt upper)
    rw [mul_succ] at step
    rw [pow_add]
    omega
  · have step := Nat.mul_le_mul_left (2 ^ count) lower
    rw [← pow_add] at step
    have last : count + (high.size - 1) < (low + 2 ^ count * high).size :=
      Nat.lt_size.mpr (by omega)
    omega

theorem bitWidth_eq (number : BigUInt) : number.bitWidth = number.toNat.size := by
  obtain ⟨words, normalized⟩ := number
  rw [bitWidth, toNat]
  cases isLast : words.getLast? with
  | none =>
    rw [getLast?_eq_none_iff] at isLast
    subst isLast
    simp
  | some top =>
    have nonzero := normalized top isLast
    obtain ⟨front, rfl⟩ := List.getLast?_eq_some_iff.mp isLast
    have positive : 0 < top.toNat := by
      rw [Ne, BitVec.toNat_eq] at nonzero
      exact Nat.pos_of_ne_zero nonzero
    have low := Words.value_lt front
    dsimp only
    rw [Words.value_append, Words.value_cons, Words.value_nil, Nat.mul_zero, Nat.add_zero,
      size_add_mul low positive, length_append, length_singleton,
      Nat.add_sub_cancel, Nat.mul_comm]

def compare (left right : BigUInt) : Ordering := Words.compareWords left.words right.words

theorem compare_eq (left right : BigUInt) :
    left.compare right = Ord.compare left.toNat right.toNat :=
  Words.compareWords_eq left.normalized right.normalized

def shiftedLeft (number : BigUInt) (bits : ℕ) : BigUInt :=
  if number.isZero || bits == 0 then number
  else
    let whole := bits / 64
    let part := bits % 64
    ofWords (replicate whole 0 ++ Words.shiftLeftFrom part 0 number.words)

@[simp] theorem toNat_shiftedLeft (number : BigUInt) (bits : ℕ) :
    (number.shiftedLeft bits).toNat = number.toNat * 2 ^ bits := by
  rw [shiftedLeft]
  split
  case isTrue trivial =>
    rw [Bool.or_eq_true, isZero_iff, beq_iff_eq] at trivial
    rcases trivial with zero | none
    · rw [zero, Nat.zero_mul]
    · rw [none, pow_zero, Nat.mul_one]
  case isFalse =>
    have place := div_add_mod bits 64
    have carry : (0 : BitVec 64).toNat < 2 ^ (bits % 64) := Nat.two_pow_pos _
    rw [toNat_ofWords, Words.value_append, Words.value_replicate, length_replicate,
      Words.value_shiftLeftFrom (mod_lt _ (by norm_num)) _ carry, Nat.zero_add]
    conv_rhs => rw [← place, pow_add]
    rw [toNat]
    show _ * (_ + 0) = _
    ring

/-- The shifted number and whether a bit that is not zero fell out. -/
def shiftedRight (number : BigUInt) (bits : ℕ) : BigUInt × Bool :=
  if number.isZero || bits == 0 then (number, false)
  else
    let whole := bits / 64
    let part := bits % 64
    let discarded :=
      (number.words.take whole).any (· != 0) ||
        (part != 0 && decide (whole < number.words.length) &&
          number.words.getD whole 0 &&& ((1 : BitVec 64) <<< part - 1) != 0)
    if number.words.length ≤ whole then (ofWords [], discarded)
    else (ofWords (Words.shiftRightFrom part (number.words.drop whole)), discarded)

theorem toNat_shiftedRight (number : BigUInt) (bits : ℕ) :
    (number.shiftedRight bits).1.toNat = number.toNat / 2 ^ bits := by
  rw [shiftedRight]
  split
  case isTrue trivial =>
    rw [Bool.or_eq_true, isZero_iff, beq_iff_eq] at trivial
    rcases trivial with zero | none
    · rw [zero, Nat.zero_div]
    · rw [none, pow_zero, Nat.div_one]
  case isFalse =>
    have place := div_add_mod bits 64
    dsimp only
    split
    case isTrue short =>
      have small := Words.value_lt number.words
      rw [toNat_ofWords, Words.value_nil, div_eq_of_lt]
      refine small.trans_le (Nat.pow_le_pow_right (by norm_num) ?_)
      omega
    case isFalse long =>
      rw [toNat_ofWords, Words.value_shiftRightFrom (mod_lt _ (by norm_num)),
        Words.value_drop, Nat.div_div_eq_div_mul, ← pow_add, place]
      rfl

theorem shiftedRight_discarded (number : BigUInt) (bits : ℕ) :
    (number.shiftedRight bits).2 = true ↔ number.toNat % 2 ^ bits ≠ 0 := by
  rw [shiftedRight]
  split
  case isTrue trivial =>
    rw [Bool.or_eq_true, isZero_iff, beq_iff_eq] at trivial
    rcases trivial with zero | none
    · simp [zero]
    · simp [none, mod_one]
  case isFalse =>
    have place := div_add_mod bits 64
    have partLt := mod_lt bits (by norm_num : 0 < 64)
    have split := Words.value_split number.words (bits / 64)
    have lowLt : value (number.words.take (bits / 64)) < 2 ^ (64 * (bits / 64)) := by
      refine (Words.value_lt _).trans_le (Nat.pow_le_pow_right (by norm_num) ?_)
      exact Nat.mul_le_mul_left _ (length_take_le _ _)
    have isMod : number.toNat % 2 ^ bits = value (number.words.take (bits / 64)) +
        2 ^ (64 * (bits / 64)) * (value (number.words.drop (bits / 64)) % 2 ^ (bits % 64)) := by
      conv_lhs => rw [← place, pow_add, mod_mul, toNat, split]
      rw [add_mul_mod_self_left, mod_eq_of_lt lowLt,
        add_mul_div_left _ _ (Nat.two_pow_pos _), div_eq_of_lt lowLt, Nat.zero_add]
    have low : (number.words.take (bits / 64)).any (· != 0) = true ↔
        value (number.words.take (bits / 64)) ≠ 0 := by
      rw [Ne, Words.value_eq_zero_iff]
      simp
    have high : (bits % 64 != 0 && decide (bits / 64 < number.words.length) &&
        number.words.getD (bits / 64) 0 &&& ((1 : BitVec 64) <<< (bits % 64) - 1) != 0) = true ↔
          value (number.words.drop (bits / 64)) % 2 ^ (bits % 64) ≠ 0 := by
      by_cases inside : bits / 64 < number.words.length
      · have isWord : number.words.getD (bits / 64) 0 = number.words[bits / 64] :=
          by simp [getD, inside]
        have multiple : 2 ^ 64 = 2 ^ (bits % 64) * 2 ^ (64 - bits % 64) := by
          rw [← pow_add]
          congr 1
          omega
        have isDrop : value (number.words.drop (bits / 64)) % 2 ^ (bits % 64) =
            number.words[bits / 64].toNat % 2 ^ (bits % 64) := by
          rw [drop_eq_getElem_cons inside, Words.value_cons, multiple, Nat.mul_assoc,
            add_mul_mod_self_left]
        have isMask : (number.words[bits / 64] &&&
            ((1 : BitVec 64) <<< (bits % 64) - 1)).toNat =
            number.words[bits / 64].toNat % 2 ^ (bits % 64) := by
          have small : 2 ^ (bits % 64) < 2 ^ 64 := Nat.pow_lt_pow_right (by norm_num) partLt
          have shifted : ((1 : BitVec 64) <<< (bits % 64)).toNat = 2 ^ (bits % 64) := by
            have isOne : (1 : BitVec 64).toNat = 1 := rfl
            rw [BitVec.toNat_shiftLeft, isOne, shiftLeft_eq, Nat.one_mul,
              mod_eq_of_lt small]
          have mask : ((1 : BitVec 64) <<< (bits % 64) - 1).toNat = 2 ^ (bits % 64) - 1 := by
            have positive := Nat.two_pow_pos (bits % 64)
            rw [BitVec.toNat_sub_of_le, shifted]
            · rfl
            · rw [BitVec.le_def, shifted]
              exact positive
          rw [BitVec.toNat_and, mask, and_two_pow_sub_one_eq_mod]
        rw [isDrop, isWord, ← isMask]
        simp only [inside, decide_true, Bool.and_true, Bool.and_eq_true, bne_iff_ne, Ne,
          BitVec.toNat_eq (x := _ &&& _)]
        constructor
        · exact fun both => both.2
        · intro nonzero
          refine ⟨?_, nonzero⟩
          intro whole
          apply nonzero
          rw [isMask, whole, pow_zero, mod_one]
      · rw [drop_eq_nil_of_le (by omega)]
        simp [inside]
    have power := Nat.two_pow_pos (64 * (bits / 64))
    dsimp only
    rw [isMod, apply_ite Prod.snd, ite_self, Bool.or_eq_true, low, high, ← not_and_or, Ne,
      not_iff_not, Nat.add_eq_zero_iff, Nat.mul_eq_zero, or_iff_right power.ne']

def shiftRightOne (number : BigUInt) : BigUInt := ofWords (Words.shiftRightOne number.words).1

@[simp] theorem toNat_shiftRightOne (number : BigUInt) :
    number.shiftRightOne.toNat = number.toNat / 2 := by
  rw [shiftRightOne, toNat_ofWords, Words.shiftRightOne_eq,
    Words.value_shiftRightFrom (by norm_num), pow_one]
  rfl

/-- The sums of the words and their carries fit in 128 bits, so they are natural
numbers here. -/
def addWords (words others : List (BitVec 64)) : List (BitVec 64) :=
  let size := max words.length others.length
  Words.multiplyAddFrom 1 0 (words ++ replicate (size - words.length) 0) others

theorem value_addWords (words others : List (BitVec 64)) :
    value (addWords words others) = value words + value others := by
  rw [addWords, Words.value_multiplyAddFrom (by norm_num) (Nat.two_pow_pos _),
    Words.value_append, Words.value_replicate]
  ring

theorem addWords_normalized (number other : BigUInt) :
    Normalized (addWords number.words other.words) := by
  have isSum := value_addWords number.words other.words
  rcases Nat.lt_or_ge (max number.words.length other.words.length)
    (addWords number.words other.words).length with longer | fits
  · apply Words.multiplyAddFrom_normalized (by norm_num) (Nat.two_pow_pos _)
    · rw [length_append, length_replicate]
      exact (Nat.le_of_eq (by omega)).trans_lt longer
    · exact (Nat.le_max_right _ _).trans_lt longer
  · rcases Nat.le_total number.words.length other.words.length with shorter | atMost
    · rw [Nat.max_eq_right shorter] at fits
      exact other.normalized.of_le fits (by omega)
    · rw [Nat.max_eq_left atMost] at fits
      exact number.normalized.of_le fits (by omega)

def add (number other : BigUInt) : BigUInt :=
  ⟨addWords number.words other.words, addWords_normalized number other⟩

@[simp] theorem toNat_add (number other : BigUInt) :
    (number.add other).toNat = number.toNat + other.toNat :=
  value_addWords number.words other.words

theorem carryFrom_normalized (number : BigUInt) {carry : ℕ} (small : carry < 2 ^ 64) :
    Normalized (Words.carryFrom carry number.words) := by
  rcases Nat.lt_or_ge number.words.length (Words.carryFrom carry number.words).length with
    longer | fits
  · exact Words.carryFrom_normalized small longer
  · refine number.normalized.of_le fits ?_
    rw [Words.value_carryFrom small]
    exact Nat.le_add_right _ _

theorem fits_word (small : BitVec 32) : small.toNat < 2 ^ 64 := small.isLt.trans (by decide)

def addSmall (number : BigUInt) (small : BitVec 32) : BigUInt :=
  ⟨Words.carryFrom small.toNat number.words,
    number.carryFrom_normalized (fits_word small)⟩

@[simp] theorem toNat_addSmall (number : BigUInt) (small : BitVec 32) :
    (number.addSmall small).toNat = number.toNat + small.toNat :=
  Words.value_carryFrom (fits_word small) number.words

theorem multiplySmall_normalized (number : BigUInt) {small : BitVec 32} (nonzero : small ≠ 0) :
    Normalized (Words.multiplyAddFrom small.toNat 0 number.words []) := by
  have inside : small.toNat < 2 ^ 64 := fits_word small
  have positive : 0 < small.toNat := by
    rw [Ne, BitVec.toNat_eq] at nonzero
    exact Nat.pos_of_ne_zero nonzero
  rcases Nat.lt_or_ge number.words.length
    (Words.multiplyAddFrom small.toNat 0 number.words []).length with longer | fits
  · exact Words.multiplyAddFrom_normalized inside (Nat.two_pow_pos _) longer
      (Nat.zero_le _ |>.trans_lt longer)
  · refine number.normalized.of_le fits ?_
    rw [Words.value_multiplyAddFrom inside (Nat.two_pow_pos _)]
    exact Nat.le_mul_of_pos_left _ positive

def multiplySmall (number : BigUInt) (small : BitVec 32) : BigUInt :=
  if nonzero : small ≠ 0 ∧ number.isZero = false then
    ⟨Words.multiplyAddFrom small.toNat 0 number.words [],
      number.multiplySmall_normalized nonzero.1⟩
  else ofWords []

@[simp] theorem toNat_multiplySmall (number : BigUInt) (small : BitVec 32) :
    (number.multiplySmall small).toNat = number.toNat * small.toNat := by
  rw [multiplySmall]
  split
  case isTrue =>
    rw [toNat, Words.value_multiplyAddFrom (fits_word small) (Nat.two_pow_pos _),
      Words.value_nil, Nat.mul_comm]
    rfl
  case isFalse trivial =>
    rw [not_and_or, not_not, Bool.not_eq_false, isZero_iff] at trivial
    rw [toNat_ofWords, Words.value_nil]
    rcases trivial with zero | zero
    · rw [zero]
      rfl
    · rw [zero, Nat.zero_mul]

def multiply (left right : BigUInt) : BigUInt :=
  if left.isZero || right.isZero then ofWords []
  else
    let out := replicate (left.words.length + right.words.length) 0
    ofWords (Words.multiplyRows right.words left.words out)

@[simp] theorem toNat_multiply (left right : BigUInt) :
    (left.multiply right).toNat = left.toNat * right.toNat := by
  rw [multiply]
  split
  case isTrue trivial =>
    rw [Bool.or_eq_true, isZero_iff, isZero_iff] at trivial
    rw [toNat_ofWords, Words.value_nil]
    rcases trivial with zero | zero
    · rw [zero, Nat.zero_mul]
    · rw [zero, Nat.mul_zero]
  case isFalse =>
    rw [toNat_ofWords, Words.value_multiplyRows, Words.value_replicate, Nat.zero_add]
    rfl

def subtract (number other : BigUInt) : BigUInt :=
  ofWords (Words.subtractFrom false number.words other.words)

theorem toNat_subtract {number other : BigUInt} (atMost : other.toNat ≤ number.toNat) :
    (number.subtract other).toNat = number.toNat - other.toNat := by
  have sum := @Words.value_subtractFrom 64 (by norm_num) false number.words other.words atMost
  rw [Bool.toNat_false, Nat.add_zero] at sum
  rw [subtract, toNat_ofWords, toNat, toNat, ← sum, Nat.add_sub_cancel]

/-- Long division with `count` bits of the quotient still to come. -/
def divmodLoop : ℕ → BigUInt → BigUInt → List (BitVec 64) → List (BitVec 64) × BigUInt
  | 0, numerator, _, quotient => (quotient, numerator)
  | index + 1, numerator, shifted, quotient =>
    let fits := numerator.compare shifted != .lt
    let nextNumerator := if fits then numerator.subtract shifted else numerator
    let nextQuotient := if fits then Words.setBit quotient index else quotient
    let nextShifted := if index ≠ 0 then shifted.shiftRightOne else shifted
    divmodLoop index nextNumerator nextShifted nextQuotient

def divmod (numerator denominator : BigUInt) : BigUInt × BigUInt :=
  if denominator.isZero || numerator.compare denominator == .lt then (ofWords [], numerator)
  else
    let shift := numerator.bitWidth - denominator.bitWidth
    let (quotient, remainder) :=
      divmodLoop (shift + 1) numerator (denominator.shiftedLeft shift) []
    (ofWords quotient, ofWords remainder.words)

/-- Each bit of the quotient takes its share from the numerator. -/
theorem divmodLoop_spec {denominator count : ℕ} {numerator shifted : BigUInt}
    {quotient : List (BitVec 64)} (isShifted : ∀ index, count = index + 1 →
      shifted.toNat = denominator * 2 ^ index)
    (small : numerator.toNat < denominator * 2 ^ count) (clear : value quotient % 2 ^ count = 0) :
    let result := divmodLoop count numerator shifted quotient
    result.2.toNat < denominator ∧
      value result.1 * denominator + result.2.toNat =
        value quotient * denominator + numerator.toNat := by
  induction count generalizing numerator shifted quotient with
  | zero =>
    rw [pow_zero, Nat.mul_one] at small
    exact ⟨small, rfl⟩
  | succ index ih =>
    have isMultiple := isShifted index rfl
    have fits : (numerator.compare shifted != .lt) = true ↔ shifted.toNat ≤ numerator.toNat := by
      rw [compare_eq, bne_iff_ne, Ne, compare_lt_iff_lt, not_lt]
    have next : ∀ before, index = before + 1 →
        (if index ≠ 0 then shifted.shiftRightOne else shifted).toNat =
          denominator * 2 ^ before := by
      rintro before rfl
      rw [if_pos (succ_ne_zero _), toNat_shiftRightOne, isMultiple, pow_succ,
        ← Nat.mul_assoc, Nat.mul_div_cancel _ (by norm_num)]
    have halved : value quotient % 2 ^ index = 0 := by
      apply mod_eq_zero_of_dvd
      exact (Dvd.intro _ (pow_succ 2 index).symm).trans (dvd_of_mod_eq_zero clear)
    rw [pow_succ, ← Nat.mul_assoc] at small
    simp only [divmodLoop]
    split
    case isTrue taken =>
      rw [fits] at taken
      have isRest := toNat_subtract taken
      have isSet := Words.value_setBit (by norm_num) quotient clear
      have rest := @ih (numerator.subtract shifted) _ (Words.setBit quotient index)
        next (by rw [isRest]; omega)
        (by rw [isSet, add_mod_right]; exact halved)
      refine ⟨rest.1, rest.2.trans ?_⟩
      rw [isSet, isRest, Nat.add_mul, Nat.mul_comm (2 ^ index), ← isMultiple]
      omega
    case isFalse stays =>
      rw [fits] at stays
      exact @ih numerator _ quotient next (by omega) halved

theorem divmod_spec (numerator denominator : BigUInt) :
    (divmod numerator denominator).1.toNat = numerator.toNat / denominator.toNat ∧
      (divmod numerator denominator).2.toNat = numerator.toNat % denominator.toNat := by
  rw [divmod]
  split
  case isTrue trivial =>
    rw [Bool.or_eq_true, isZero_iff, beq_iff_eq, compare_eq, compare_lt_iff_lt] at trivial
    rw [toNat_ofWords, Words.value_nil]
    rcases trivial with zero | less
    · rw [zero, Nat.div_zero, mod_zero]
      exact ⟨rfl, rfl⟩
    · rw [div_eq_of_lt less, mod_eq_of_lt less]
      exact ⟨rfl, rfl⟩
  case isFalse proper =>
    rw [Bool.or_eq_true, isZero_iff, beq_iff_eq, compare_eq, compare_lt_iff_lt, not_or,
      not_lt] at proper
    obtain ⟨nonzero, atMost⟩ := proper
    have positive := Nat.pos_of_ne_zero nonzero
    have sizes := size_le_size atMost
    dsimp only
    rw [bitWidth_eq, bitWidth_eq]
    generalize isShift : numerator.toNat.size - denominator.toNat.size = shift
    have lower : 2 ^ (denominator.toNat.size - 1) ≤ denominator.toNat := by
      have := Nat.size_pos.mpr positive
      exact Nat.lt_size.mp (by omega)
    have small : numerator.toNat < denominator.toNat * 2 ^ (shift + 1) := by
      have step := Nat.mul_le_mul_right (2 ^ (shift + 1)) lower
      rw [← pow_add] at step
      have sizePos := Nat.size_pos.mpr positive
      have isSize : denominator.toNat.size - 1 + (shift + 1) = numerator.toNat.size := by omega
      rw [isSize] at step
      exact (lt_size_self _).trans_le step
    have divides := @divmodLoop_spec denominator.toNat (shift + 1) numerator
      (denominator.shiftedLeft shift) []
      (by rintro index same; rw [toNat_shiftedLeft, Nat.succ.inj same]) small (zero_mod _)
    dsimp only at divides
    generalize divmodLoop (shift + 1) numerator (denominator.shiftedLeft shift) [] = result
      at divides ⊢
    obtain ⟨below, sum⟩ := divides
    rw [Words.value_nil, Nat.zero_mul, Nat.zero_add] at sum
    rw [toNat_ofWords, toNat_ofWords, ← sum, Nat.mul_comm, mul_add_mod,
      mul_add_div positive]
    have isRemainder : value result.2.words = result.2.toNat := rfl
    rw [isRemainder, div_eq_of_lt below, mod_eq_of_lt below]
    exact ⟨Nat.add_zero _, rfl⟩

/-- The two lowest words. -/
def toU128 (number : BigUInt) : Word128 :=
  let low := (number.words.getD 0 0).setWidth 128
  if 1 < number.words.length then low ||| (number.words.getD 1 0).setWidth 128 <<< 64 else low

theorem toNat_toU128 (number : BigUInt) : number.toU128.toNat = number.toNat % 2 ^ 128 := by
  obtain ⟨words, normalized⟩ := number
  rw [toU128, toNat]
  match words with
  | [] => rfl
  | [low] =>
    simp
  | low :: high :: rest =>
    have lowLt := low.isLt
    have isLow : (low.setWidth 128).toNat < 2 ^ 64 := by
      rw [BitVec.toNat_setWidth]
      omega
    have inside : 1 < (low :: high :: rest).length := by simp
    dsimp only
    rw [if_pos inside]
    simp only [getD_cons_zero, getD_cons_succ]
    have fits : 64 ≤ 128 := by decide
    rw [BitVec.or_comm, Words.toNat_shiftLeft_or fits _ isLow]
    simp only [Words.value_cons, BitVec.toNat_setWidth]
    omega

/-- The operations on words are those on numbers, a divisor of zero and shifts by any
count included; every result is without a zero word at its top, as its type says. -/
theorem operations_exact (left right : BigUInt) (small : BitVec 32) (bits : ℕ) :
    (left.isZero = true ↔ left.toNat = 0) ∧
      left.compare right = Ord.compare left.toNat right.toNat ∧
      left.bitWidth = left.toNat.size ∧
      (left.add right).toNat = left.toNat + right.toNat ∧
      (left.addSmall small).toNat = left.toNat + small.toNat ∧
      (left.multiplySmall small).toNat = left.toNat * small.toNat ∧
      (left.multiply right).toNat = left.toNat * right.toNat ∧
      (right.toNat ≤ left.toNat → (left.subtract right).toNat = left.toNat - right.toNat) ∧
      (left.shiftedLeft bits).toNat = left.toNat * 2 ^ bits ∧
      (left.shiftedRight bits).1.toNat = left.toNat / 2 ^ bits ∧
      ((left.shiftedRight bits).2 = true ↔ left.toNat % 2 ^ bits ≠ 0) ∧
      (divmod left right).1.toNat = left.toNat / right.toNat ∧
      (divmod left right).2.toNat = left.toNat % right.toNat ∧
      left.toU128.toNat = left.toNat % 2 ^ 128 :=
  ⟨isZero_iff left, compare_eq left right, bitWidth_eq left, toNat_add left right,
    toNat_addSmall left small, toNat_multiplySmall left small, toNat_multiply left right,
    toNat_subtract, toNat_shiftedLeft left bits, toNat_shiftedRight left bits, shiftedRight_discarded left bits,
    (divmod_spec left right).1, (divmod_spec left right).2, toNat_toU128 left⟩

end BigUInt

end Aburi.Numeric
