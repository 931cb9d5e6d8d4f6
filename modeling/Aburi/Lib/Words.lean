import Mathlib.Data.List.DropRight
import Mathlib.Data.Nat.Size
import Mathlib.Tactic.Ring

/-!
# Numbers as lists of words

The words of a number, the lowest first.  Each operation on words is an
operation on the number they stand for.
-/

namespace Aburi.Lib.Words

open List Bool
open BitVec hiding lt_trichotomy

variable {width : ℕ}

def value : List (BitVec width) → ℕ
  | [] => 0
  | word :: words => word.toNat + 2 ^ width * value words

@[simp] theorem value_nil : value ([] : List (BitVec width)) = 0 := rfl

@[simp] theorem value_cons (word : BitVec width) (words : List (BitVec width)) :
    value (word :: words) = word.toNat + 2 ^ width * value words := rfl

theorem value_append (low high : List (BitVec width)) :
    value (low ++ high) = value low + 2 ^ (width * low.length) * value high := by
  induction low with
  | nil => simp
  | cons word words ih =>
    rw [List.cons_append, value_cons, value_cons, ih, length_cons, Nat.mul_succ, pow_add]
    ring

@[simp] theorem value_replicate (count : ℕ) :
    value (List.replicate count (0 : BitVec width)) = 0 := by
  induction count with
  | zero => rfl
  | succ count ih =>
    rw [List.replicate_succ, value_cons, ih]
    rfl

theorem value_lt (words : List (BitVec width)) : value words < 2 ^ (width * words.length) := by
  induction words with
  | nil => simp
  | cons word words ih =>
    have low := word.isLt
    have step : 2 ^ width * (value words + 1) ≤ 2 ^ width * 2 ^ (width * words.length) :=
      Nat.mul_le_mul_left _ ih
    rw [Nat.mul_succ] at step
    rw [value_cons, length_cons, Nat.mul_succ, pow_add, Nat.mul_comm (2 ^ (_ * _))]
    omega

/-- The words below and from a position on are the number's remainder and quotient. -/
theorem value_split (words : List (BitVec width)) (count : ℕ) :
    value words = value (words.take count) + 2 ^ (width * count) * value (words.drop count) := by
  by_cases inside : count ≤ words.length
  · conv_lhs => rw [← take_append_drop count words]
    rw [value_append, length_take, Nat.min_eq_left inside]
  · rw [take_of_length_le (by omega), drop_eq_nil_of_le (by omega)]
    simp

theorem value_drop (words : List (BitVec width)) (count : ℕ) :
    value (words.drop count) = value words / 2 ^ (width * count) := by
  have low : value (words.take count) < 2 ^ (width * count) := by
    refine (value_lt _).trans_le (Nat.pow_le_pow_right (by norm_num) (Nat.mul_le_mul_left _ ?_))
    exact length_take_le count words
  rw [value_split words count, Nat.add_mul_div_left _ _ (Nat.two_pow_pos _),
    Nat.div_eq_of_lt low, Nat.zero_add]

theorem value_eq_zero_iff {words : List (BitVec width)} :
    value words = 0 ↔ ∀ word ∈ words, word = 0 := by
  induction words with
  | nil => simp
  | cons word words ih =>
    rw [value_cons, forall_mem_cons, ← ih, Nat.add_eq_zero_iff, Nat.mul_eq_zero, toNat_eq]
    simp

/-- The highest word is not zero. -/
def Normalized (words : List (BitVec width)) : Prop :=
  ∀ top ∈ words.getLast?, top ≠ 0

def normalize (words : List (BitVec width)) : List (BitVec width) :=
  words.rdropWhile (· == 0)

theorem normalized_normalize (words : List (BitVec width)) : Normalized (normalize words) := by
  intro top member
  rw [Option.mem_def, getLast?_eq_some_iff] at member
  obtain ⟨front, isLast⟩ := member
  have dropped : words.rdropWhile (· == 0) = front ++ [top] := isLast
  have nonempty : words.rdropWhile (· == 0) ≠ [] := by
    rw [dropped]
    exact concat_ne_nil _ _
  have last := rdropWhile_last_not _ _ nonempty
  simp only [dropped, getLast_append_singleton] at last
  simpa using last

@[simp] theorem value_normalize (words : List (BitVec width)) :
    value (normalize words) = value words := by
  induction words using List.reverseRecOn with
  | nil => rfl
  | append_singleton front top ih =>
    by_cases isZero : top = 0
    · rw [normalize, rdropWhile_concat_pos _ _ _ (by simpa using isZero), ← normalize,
        ih, value_append, isZero]
      simp
    · have keeps : normalize (front ++ [top]) = front ++ [top] :=
        rdropWhile_concat_neg _ _ _ (by simpa using isZero)
      rw [keeps]

theorem Normalized.tail {word : BitVec width} {words : List (BitVec width)}
    (normalized : Normalized (word :: words)) : Normalized words := by
  intro top member
  cases words with
  | nil => cases member
  | cons next words =>
    apply normalized
    rwa [getLast?_cons_cons]

/-- A normalized number fills its words. -/
theorem Normalized.le_value {words : List (BitVec width)} (normalized : Normalized words)
    (nonempty : words ≠ []) : 2 ^ (width * (words.length - 1)) ≤ value words := by
  induction words with
  | nil => exact absurd rfl nonempty
  | cons word words ih =>
    cases words with
    | nil =>
      have nonzero : word.toNat ≠ 0 := by
        have := normalized word rfl
        rwa [Ne, toNat_eq] at this
      simp only [length_singleton, Nat.sub_self, Nat.mul_zero, pow_zero, value_cons]
      omega
    | cons next words =>
      have rest := ih normalized.tail (by simp)
      have step := Nat.mul_le_mul_left (2 ^ width) rest
      simp only [length_cons, Nat.add_sub_cancel] at rest step ⊢
      rw [value_cons, Nat.mul_succ, pow_add, Nat.mul_comm (2 ^ (_ * _))]
      omega

variable {left right : List (BitVec width)}

theorem Normalized.length_lt (normalized : Normalized right) (shorter : left.length < right.length) :
    value left < value right := by
  have nonempty : right ≠ [] := by
    rintro rfl
    exact absurd shorter (Nat.not_lt_zero _)
  refine (value_lt left).trans_le (le_trans ?_ (normalized.le_value nonempty))
  exact Nat.pow_le_pow_right (by norm_num) (Nat.mul_le_mul_left _ (by omega))

/-- The highest words that differ decide. -/
def compareTop : List (BitVec width) → List (BitVec width) → Ordering
  | left :: lefts, right :: rights =>
    match compareTop lefts rights with
    | .eq => compare left.toNat right.toNat
    | decided => decided
  | _, _ => .eq

def compareWords (left right : List (BitVec width)) : Ordering :=
  if left.length ≠ right.length then
    if left.length < right.length then .lt else .gt
  else compareTop left right

theorem compareTop_eq (sameLength : left.length = right.length) :
    compareTop left right = compare (value left) (value right) := by
  induction left generalizing right with
  | nil =>
    cases right with
    | nil => rfl
    | cons word words => cases sameLength
  | cons word words ih =>
    cases right with
    | nil => cases sameLength
    | cons other others =>
      have low := word.isLt
      have otherLow := other.isLt
      have rest := ih (Nat.succ.inj sameLength)
      rw [compareTop, rest, value_cons, value_cons]
      rcases lt_trichotomy (value words) (value others) with less | same | more
      · have step := Nat.mul_le_mul_left (2 ^ width) (Nat.succ_le_of_lt less)
        rw [Nat.mul_succ] at step
        have total : word.toNat + 2 ^ width * value words <
            other.toNat + 2 ^ width * value others := by omega
        rw [compare_lt_iff_lt.mpr less, compare_lt_iff_lt.mpr total]
      · rw [compare_eq_iff_eq.mpr same, same]
        rcases lt_trichotomy word.toNat other.toNat with low | equal | high
        · rw [compare_lt_iff_lt.mpr low, compare_lt_iff_lt.mpr (Nat.add_lt_add_right low _)]
        · rw [equal, compare_eq_iff_eq.mpr rfl, compare_eq_iff_eq.mpr rfl]
        · rw [compare_gt_iff_gt.mpr high, compare_gt_iff_gt.mpr (Nat.add_lt_add_right high _)]
      · have step := Nat.mul_le_mul_left (2 ^ width) (Nat.succ_le_of_lt more)
        rw [Nat.mul_succ] at step
        have total : other.toNat + 2 ^ width * value others <
            word.toNat + 2 ^ width * value words := by omega
        rw [compare_gt_iff_gt.mpr more, compare_gt_iff_gt.mpr total]

theorem compareWords_eq (leftNormalized : Normalized left) (rightNormalized : Normalized right) :
    compareWords left right = compare (value left) (value right) := by
  rw [compareWords]
  split
  case isTrue differ =>
    split
    case isTrue shorter => exact (compare_lt_iff_lt.mpr (rightNormalized.length_lt shorter)).symm
    case isFalse longer =>
      exact (compare_gt_iff_gt.mpr (leftNormalized.length_lt (by omega))).symm
  case isFalse same => exact compareTop_eq (by omega)

/-- Shifts by less than a word, with the bits that come in from below. -/
def shiftLeftFrom (part : ℕ) (carry : BitVec width) :
    List (BitVec width) → List (BitVec width)
  | [] => if part ≠ 0 then [carry] else []
  | word :: words =>
    (word <<< part ||| carry) ::
      shiftLeftFrom part (if part ≠ 0 then word >>> (width - part) else 0) words

theorem toNat_shiftLeft_or {part : ℕ} (inside : part ≤ width) (word : BitVec width)
    {carry : BitVec width} (small : carry.toNat < 2 ^ part) :
    (word <<< part ||| carry).toNat = word.toNat % 2 ^ (width - part) * 2 ^ part + carry.toNat := by
  have isShifted : (word.toNat <<< part) % 2 ^ width =
      (word.toNat % 2 ^ (width - part)) <<< part := by
    obtain ⟨rest, rfl⟩ : ∃ rest, width = part + rest := ⟨width - part, by omega⟩
    rw [Nat.shiftLeft_eq, Nat.shiftLeft_eq, Nat.add_sub_cancel_left, pow_add, Nat.mul_comm,
      Nat.mul_mod_mul_left, Nat.mul_comm]
  rw [toNat_or, toNat_shiftLeft, isShifted, ← Nat.shiftLeft_add_eq_or_of_lt small, Nat.shiftLeft_eq]

theorem value_shiftLeftFrom {part : ℕ} (inside : part < width) (words : List (BitVec width))
    {carry : BitVec width} (small : carry.toNat < 2 ^ part) :
    value (shiftLeftFrom part carry words) = value words * 2 ^ part + carry.toNat := by
  induction words generalizing carry with
  | nil =>
    rw [shiftLeftFrom]
    split
    case isTrue => simp
    case isFalse whole =>
      have isWhole : part = 0 := by omega
      subst isWhole
      have : carry.toNat = 0 := by simpa using small
      simp [this]
  | cons word words ih =>
    have isCarry : (if part ≠ 0 then word >>> (width - part) else 0).toNat =
        word.toNat / 2 ^ (width - part) := by
      split
      case isTrue => rw [toNat_ushiftRight, Nat.shiftRight_eq_div_pow]
      case isFalse whole =>
        have isWhole : part = 0 := by omega
        subst isWhole
        exact (Nat.div_eq_of_lt word.isLt).symm
    have isWidth : 2 ^ (width - part) * 2 ^ part = 2 ^ width := by
      rw [← pow_add]
      congr 1
      omega
    have nextSmall : (if part ≠ 0 then word >>> (width - part) else 0).toNat < 2 ^ part := by
      rw [isCarry, Nat.div_lt_iff_lt_mul (Nat.two_pow_pos _), Nat.mul_comm, isWidth]
      exact word.isLt
    have isWord := Nat.div_add_mod word.toNat (2 ^ (width - part))
    rw [shiftLeftFrom, value_cons, ih nextSmall, isCarry,
      toNat_shiftLeft_or inside.le word small, value_cons, ← isWidth]
    generalize word.toNat / 2 ^ (width - part) = high at *
    generalize word.toNat % 2 ^ (width - part) = low at *
    rw [← isWord]
    ring

/-- Shifts by less than a word, each word taking the bits of the next. -/
def shiftRightFrom (part : ℕ) : List (BitVec width) → List (BitVec width)
  | [] => []
  | [word] => [word >>> part]
  | word :: next :: words =>
    (word >>> part ||| if part ≠ 0 then next <<< (width - part) else 0) ::
      shiftRightFrom part (next :: words)

theorem value_shiftRightFrom {part : ℕ} (inside : part < width) (words : List (BitVec width)) :
    value (shiftRightFrom part words) = value words / 2 ^ part := by
  induction words with
  | nil => simp [shiftRightFrom]
  | cons word words ih =>
    cases words with
    | nil => simp [shiftRightFrom, Nat.shiftRight_eq_div_pow]
    | cons next words =>
      by_cases whole : part = 0
      · subst whole
        rw [shiftRightFrom, value_cons, ih]
        simp
      · have isWidth : 2 ^ width = 2 ^ part * 2 ^ (width - part) := by
          rw [← pow_add]
          congr 1
          omega
        have small : (word >>> part).toNat < 2 ^ (width - part) := by
          rw [toNat_ushiftRight, Nat.shiftRight_eq_div_pow,
            Nat.div_lt_iff_lt_mul (Nat.two_pow_pos _), Nat.mul_comm, ← isWidth]
          exact word.isLt
        have isHead : (word >>> part ||| next <<< (width - part)).toNat =
            value (next :: words) % 2 ^ part * 2 ^ (width - part) + word.toNat / 2 ^ part := by
          rw [BitVec.or_comm, toNat_shiftLeft_or (Nat.sub_le _ _) next small,
            toNat_ushiftRight, Nat.shiftRight_eq_div_pow, value_cons,
            Nat.sub_sub_self inside.le, isWidth, Nat.mul_assoc, Nat.add_mul_mod_self_left]
        rw [shiftRightFrom, if_pos whole, value_cons, ih, isHead, value_cons word]
        have isRest := Nat.div_add_mod (value (next :: words)) (2 ^ part)
        generalize value (next :: words) / 2 ^ part = high at *
        generalize value (next :: words) % 2 ^ part = low at *
        have isTotal : word.toNat + 2 ^ width * value (next :: words) =
            word.toNat + 2 ^ part * (2 ^ (width - part) * value (next :: words)) := by
          rw [isWidth]
          ring
        rw [isTotal, Nat.add_mul_div_left _ _ (Nat.two_pow_pos _), ← isRest, isWidth]
        ring

/-- Shifts by one bit from the highest word down, with the bit that falls out. -/
def shiftRightOne : List (BitVec width) → List (BitVec width) × BitVec width
  | [] => ([], 0)
  | word :: words =>
    let (high, carry) := shiftRightOne words
    ((word >>> 1 ||| carry) :: high, word <<< (width - 1))

theorem shiftRightOne_eq (words : List (BitVec width)) :
    (shiftRightOne words).1 = shiftRightFrom 1 words := by
  induction words with
  | nil => rfl
  | cons word words ih =>
    cases words with
    | nil => simp [shiftRightOne, shiftRightFrom]
    | cons next words =>
      rw [shiftRightFrom, ← ih]
      rfl

theorem value_headD_tail (words : List (BitVec width)) :
    value words = (words.headD 0).toNat + 2 ^ width * value words.tail := by
  cases words <;> simp

theorem value_ofNat_cons {rest : List (BitVec width)} {total high : ℕ}
    (isRest : value rest = high + total / 2 ^ width) :
    value (BitVec.ofNat width total :: rest) = total + 2 ^ width * high := by
  have split := Nat.mod_add_div total (2 ^ width)
  rw [value_cons, toNat_ofNat, isRest, Nat.mul_add]
  omega

/-- Adds a carry until it is spent. -/
def carryFrom (carry : ℕ) : List (BitVec width) → List (BitVec width)
  | [] => if carry ≠ 0 then [BitVec.ofNat width carry] else []
  | word :: words =>
    if carry = 0 then word :: words
    else
      let sum := word.toNat + carry
      BitVec.ofNat width sum :: carryFrom (sum / 2 ^ width) words

/-- Multiplies words by a factor and adds other ones. -/
def multiplyAddFrom (factor carry : ℕ) :
    List (BitVec width) → List (BitVec width) → List (BitVec width)
  | [], others => carryFrom carry others
  | word :: words, others =>
    let sum := factor * word.toNat + (others.headD 0).toNat + carry
    BitVec.ofNat width sum :: multiplyAddFrom factor (sum / 2 ^ width) words others.tail

variable {factor carry : ℕ}

/-- A factor, a word, a second word and a carry stay within two words. -/
theorem multiplyAdd_carry_lt (factorLt : factor < 2 ^ width) (carryLt : carry < 2 ^ width)
    (word other : BitVec width) :
    (factor * word.toNat + other.toNat + carry) / 2 ^ width < 2 ^ width := by
  have wordLt := word.isLt
  have otherLt := other.isLt
  apply Nat.div_lt_of_lt_mul
  generalize 2 ^ width = base at *
  obtain ⟨base, rfl⟩ : ∃ below, base = below + 1 := ⟨base - 1, by omega⟩
  have product := Nat.mul_le_mul (Nat.le_of_lt_succ factorLt) (Nat.le_of_lt_succ wordLt)
  have square : (base + 1) * (base + 1) = base * base + base + base + 1 := by ring
  omega

theorem carry_carry_lt (carryLt : carry < 2 ^ width) (word : BitVec width) :
    (word.toNat + carry) / 2 ^ width < 2 ^ width := by
  have bound := multiplyAdd_carry_lt (Nat.two_pow_pos width) carryLt 0 word
  simpa using bound

theorem value_carryFrom (carryLt : carry < 2 ^ width) (words : List (BitVec width)) :
    value (carryFrom carry words) = value words + carry := by
  induction words generalizing carry with
  | nil =>
    rw [carryFrom]
    split
    case isTrue => simp [Nat.mod_eq_of_lt carryLt]
    case isFalse spent => simp [not_not.mp spent]
  | cons word words ih =>
    rw [carryFrom]
    split
    case isTrue spent => rw [spent, Nat.add_zero]
    case isFalse =>
      dsimp only
      rw [value_ofNat_cons (ih (carry_carry_lt carryLt word)), value_cons]
      ring

theorem value_multiplyAddFrom (factorLt : factor < 2 ^ width) (carryLt : carry < 2 ^ width)
    (words others : List (BitVec width)) :
    value (multiplyAddFrom factor carry words others) =
      factor * value words + value others + carry := by
  induction words generalizing carry others with
  | nil => rw [multiplyAddFrom, value_carryFrom carryLt, value_nil, Nat.mul_zero, Nat.zero_add]
  | cons word words ih =>
    have rest := ih (multiplyAdd_carry_lt factorLt carryLt word (others.headD 0)) others.tail
    rw [multiplyAddFrom, value_ofNat_cons rest, value_cons, value_headD_tail others]
    ring

theorem Normalized.cons {words : List (BitVec width)} (normalized : Normalized words)
    (nonempty : words ≠ []) (word : BitVec width) : Normalized (word :: words) := by
  intro top member
  obtain ⟨next, rest, rfl⟩ := exists_cons_of_ne_nil nonempty
  apply normalized
  rwa [getLast?_cons_cons] at member

theorem carryFrom_normalized (carryLt : carry < 2 ^ width) {words : List (BitVec width)}
    (longer : words.length < (carryFrom carry words).length) :
    Normalized (carryFrom carry words) := by
  induction words generalizing carry with
  | nil =>
    rw [carryFrom] at longer ⊢
    split
    case isTrue nonzero =>
      intro top member
      cases Option.mem_some.mp member
      rw [getLast_singleton, Ne, toNat_eq, toNat_ofNat, Nat.mod_eq_of_lt carryLt]
      exact nonzero
    case isFalse => simp [Normalized]
  | cons word words ih =>
    rw [carryFrom] at longer ⊢
    split
    case isTrue spent =>
      rw [if_pos spent] at longer
      exact absurd longer (lt_irrefl _)
    case isFalse some =>
      rw [if_neg some, length_cons, length_cons] at longer
      have rest := Nat.lt_of_succ_lt_succ longer
      exact (ih (carry_carry_lt carryLt word) rest).cons (ne_nil_of_length_pos (by omega)) _

/-- A word that the operands do not have is the last carry. -/
theorem multiplyAddFrom_normalized (factorLt : factor < 2 ^ width) (carryLt : carry < 2 ^ width)
    {words others : List (BitVec width)} (wordsShorter :
      words.length < (multiplyAddFrom factor carry words others).length)
    (othersShorter : others.length < (multiplyAddFrom factor carry words others).length) :
    Normalized (multiplyAddFrom factor carry words others) := by
  induction words generalizing carry others with
  | nil => exact carryFrom_normalized carryLt othersShorter
  | cons word words ih =>
    rw [multiplyAddFrom, length_cons] at wordsShorter othersShorter
    rw [length_cons] at wordsShorter
    have restShorter : others.tail.length < (multiplyAddFrom factor
        ((factor * word.toNat + (others.headD 0).toNat + carry) / 2 ^ width) words
          others.tail).length := by
      rw [length_tail]
      omega
    have rest := ih (multiplyAdd_carry_lt factorLt carryLt word (others.headD 0))
      (Nat.lt_of_succ_lt_succ wordsShorter) restShorter
    exact rest.cons (ne_nil_of_length_pos (by omega)) _

/-- What is no longer than a normalized number and not below it is normalized. -/
theorem Normalized.of_le {words result : List (BitVec width)} (normalized : Normalized words)
    (fits : result.length ≤ words.length) (atMost : value words ≤ value result) :
    Normalized result := by
  intro top member zero
  obtain ⟨front, rfl⟩ := getLast?_eq_some_iff.mp member
  have small := value_lt front
  have isFront : value (front ++ [top]) = value front := by
    rw [value_append, zero]
    simp
  rw [length_append, length_singleton] at fits
  have filled := normalized.le_value (ne_nil_of_length_pos (by omega))
  have room : 2 ^ (width * front.length) ≤ 2 ^ (width * (words.length - 1)) :=
    Nat.pow_le_pow_right (by norm_num) (Nat.mul_le_mul_left _ (by omega))
  omega

/-- Adds a multiple of the right words for each of the left, a word further up each time. -/
def multiplyRows (right : List (BitVec width)) :
    List (BitVec width) → List (BitVec width) → List (BitVec width)
  | [], out => out
  | factor :: factors, out =>
    let row := multiplyAddFrom factor.toNat 0 right out
    row.headD 0 :: multiplyRows right factors row.tail

theorem value_multiplyRows (right factors out : List (BitVec width)) :
    value (multiplyRows right factors out) = value out + value factors * value right := by
  induction factors generalizing out with
  | nil => rw [multiplyRows, value_nil, Nat.zero_mul, Nat.add_zero]
  | cons factor factors ih =>
    have isRow := value_multiplyAddFrom factor.isLt (Nat.two_pow_pos width) right out
    rw [value_headD_tail] at isRow
    rw [multiplyRows, value_cons, ih, value_cons, Nat.mul_add, ← Nat.add_assoc, isRow]
    ring

def subtractFrom (borrow : Bool) :
    List (BitVec width) → List (BitVec width) → List (BitVec width)
  | [], _ => []
  | prior :: words, others =>
    let rhs := others.headD 0
    let withBorrow := rhs + if borrow then 1 else 0
    let rhsOverflow := decide (withBorrow < rhs)
    (prior - withBorrow) ::
      subtractFrom (rhsOverflow || decide (prior < withBorrow)) words others.tail

theorem value_subtractFrom (positive : 0 < width) {borrow : Bool}
    {words others : List (BitVec width)} (atMost : value others + borrow.toNat ≤ value words) :
    value (subtractFrom borrow words others) + value others + borrow.toNat = value words := by
  induction words generalizing borrow others with
  | nil =>
    rw [value_nil] at atMost
    simp only [subtractFrom, value_nil]
    omega
  | cons prior words ih =>
    have split := value_headD_tail others
    have isBorrow : (if borrow = true then (1 : BitVec width) else 0).toNat = borrow.toNat := by
      cases borrow <;> simp [positive]
    have priorLt := prior.isLt
    have borrowLe := borrow.toNat_le
    simp only [subtractFrom]
    generalize isWith : others.headD 0 + (if borrow = true then 1 else 0) = withBorrow
    have isSum : withBorrow.toNat = ((others.headD 0).toNat + borrow.toNat) % 2 ^ width := by
      rw [← isWith, toNat_add, isBorrow]
    rw [value_cons, split] at atMost
    rw [value_cons, value_cons, split, toNat_sub]
    generalize others.headD 0 = rhs at *
    generalize isNext : (decide (withBorrow < rhs) || decide (prior < withBorrow)) = next
    -- the borrow counts one word
    have count : (2 ^ width - withBorrow.toNat + prior.toNat) % 2 ^ width +
        (rhs.toNat + borrow.toNat) = prior.toNat + 2 ^ width * next.toNat := by
      by_cases overflows : rhs.toNat + borrow.toNat < 2 ^ width
      · rw [Nat.mod_eq_of_lt overflows] at isSum
        have fits : ¬ withBorrow < rhs := by
          rw [lt_def]
          omega
        rw [decide_eq_false fits, Bool.false_or] at isNext
        by_cases less : prior < withBorrow
        · rw [decide_eq_true less] at isNext
          rw [lt_def] at less
          rw [← isNext, Nat.mod_eq_of_lt (by omega), toNat_true]
          omega
        · rw [decide_eq_false less] at isNext
          rw [lt_def] at less
          have isMod : 2 ^ width - withBorrow.toNat + prior.toNat =
              prior.toNat - withBorrow.toNat + 2 ^ width := by omega
          rw [← isNext, isMod, Nat.add_mod_right, Nat.mod_eq_of_lt (by omega), toNat_false]
          omega
      · have full : rhs.toNat + borrow.toNat = 2 ^ width := by omega
        rw [full, Nat.mod_self] at isSum
        have overflow : withBorrow < rhs := by
          rw [lt_def]
          omega
        rw [decide_eq_true overflow, Bool.true_or] at isNext
        rw [← isNext, isSum, full, Nat.sub_zero, Nat.add_mod_left, Nat.mod_eq_of_lt priorLt,
          toNat_true, Nat.mul_one]
    have nextAtMost : value others.tail + next.toNat ≤ value words := by
      by_contra more
      have step := Nat.mul_le_mul_left (2 ^ width) (Nat.succ_le_of_lt (not_le.mp more))
      rw [Nat.mul_succ, Nat.mul_add] at step
      omega
    have rest := congrArg (2 ^ width * ·) (ih nextAtMost)
    simp only [Nat.mul_add] at rest
    omega

/-- Divides from the highest word down, with the remainder so far in front of each word. -/
def divideFrom (divisor : ℕ) : List (BitVec width) → List (BitVec width) × ℕ
  | [] => ([], 0)
  | word :: words =>
    let (high, remainder) := divideFrom divisor words
    let current := 2 ^ width * remainder + word.toNat
    (BitVec.ofNat width (current / divisor) :: high, current % divisor)

theorem divideFrom_spec {divisor : ℕ} (positive : 0 < divisor) (words : List (BitVec width)) :
    (divideFrom divisor words).2 < divisor ∧
      divisor * value (divideFrom divisor words).1 + (divideFrom divisor words).2 =
        value words := by
  induction words with
  | nil => exact ⟨positive, by simp [divideFrom]⟩
  | cons word words ih =>
    obtain ⟨below, sum⟩ := ih
    rw [divideFrom]
    generalize divideFrom divisor words = rest at below sum ⊢
    obtain ⟨high, remainder⟩ := rest
    dsimp only at below sum ⊢
    generalize isCurrent : 2 ^ width * remainder + word.toNat = current
    have fits : current / divisor < 2 ^ width := by
      have step := Nat.mul_le_mul_left (2 ^ width) (Nat.succ_le_of_lt below)
      rw [Nat.mul_succ] at step
      apply Nat.div_lt_of_lt_mul
      rw [Nat.mul_comm divisor]
      omega
    have split := Nat.div_add_mod current divisor
    refine ⟨Nat.mod_lt _ positive, ?_⟩
    rw [value_cons, value_cons, toNat_ofNat, Nat.mod_eq_of_lt fits, ← sum, Nat.mul_add]
    generalize current / divisor = digit at split
    generalize current % divisor = left at split
    calc divisor * digit + divisor * (2 ^ width * value high) + left
        = (divisor * digit + left) + divisor * (2 ^ width * value high) := by ring
      _ = current + divisor * (2 ^ width * value high) := by rw [split]
      _ = word.toNat + 2 ^ width * (divisor * value high + remainder) := by
        rw [← isCurrent]
        ring

def setBit (words : List (BitVec width)) (index : ℕ) : List (BitVec width) :=
  let word := index / width
  (words ++ List.replicate (word + 1 - words.length) 0).modify word
    (· ||| (1 : BitVec width) <<< (index % width))

theorem value_modify (words : List (BitVec width)) {index : ℕ} (inside : index < words.length)
    {change : BitVec width → BitVec width} {amount : ℕ}
    (grows : (change words[index]).toNat = words[index].toNat + amount) :
    value (words.modify index change) = value words + 2 ^ (width * index) * amount := by
  induction words generalizing index with
  | nil => exact absurd inside (Nat.not_lt_zero _)
  | cons word words ih =>
    cases index with
    | zero =>
      simp only [getElem_cons_zero] at grows
      simp only [modify_zero_cons, value_cons, grows]
      ring
    | succ index =>
      simp only [getElem_cons_succ] at grows
      have rest := ih (Nat.lt_of_succ_lt_succ inside) grows
      rw [modify_succ_cons, value_cons, rest, value_cons, Nat.mul_succ, pow_add]
      ring

/-- Setting a bit above which the number has its lowest bit adds its worth. -/
theorem value_setBit (positive : 0 < width) (words : List (BitVec width)) {index : ℕ}
    (clear : value words % 2 ^ (index + 1) = 0) :
    value (setBit words index) = value words + 2 ^ index := by
  have place := Nat.div_add_mod index width
  have bitLt := Nat.mod_lt index positive
  rw [setBit]
  generalize isPadded : words ++ List.replicate (index / width + 1 - words.length) 0 = padded
  have inside : index / width < padded.length := by
    rw [← isPadded, length_append, length_replicate]
    omega
  have same : value padded = value words := by
    rw [← isPadded, value_append, value_replicate, Nat.mul_zero, Nat.add_zero]
  rw [← same] at clear ⊢
  have isWord : padded[index / width].toNat % 2 ^ (index % width + 1) = 0 := by
    have isDrop : value (padded.drop (index / width)) =
        padded[index / width].toNat + 2 ^ width * value (padded.drop (index / width + 1)) := by
      rw [drop_eq_getElem_cons inside, value_cons]
    rw [value_drop] at isDrop
    have isZero : value padded / 2 ^ (width * (index / width)) % 2 ^ (index % width + 1) = 0 := by
      rw [← Nat.mod_mul_right_div_self, ← pow_add, ← Nat.add_assoc, place, clear, Nat.zero_div]
    have multiple : 2 ^ width = 2 ^ (index % width + 1) * 2 ^ (width - (index % width + 1)) := by
      rw [← pow_add]
      congr 1
      omega
    rw [isDrop, multiple, Nat.mul_assoc, Nat.add_mul_mod_self_left] at isZero
    exact isZero
  have grows : (padded[index / width] ||| (1 : BitVec width) <<< (index % width)).toNat =
      padded[index / width].toNat + 2 ^ (index % width) := by
    obtain ⟨high, isHigh⟩ := Nat.dvd_of_mod_eq_zero isWord
    have one : ((1 : BitVec width) <<< (index % width)).toNat = 2 ^ (index % width) := by
      have small : 2 ^ (index % width) < 2 ^ width := Nat.pow_lt_pow_right (by norm_num) bitLt
      have isOne : (1 : BitVec width).toNat = 1 := by simp [positive]
      rw [toNat_shiftLeft, isOne, Nat.shiftLeft_eq, Nat.one_mul, Nat.mod_eq_of_lt small]
    have below : 2 ^ (index % width) < 2 ^ (index % width + 1) :=
      Nat.pow_lt_pow_right (by norm_num) (Nat.lt_succ_self _)
    rw [toNat_or, one, isHigh, Nat.mul_comm, ← Nat.shiftLeft_eq,
      Nat.shiftLeft_add_eq_or_of_lt below]
  rw [value_modify padded inside grows, ← pow_add, place]

end Aburi.Lib.Words
