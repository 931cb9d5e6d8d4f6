import Aburi.Lib.Numerals
import Mathlib.Data.List.TakeWhile
import Mathlib.Data.Nat.Digits.Lemmas

/-!
# Characters and integers

`from_chars` and `to_chars` of `<charconv>`.  Intermediate values are numbers that are
asked to fit their type.
-/

namespace Aburi.Adinkra.Charconv

open Aburi.Lib List

structure IntegerType where
  bits : ℕ
  isSigned : Bool
  wide : 8 ≤ bits

namespace IntegerType

variable (type : IntegerType)

def max : ℕ := if type.isSigned then 2 ^ (type.bits - 1) - 1 else 2 ^ type.bits - 1

def min : ℤ := if type.isSigned then -2 ^ (type.bits - 1) else 0

def cast (number : ℕ) : Option ℤ := if number ≤ type.max then some number else none

end IntegerType

inductive Errc where
  | success | invalidArgument | resultOutOfRange | valueTooLarge
  deriving DecidableEq

def digitValue (character : Char) : ℕ :=
  if '0' ≤ character ∧ character ≤ '9' then character.toNat - '0'.toNat
  else if 'a' ≤ character ∧ character ≤ 'z' then character.toNat - 'a'.toNat + 10
  else if 'A' ≤ character ∧ character ≤ 'Z' then character.toNat - 'A'.toNat + 10
  else 36

def digitCharacter (value : ℕ) : Char :=
  if value < 10 then .ofNat ('0'.toNat + value) else .ofNat ('a'.toNat + (value - 10))

/-- What is left, the number, and whether it was too large. -/
def readDigits (type : IntegerType) (base limit : ℕ) :
    List Char → ℕ → Bool → Option (List Char × ℕ × Bool)
  | [], result, overflow => some ([], result, overflow)
  | character :: rest, result, overflow =>
    let digit := digitValue character
    if base ≤ digit then some (character :: rest, result, overflow)
    else if limit < digit then none
    else if (limit - digit) / base < result then readDigits type base limit rest result true
    else if overflow then readDigits type base limit rest result overflow
    else if 2 ^ type.bits ≤ result * base + digit then none
    else readDigits type base limit rest (result * base + digit) overflow

structure FromChars where
  consumed : ℕ
  error : Errc
  value : ℤ
  deriving DecidableEq

def isNegative (type : IntegerType) (text : List Char) : Bool :=
  type.isSigned && text.head? == some '-'

def fromChars (type : IntegerType) (base : ℕ) (text : List Char) (value : ℤ) :
    Option FromChars := do
  let negative := isNegative type text
  let digits := if negative then text.tail else text
  let limit := if negative then type.max + 1 else type.max
  let (rest, result, overflow) ← readDigits type base limit digits 0 false
  let consumed := text.length - rest.length
  if rest.length = digits.length then some ⟨0, .invalidArgument, value⟩
  else if overflow then some ⟨consumed, .resultOutOfRange, value⟩
  else if negative then
    if result = type.max + 1 then some ⟨consumed, .success, type.min⟩
    else (type.cast result).map fun number => ⟨consumed, .success, -number⟩
  else (type.cast result).map fun number => ⟨consumed, .success, number⟩

def toChars (type : IntegerType) (base room : ℕ) (value : ℤ) :
    Option (Except Errc (List Char)) := do
  let negative := type.isSigned && decide (value < 0)
  let converted := (value % 2 ^ type.bits).toNat
  let remaining := if negative then (2 ^ type.bits - converted) % 2 ^ type.bits else converted
  let digits ← writeDigits digitCharacter base (type.bits + 1) remaining []
  let written := if negative then '-' :: digits else digits
  some (if room < written.length then .error .valueTooLarge else .ok written)

variable {type : IntegerType} {base limit number room : ℕ} {text written : List Char}

def leading (base : ℕ) (text : List Char) : List Char := text.takeWhile (digitValue · < base)

def denoted (base : ℕ) (digits : List Char) : ℕ := Nat.ofDigits base (digits.map digitValue).reverse

theorem denoted_cons (character : Char) (rest : List Char) :
    denoted base (character :: rest) =
      digitValue character * base ^ rest.length + denoted base rest := by
  rw [denoted, denoted, map_cons, reverse_cons, Nat.ofDigits_append, Nat.ofDigits_singleton,
    length_reverse, length_map, Nat.mul_comm, Nat.add_comm]

theorem readDigits_overflow (fits : ∀ digit < base, digit ≤ limit) :
    readDigits type base limit text number true =
      some (text.dropWhile (digitValue · < base), number, true) := by
  induction text with
  | nil => rfl
  | cons character rest ih =>
    rw [readDigits, dropWhile_cons]
    by_cases isDigit : digitValue character < base
    · have := fits _ isDigit
      simp only [isDigit, decide_true, if_true, ih, ite_self]
      rw [if_neg (by omega), if_neg (by omega)]
    · simp [isDigit]

theorem readDigits_eq (positive : 0 < base) (fits : ∀ digit < base, digit ≤ limit)
    (small : limit < 2 ^ type.bits) (within : number ≤ limit) :
    ∃ result, readDigits type base limit text number false =
        some (text.dropWhile (digitValue · < base), result, decide (limit <
          number * base ^ (leading base text).length + denoted base (leading base text))) ∧
      (number * base ^ (leading base text).length + denoted base (leading base text) ≤ limit →
        result = number * base ^ (leading base text).length + denoted base (leading base text)) := by
  induction text generalizing number with
  | nil => exact ⟨number, by simp [readDigits, leading, denoted, Nat.not_lt.mpr within], by
      simp [leading, denoted]⟩
  | cons character rest ih =>
    rw [readDigits, dropWhile_cons, leading, takeWhile_cons]
    by_cases isDigit : digitValue character < base
    · have digit := fits _ isDigit
      have test : (limit - digitValue character) / base < number ↔
          limit < number * base + digitValue character := by
        rw [Nat.div_lt_iff_lt_mul positive]
        omega
      simp only [isDigit, decide_true, if_true, denoted_cons, length_cons]
      rw [if_neg (by omega), if_neg (by omega), pow_succ', ← Nat.mul_assoc, ← Nat.add_assoc,
        ← Nat.add_mul]
      by_cases large : limit < number * base + digitValue character
      · have beyond := Nat.le_mul_of_pos_right (number * base + digitValue character)
          (Nat.pow_pos positive : 0 < base ^ (leading base rest).length)
        rw [if_pos (test.mpr large), readDigits_overflow fits]
        refine ⟨number, ?_, fun small => absurd small ?_⟩ <;> rw [leading] at beyond
        · rw [decide_eq_true (by omega)]
        · omega
      · rw [if_neg (test.not.mpr large), if_neg (by decide), if_neg (by omega)]
        exact ih (by omega)
    · simp [isDigit, Nat.not_lt.mp isDigit, denoted, Nat.not_lt.mpr within]

theorem digitValue_digitCharacter : ∀ value < 36, digitValue (digitCharacter value) = value := by
  decide

section

variable (two : 1 < base) (last : base ≤ 36)

include two

theorem digit_lt_base : ∀ digit ∈ if number = 0 then [0] else Nat.digits base number,
    digit < base := by
  intro digit member
  split at member
  · rw [mem_singleton.mp member]
    omega
  · exact Nat.digits_lt_base two member

include last

theorem map_numeral : (numeral digitCharacter base number).map digitValue =
    (if number = 0 then [0] else Nat.digits base number).reverse := by
  rw [numeral, map_map]
  refine (map_congr_left ?_).trans (map_id _)
  intro digit member
  have := digit_lt_base two digit (mem_reverse.mp member)
  exact digitValue_digitCharacter digit (by omega)

theorem leading_numeral (number : ℕ) :
    leading base (numeral digitCharacter base number) = numeral digitCharacter base number := by
  rw [leading, takeWhile_eq_self_iff]
  intro character member
  have isDigit := mem_map_of_mem (f := digitValue) member
  rw [map_numeral two last, mem_reverse] at isDigit
  exact decide_eq_true (digit_lt_base two _ isDigit)

theorem denoted_numeral (number : ℕ) :
    denoted base (numeral digitCharacter base number) = number := by
  rw [denoted, map_numeral two last, reverse_reverse]
  split
  case isTrue zero => rw [zero, Nat.ofDigits_singleton]
  case isFalse => exact Nat.ofDigits_digits base number

omit last in
theorem length_numeral_le (digits : List Char) (nonempty : digits ≠ [])
    (isDigit : ∀ character ∈ digits, digitValue character < base) :
    (numeral digitCharacter base (denoted base digits)).length ≤ digits.length := by
  have below : denoted base digits < base ^ digits.length := by
    rw [denoted, ← length_map digitValue, ← length_reverse]
    apply Nat.ofDigits_lt_base_pow_length two
    simpa using isDigit
  rw [numeral, length_map, length_reverse]
  split
  · exact length_pos_of_ne_nil nonempty
  · exact (Nat.digits_length_le_iff two _).mpr below

end

section

variable (type base text)

/-- The digits behind the sign. -/
def digitsOf : List Char := leading base (if isNegative type text then text.tail else text)

def numberOf : ℤ :=
  if isNegative type text then -(denoted base (digitsOf type base text) : ℤ)
  else denoted base (digitsOf type base text)

def lengthOf : ℕ := (if isNegative type text then 1 else 0) + (digitsOf type base text).length

/-- The longest match of a sign and digits, and the number that it denotes. -/
def matched (old : ℤ) : FromChars :=
  if digitsOf type base text = [] then ⟨0, .invalidArgument, old⟩
  else if type.min ≤ numberOf type base text ∧ numberOf type base text ≤ type.max then
    ⟨lengthOf type base text, .success, numberOf type base text⟩
  else ⟨lengthOf type base text, .resultOutOfRange, old⟩

end

theorem IntegerType.bounds (type : IntegerType) : 127 ≤ type.max ∧ type.max < 2 ^ type.bits ∧
    (type.isSigned = true → type.max + 1 < 2 ^ type.bits) ∧
    type.min = if type.isSigned then -(type.max + 1 : ℤ) else 0 := by
  have wide := type.wide
  have half : 2 ^ 7 ≤ 2 ^ (type.bits - 1) := Nat.pow_le_pow_right (by decide) (by omega)
  have whole : 2 ^ type.bits = 2 * 2 ^ (type.bits - 1) := by
    rw [← pow_succ', Nat.sub_add_cancel (by omega)]
  rw [max, min]
  cases type.isSigned with
  | true =>
    simp only [if_true]
    refine ⟨by omega, by omega, fun _ => by omega, ?_⟩
    push_cast [Nat.cast_sub (Nat.two_pow_pos (type.bits - 1))]
    ring
  | false =>
    simp only [Bool.false_eq_true, if_false]
    exact ⟨by omega, by omega, nofun, trivial⟩

theorem fromChars_eq (two : 1 < base) (last : base ≤ 36) (text : List Char) (old : ℤ) :
    fromChars type base text old = some (matched type base text old) := by
  obtain ⟨large, small, smallSigned, isMin⟩ := type.bounds
  have isLength : text.length = (if isNegative type text then 1 else 0) +
      (if isNegative type text then text.tail else text).length := by
    split
    case isTrue negative =>
      cases text with
      | nil => simp [isNegative] at negative
      | cons sign rest => simp [Nat.add_comm]
    case isFalse => simp
  have signed : isNegative type text = true → type.isSigned = true := by
    rw [isNegative, Bool.and_eq_true]
    exact And.left
  have limits : ∀ digit < base, digit ≤
      if isNegative type text then type.max + 1 else type.max := by
    intro digit below
    split <;> omega
  obtain ⟨result, read, same⟩ := @readDigits_eq type base _ 0
    (if isNegative type text then text.tail else text) (by omega) limits
    (by split <;> grind) (Nat.zero_le _)
  have split := congrArg length (@takeWhile_append_dropWhile _ (digitValue · < base)
    (if isNegative type text then text.tail else text))
  rw [length_append, ← leading] at split
  rw [Nat.zero_mul, Nat.zero_add] at read same
  rw [fromChars, matched, lengthOf, numberOf, digitsOf]
  simp only [read, Option.bind_eq_bind, Option.bind_some]
  by_cases empty : leading base (if isNegative type text then text.tail else text) = []
  · rw [empty] at split
    rw [if_pos (by simpa using split), if_pos empty]
  · have some := length_pos_of_ne_nil empty
    rw [if_neg (by omega), if_neg empty, isLength, ← split, ← Nat.add_assoc, Nat.add_sub_cancel]
    generalize denoted base _ = number at same ⊢
    generalize length _ = digits
    cases negative : isNegative type text with
    | true =>
      simp only [negative, if_true] at same ⊢
      rw [signed negative] at isMin
      simp only [if_true] at isMin
      by_cases fits : number ≤ type.max + 1
      · rw [same fits, if_neg (by simpa using fits)]
        split
        case isTrue least =>
          have isNumber : type.min = -(number : ℤ) := by omega
          rw [if_pos (by omega), isNumber]
        case isFalse =>
          rw [IntegerType.cast, if_pos (by omega), if_pos (by omega)]
          rfl
      · rw [if_pos (by simpa using fits), if_neg (by omega)]
    | false =>
      simp only [negative, Bool.false_eq_true, if_false] at same ⊢
      have atMost : type.min ≤ 0 := by rw [isMin]; split <;> omega
      by_cases fits : number ≤ type.max
      · rw [same fits, if_neg (by simpa using fits), IntegerType.cast, if_pos fits,
          if_pos (by omega)]
        rfl
      · rw [if_pos (by simpa using fits), if_neg (by omega)]

theorem isSigned_of_neg {value : ℤ} (atLeast : type.min ≤ value) (negative : value < 0) :
    type.isSigned = true := by
  by_contra unsigned
  have isMin := type.bounds.2.2.2
  rw [if_neg unsigned] at isMin
  omega

theorem toChars_eq (two : 1 < base) {value : ℤ} (atLeast : type.min ≤ value)
    (atMost : value ≤ type.max) :
    toChars type base room value =
      let written := (if value < 0 then ['-'] else []) ++ numeral digitCharacter base value.natAbs
      some (if room < written.length then .error .valueTooLarge else .ok written) := by
  obtain ⟨-, small, smallSigned, isMin⟩ := type.bounds
  have power : ((2 ^ type.bits : ℕ) : ℤ) = 2 ^ type.bits := by push_cast; rfl
  have isSigned := @isSigned_of_neg type value atLeast
  have negative : (type.isSigned && decide (value < 0)) = decide (value < 0) := by
    by_cases below : value < 0 <;> simp [below, isSigned]
  have below : value.natAbs < 2 ^ type.bits := by
    by_cases negative : value < 0
    · rw [if_pos (isSigned negative)] at isMin
      have := smallSigned (isSigned negative)
      omega
    · omega
  have remaining : (if decide (value < 0) then
      (2 ^ type.bits - (value % 2 ^ type.bits).toNat) % 2 ^ type.bits
    else (value % 2 ^ type.bits).toNat) = value.natAbs := by
    by_cases negative : value < 0
    · have isRest : value % 2 ^ type.bits = value + 2 ^ type.bits := by
        rw [← Int.add_emod_right, Int.emod_eq_of_lt (by omega) (by omega)]
      rw [if_pos (by simpa using negative), isRest, Nat.mod_eq_of_lt (by omega)]
      omega
    · rw [if_neg (by simpa using negative), Int.emod_eq_of_lt (by omega) (by omega)]
      omega
  have fits : value.natAbs < base ^ (type.bits + 1) := calc
    value.natAbs < 2 ^ type.bits := below
    _ ≤ base ^ type.bits := Nat.pow_le_pow_left two _
    _ ≤ base ^ (type.bits + 1) := Nat.pow_le_pow_right (by omega) (by omega)
  rw [toChars, negative]
  dsimp only
  rw [remaining, writeDigits_eq two (by omega) fits]
  by_cases negative : value < 0 <;> simp [negative]

theorem matched_written (two : 1 < base) (last : base ≤ 36) {value : ℤ}
    (atLeast : type.min ≤ value) (atMost : value ≤ type.max) (old : ℤ) :
    let written := (if value < 0 then ['-'] else []) ++ numeral digitCharacter base value.natAbs
    matched type base written old = ⟨written.length, .success, value⟩ := by
  have nonempty : numeral digitCharacter base value.natAbs ≠ [] := by
    rw [numeral, ne_eq, map_eq_nil_iff, reverse_eq_nil_iff]
    split
    case isTrue => simp
    case isFalse more => exact Nat.digits_ne_nil_iff_ne_zero.mpr more
  have digits := leading_numeral two last value.natAbs
  have denotes := denoted_numeral two last value.natAbs
  intro written
  by_cases negative : value < 0
  · have sign : isNegative type written = true := by
      simp [isNegative, written, negative, isSigned_of_neg atLeast negative]
    have isNumber : -|value| = value := by rw [abs_of_neg negative, neg_neg]
    simp only [matched, digitsOf, numberOf, lengthOf, sign, if_true]
    simp [written, negative, digits, denotes, nonempty, isNumber, atLeast, atMost, Nat.add_comm]
  · have sign : isNegative type written = false := by
      have noSign : (numeral digitCharacter base value.natAbs).head? ≠ some '-' := by
        intro isSign
        rw [leading, takeWhile_eq_self_iff] at digits
        have isDigit := digits _ (mem_of_head? isSign)
        have notDigit : digitValue '-' = 36 := rfl
        simp only [notDigit, decide_eq_true_eq] at isDigit
        omega
      simp [isNegative, written, negative, noSign]
    have isNumber : (value.natAbs : ℤ) = value := by omega
    simp only [matched, digitsOf, numberOf, lengthOf, sign]
    simp [written, negative, digits, denotes, nonempty, isNumber, atLeast, atMost]

/-- What is read is the number of the longest match, and what is written is the
shortest text that is read back. -/
theorem charconv_exact (type : IntegerType) (two : 1 < base) (last : base ≤ 36) :
    (∀ text old, fromChars type base text old = some (matched type base text old)) ∧
    ∀ value, type.min ≤ value → value ≤ type.max →
      ∃ written, (∀ room, toChars type base room value =
          some (if room < written.length then .error .valueTooLarge else .ok written)) ∧
        (∀ old, fromChars type base written old = some ⟨written.length, .success, value⟩) ∧
        ∀ text old, fromChars type base text old = some ⟨text.length, .success, value⟩ →
          written.length ≤ text.length := by
  refine ⟨fromChars_eq two last, fun value atLeast atMost =>
    ⟨_, fun room => toChars_eq two atLeast atMost, fun old => ?_, fun text old reads => ?_⟩⟩
  · rw [fromChars_eq two last, matched_written two last atLeast atMost]
  · rw [fromChars_eq two last, Option.some_inj, matched] at reads
    split at reads
    case isTrue => simp at reads
    case isFalse nonempty =>
      split at reads
      case isFalse => simp at reads
      case isTrue =>
        have shortest := length_numeral_le two _ nonempty fun character member =>
          of_decide_eq_true (@mem_takeWhile_imp _ (digitValue · < base) _ _ member)
        simp only [FromChars.mk.injEq, true_and, lengthOf, numberOf] at reads
        rw [length_append]
        grind

def byte : IntegerType := ⟨8, true, le_rfl⟩

theorem charconv_exact_byte :
    fromChars byte 10 "128".toList 5 = some ⟨3, .resultOutOfRange, 5⟩ ∧
      fromChars byte 16 "-80g".toList 5 = some ⟨3, .success, -128⟩ ∧
      ∃ written, toChars byte 16 3 (-128) = some (.ok written) ∧
        fromChars byte 16 written 5 = some ⟨written.length, .success, -128⟩ := by
  obtain ⟨reads, writes⟩ := @charconv_exact 16 byte (by decide) (by decide)
  obtain ⟨written, written_eq, readBack, shortest⟩ := writes (-128) (by decide) (by decide)
  refine ⟨(charconv_exact byte (by decide) (by decide)).1 _ _, reads _ _, written, ?_, readBack 5⟩
  have short : written.length ≤ 3 := shortest "-80".toList 5 (reads _ _)
  rw [written_eq, if_neg (Nat.not_lt.mpr short)]

end Aburi.Adinkra.Charconv
