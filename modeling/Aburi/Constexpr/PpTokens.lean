import Mathlib.Data.Nat.Notation
import Mathlib.Order.Nat
import Mathlib.Tactic.Ring

/-!
# Tokens of preprocessor expressions

The kinds of tokens that the evaluation of `#if` tells apart, and the reading
of the spelling of an integer constant.  Spellings are sequences of bytes.
-/

namespace Aburi.Constexpr

inductive TokenType where
  | integerConst | unsignedIntegerConst | longConst | unsignedLongConst | longLongConst
  | unsignedLongLongConst | charLiteral
  | question | colon | leftParen | rightParen
  | logicalOr | logicalAnd | bitwiseOr | bitwiseXor | bitwiseAnd | equalTo | notEqual
  | lessThan | lessEqualThan | greaterThan | greaterEqualThan | leftShift | rightShift
  | plus | negate | multiply | divide | modulo | bitwiseNot | logicalNot
  /-- All the kinds that no expression has. -/
  | other (kind : ℕ)
  deriving DecidableEq

structure Token where
  type : TokenType
  value : List UInt8 := []
  loc : UInt32 := 0
  deriving DecidableEq

def isIntegerToken : TokenType → Bool
  | .integerConst | .unsignedIntegerConst | .longConst | .unsignedLongConst
  | .longLongConst | .unsignedLongLongConst => true
  | _ => false

def isUnsignedIntegerToken : TokenType → Bool
  | .unsignedIntegerConst | .unsignedLongConst | .unsignedLongLongConst => true
  | _ => false

section IntegerLiterals

def byte (character : Char) : UInt8 := UInt8.ofNat character.toNat

def integerLiteralDigitValue (c : UInt8) : Option ℕ :=
  if byte '0' ≤ c ∧ c ≤ byte '9' then some (c.toNat - (byte '0').toNat)
  else if byte 'a' ≤ c ∧ c ≤ byte 'f' then some (10 + (c.toNat - (byte 'a').toNat))
  else if byte 'A' ≤ c ∧ c ≤ byte 'F' then some (10 + (c.toNat - (byte 'A').toNat))
  else none

/-- The byte is a digit of the base. -/
def digitBelow (base : ℕ) (c : UInt8) : Option ℕ :=
  (integerLiteralDigitValue c).filter (· < base)

def takeUnsigned (seen : Bool) : List UInt8 → Option (Bool × List UInt8)
  | [] => some (seen, [])
  | c :: rest =>
    if c = byte 'u' ∨ c = byte 'U' then
      if seen then none else some (true, rest)
    else some (seen, c :: rest)

/-- The number of letters and what follows; the second letter must repeat the first. -/
def takeLong : List UInt8 → Option (ℕ × List UInt8)
  | [] => some (0, [])
  | first :: rest =>
    if first = byte 'l' ∨ first = byte 'L' then
      match rest with
      | [] => some (1, [])
      | second :: rest' =>
        if second = byte 'l' ∨ second = byte 'L' then
          if second = first then some (2, rest') else none
        else some (1, second :: rest')
    else some (0, first :: rest)

def takeBitint : List UInt8 → List UInt8
  | first :: second :: rest =>
    if (first = byte 'w' ∧ second = byte 'b') ∨ (first = byte 'W' ∧ second = byte 'B') then rest
    else first :: second :: rest
  | short => short

def parseIntegerLiteralSuffix (suffix : List UInt8) : Bool :=
  let accepted := do
    let (hasUnsigned, suffix) ← takeUnsigned false suffix
    let (longCount, suffix) ← takeLong suffix
    let suffix := if longCount = 0 then takeBitint suffix else suffix
    let (_, suffix) ← takeUnsigned hasUnsigned suffix
    pure suffix.isEmpty
  accepted.getD false

/-- The base and the digits after the prefix that announces it. -/
def literalBase : List UInt8 → ℕ × List UInt8
  | first :: second :: rest =>
    if first = byte '0' ∧ (second = byte 'x' ∨ second = byte 'X') then (16, rest)
    else if first = byte '0' ∧ (second = byte 'b' ∨ second = byte 'B') then (2, rest)
    else if first = byte '0' then (8, first :: second :: rest)
    else (10, first :: second :: rest)
  | short => (10, short)

/-- The value of the digits, what follows them, and whether there were any. -/
structure Digits where
  value : ℕ
  rest : List UInt8
  started : Bool

/-- An apostrophe between digits separates them. -/
def isSeparator (base : ℕ) (started : Bool) (c : UInt8) (rest : List UInt8) : Bool :=
  c == 0x27 && started && match rest with
    | [] => false
    | next :: _ => (digitBelow base next).isSome

/-- The loop over the digits, in 64 bits. -/
def parseDigits (base : ℕ) : Bool → ℕ → List UInt8 → Option Digits
  | started, value, [] => some ⟨value, [], started⟩
  | started, value, c :: rest =>
    if isSeparator base started c rest then parseDigits base true value rest
    else
      match digitBelow base c with
      | none => some ⟨value, c :: rest, started⟩
      | some digit =>
        if value > (2 ^ 64 - 1 - digit) / base then none
        else parseDigits base true (value * base + digit) rest

def parseIntegerLiteralU64 (text : List UInt8) : Option ℕ :=
  let (base, digits) := literalBase text
  match parseDigits base false 0 digits with
  | none => none
  | some scanned =>
    if scanned.started && parseIntegerLiteralSuffix scanned.rest then some scanned.value
    else none

/-- The digits as a number of any size. -/
def readDigits (base : ℕ) : Bool → ℕ → List UInt8 → Digits
  | started, value, [] => ⟨value, [], started⟩
  | started, value, c :: rest =>
    if isSeparator base started c rest then readDigits base true value rest
    else
      match digitBelow base c with
      | none => ⟨value, c :: rest, started⟩
      | some digit => readDigits base true (value * base + digit) rest

/-- The number an integer constant spells, if the text is one. -/
def integerConstantValue (text : List UInt8) : Option ℕ :=
  let (base, digits) := literalBase text
  let scanned := readDigits base false 0 digits
  if scanned.started && parseIntegerLiteralSuffix scanned.rest then some scanned.value else none

theorem literalBase_pos (text : List UInt8) : 0 < (literalBase text).1 := by
  match text with
  | [] | [_] => simp [literalBase]
  | _ :: _ :: _ =>
    simp only [literalBase]
    split
    · simp
    · split
      · simp
      · split <;> simp

theorem digitBelow_lt {base digit : ℕ} {c : UInt8} (found : digitBelow base c = some digit) :
    digit < base := by
  have := (Option.filter_eq_some_iff.mp found).2
  simpa using this

theorem literalBase_le (text : List UInt8) : (literalBase text).1 ≤ 16 := by
  match text with
  | [] | [_] => simp [literalBase]
  | _ :: _ :: _ =>
    simp only [literalBase]
    split
    · simp
    · split
      · simp
      · split <;> simp

theorem readDigits_value_le {base : ℕ} (positive : 0 < base) (started : Bool) (value : ℕ)
    (text : List UInt8) : value ≤ (readDigits base started value text).value := by
  induction text generalizing started value with
  | nil => exact le_refl _
  | cons c rest ih =>
    rw [readDigits]
    split
    · exact ih true value
    · split
      · exact le_refl _
      · have grown : value ≤ value * base := Nat.le_mul_of_pos_right value positive
        exact le_trans (by omega) (ih true _)

theorem overflow_iff {base value digit : ℕ} (positive : 0 < base)
    (small : digit ≤ 2 ^ 64 - 1) :
    value > (2 ^ 64 - 1 - digit) / base ↔ 2 ^ 64 ≤ value * base + digit := by
  rw [gt_iff_lt, Nat.div_lt_iff_lt_mul positive]
  omega

theorem parseDigits_eq {base : ℕ} (positive : 0 < base) (small : base ≤ 16) (started : Bool)
    (value : ℕ) (text : List UInt8) (fits : value < 2 ^ 64) :
    parseDigits base started value text =
      if (readDigits base started value text).value < 2 ^ 64 then
        some (readDigits base started value text)
      else none := by
  induction text generalizing started value with
  | nil => rw [parseDigits, readDigits, if_pos fits]
  | cons c rest ih =>
    rw [parseDigits, readDigits]
    split
    case isTrue => exact ih true value fits
    case isFalse =>
      split
      case h_1 => rw [if_pos fits]
      case h_2 digit found =>
        have below := digitBelow_lt found
        have exceeds := @overflow_iff base value digit positive (by omega)
        by_cases overflow : 2 ^ 64 ≤ value * base + digit
        · have larger := readDigits_value_le positive true (value * base + digit) rest
          rw [if_pos (exceeds.mpr overflow), if_neg (by omega)]
        · rw [if_neg (fun bad => overflow (exceeds.mp bad))]
          exact ih true _ (by omega)

/-- Reading a constant in 64 bits fails exactly for constants that need more. -/
theorem parseIntegerLiteralU64_eq (text : List UInt8) :
    parseIntegerLiteralU64 text = (integerConstantValue text).filter (· < 2 ^ 64) := by
  have digits := parseDigits_eq (literalBase_pos text) (literalBase_le text) false 0
    (literalBase text).2 (by norm_num)
  simp only [parseIntegerLiteralU64, integerConstantValue, digits]
  generalize readDigits (literalBase text).1 false 0 (literalBase text).2 = scanned
  by_cases accepted : (scanned.started && parseIntegerLiteralSuffix scanned.rest) = true
  · rw [if_pos accepted, Option.filter_some]
    by_cases fits : scanned.value < 2 ^ 64
    · simp only [if_pos fits, accepted, if_true, decide_eq_true fits]
    · simp only [if_neg fits, decide_eq_false fits, Bool.false_eq_true, if_false]
  · rw [if_neg accepted]
    by_cases fits : scanned.value < 2 ^ 64
    · simp only [if_pos fits, if_neg accepted, Option.filter_none]
    · simp only [if_neg fits, Option.filter_none]

end IntegerLiterals

end Aburi.Constexpr
