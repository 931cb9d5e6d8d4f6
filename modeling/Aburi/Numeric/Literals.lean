import Aburi.Numeric.Parse
import Mathlib.Algebra.Order.Ring.Rat
import Mathlib.Data.List.Induction
import Mathlib.Tactic.IntervalCases
import Mathlib.Tactic.Ring

/-!
# Floating literals

The grammar of decimal and hexadecimal floating literals with the number that
each denotes, and how the parser takes a spelling apart.
-/

namespace Aburi.Numeric

open List Option

def IsDigit (base : ℕ) (character : Char) : Prop := (digitValue character base).isSome

instance (base : ℕ) (character : Char) : Decidable (IsDigit base character) :=
  inferInstanceAs (Decidable ((digitValue character base).isSome = true))

/-- The characters of a list are searched in the list, not among all characters. -/
local instance (priority := high) decidableForallMem (characters : List Char) (p : Char → Prop)
    [DecidablePred p] : Decidable (∀ character ∈ characters, p character) :=
  decidableBAll p characters

inductive LiteralSign where
  | absent
  | plus
  | minus
  deriving DecidableEq

namespace LiteralSign

def text : LiteralSign → List Char
  | .absent => []
  | .plus => ['+']
  | .minus => ['-']

def negative (sign : LiteralSign) : Bool := sign == .minus

end LiteralSign

/-- An exponent mark with a decimal exponent. -/
structure LiteralExponent where
  mark : Char
  sign : LiteralSign
  digits : List Char
  nonempty : digits ≠ []
  decimal : ∀ digit ∈ digits, IsDigit 10 digit

def LiteralExponent.text (exponent : LiteralExponent) : List Char :=
  exponent.mark :: (exponent.sign.text ++ exponent.digits)

def imaginarySuffixes : List (List Char) := [[], ['i'], ['I'], ['j'], ['J']]

def floatSuffixes : List (List Char) := [[], ['f'], ['F'], ['l'], ['L']]

/-- A floating literal without its digit separators.  A hexadecimal literal has
an exponent. -/
structure Literal where
  sign : LiteralSign := .absent
  hexMark : Option Char := none
  integer : List Char
  fraction : Option (List Char) := none
  exponent : Option LiteralExponent := none
  suffix : List Char := []
  imaginary : List Char := []
  isHexMark : ∀ mark ∈ hexMark, mark = 'x' ∨ mark = 'X'
  nonempty : integer ++ fraction.getD [] ≠ []
  digits : ∀ digit ∈ integer ++ fraction.getD [], IsDigit (if hexMark.isSome then 16 else 10) digit
  isMark : ∀ part ∈ exponent, isExponentMark hexMark.isSome part.mark = true
  hasExponent : hexMark.isSome → exponent.isSome
  isSuffix : suffix ∈ floatSuffixes ++ suffixes
  isImaginary : imaginary ∈ imaginarySuffixes

/-- The number that digits stand for. -/
def digitsNumber (base : ℕ) (digits : List Char) : ℕ :=
  digits.foldl (fun value digit => value * base + (digitValue digit base).getD 0) 0

namespace Literal

variable (literal : Literal)

def base : ℕ := if literal.hexMark.isSome then 16 else 10

def fractionDigits : List Char := literal.fraction.getD []

def significandText : List Char :=
  literal.integer ++ (literal.fraction.map fun digits => '.' :: digits).getD []

/-- The literal without sign and suffixes. -/
def body : List Char :=
  (literal.hexMark.map fun mark => ['0', mark]).getD [] ++
    (literal.significandText ++ (literal.exponent.map LiteralExponent.text).getD [])

def text : List Char :=
  literal.sign.text ++ literal.body ++ literal.suffix ++ literal.imaginary

/-- A spelling of the literal, with separators between its characters. -/
def Spells (spelling : List Char) : Prop := spelling.filter (· != separator) = literal.text

instance (spelling : List Char) : Decidable (literal.Spells spelling) :=
  inferInstanceAs (Decidable (spelling.filter (· != separator) = literal.text))

def significand : ℕ := digitsNumber literal.base (literal.integer ++ literal.fractionDigits)

def exponentNumber : ℤ :=
  match literal.exponent with
  | none => 0
  | some part =>
    if part.sign.negative then -(digitsNumber 10 part.digits : ℤ)
    else digitsNumber 10 part.digits

/-- The magnitude that the digits denote with an exponent. -/
def magnitudeAt (exponent : ℤ) : ℚ :=
  if literal.hexMark.isSome then
    literal.significand * 2 ^ (exponent - literal.fractionDigits.length * 4)
  else literal.significand * 10 ^ (exponent - literal.fractionDigits.length)

/-- The magnitude that the literal denotes. -/
def magnitude : ℚ := literal.magnitudeAt literal.exponentNumber

end Literal

variable {digit : Char} {digits : List Char}

section Digits

theorem addDigit_eq {base value : ℕ} (isDigit : IsDigit base digit) :
    addDigit base value digit = some (value * base + (digitValue digit base).getD 0) := by
  obtain ⟨number, isNumber⟩ := isSome_iff_exists.mp isDigit
  simp [addDigit, isNumber]

theorem foldlM_addDigit {base : ℕ} (areDigits : ∀ digit ∈ digits, IsDigit base digit) (start : ℕ) :
    digits.foldlM (addDigit base) start =
      some (digits.foldl (fun value digit => value * base + (digitValue digit base).getD 0)
        start) := by
  induction digits generalizing start with
  | nil => rfl
  | cons digit digits induction =>
    rw [foldlM_cons, addDigit_eq (areDigits digit (by simp))]
    exact induction (fun other member => areDigits other (by simp [member])) _

theorem parseBigDigits_eq {base : ℕ} (nonempty : digits ≠ [])
    (areDigits : ∀ digit ∈ digits, IsDigit base digit) :
    parseBigDigits digits base = some (digitsNumber base digits) := by
  rw [parseBigDigits, if_neg (by simpa using nonempty), foldlM_addDigit areDigits]
  rfl

/-- The value of a digit. -/
theorem digit_lt {base : ℕ} (isDigit : IsDigit base digit) :
    (digitValue digit base).getD 0 < base := by
  obtain ⟨number, isNumber⟩ := isSome_iff_exists.mp isDigit
  have small := isNumber
  rw [digitValue, filter_eq_some_iff] at small
  rw [isNumber]
  exact of_decide_eq_true small.2

theorem digitsNumber_append (base : ℕ) (digits : List Char) (digit : Char) :
    digitsNumber base (digits ++ [digit]) =
      digitsNumber base digits * base + (digitValue digit base).getD 0 := by
  simp [digitsNumber]

/-- As many digits bound the number. -/
theorem digitsNumber_lt {base : ℕ} (areDigits : ∀ digit ∈ digits, IsDigit base digit) :
    digitsNumber base digits < base ^ digits.length := by
  induction digits using reverseRecOn with
  | nil => simp [digitsNumber]
  | append_singleton digits digit induction =>
    have small := induction fun other member => areDigits other (by simp [member])
    have last := digit_lt (areDigits digit (by simp))
    rw [digitsNumber_append, length_append, length_singleton, Nat.pow_succ]
    calc digitsNumber base digits * base + (digitValue digit base).getD 0
        < digitsNumber base digits * base + base := by omega
      _ = (digitsNumber base digits + 1) * base := by ring
      _ ≤ base ^ digits.length * base := Nat.mul_le_mul_right _ small

def decimalDigits : List Char := "0123456789".toList

def hexDigits : List Char := "0123456789abcdefABCDEF".toList

/-- Characters in a range of codes. -/
theorem mem_of_range {low count : ℕ} {characters : List Char}
    (listed : ∀ place < count, Char.ofNat (low + place) ∈ characters)
    {character : Char} (atLeast : low ≤ character.toNat) (below : character.toNat < low + count) :
    character ∈ characters := by
  rw [← Char.ofNat_toNat character, ← Nat.add_sub_cancel' atLeast]
  exact listed _ (by omega)

theorem mem_hexDigits {base : ℕ} (isDigit : IsDigit base digit) :
    digit ∈ hexDigits := by
  rw [IsDigit, digitValue] at isDigit
  obtain ⟨number, isNumber⟩ := isSome_iff_exists.mp isDigit
  rw [filter_eq_some_iff] at isNumber
  have value := isNumber.1
  split_ifs at value with decimal lower upper
  · exact @mem_of_range 48 10 _ (by decide) _ decimal.1 (Nat.lt_succ_of_le decimal.2)
  · exact @mem_of_range 97 6 _ (by decide) _ lower.1 (Nat.lt_succ_of_le lower.2)
  · exact @mem_of_range 65 6 _ (by decide) _ upper.1 (Nat.lt_succ_of_le upper.2)

theorem mem_decimalDigits (isDigit : IsDigit 10 digit) :
    digit ∈ decimalDigits := by
  have hex := mem_hexDigits isDigit
  have only : ∀ other ∈ hexDigits, (digitValue other 10).isSome → other ∈ decimalDigits := by
    decide
  exact only digit hex isDigit

end Digits

/-- The exponent that the parser keeps. -/
def cutExponent (exponent : ℤ) : ℤ := max (-exponentLimit) (min exponent exponentLimit)

section Exponents

theorem addExponentDigit_eq {number : ℕ} (isDigit : IsDigit 10 digit) :
    addExponentDigit (min exponentLimit number) digit =
      some (min exponentLimit (number * 10 + (digitValue digit 10).getD 0)) := by
  have values : ∀ other ∈ decimalDigits, other.isDigit = true ∧
      (digitValue other 10).getD 0 = other.toNat - 48 ∧ other.toNat - 48 < 10 := by
    decide
  obtain ⟨isDecimal, value, small⟩ := values digit (mem_decimalDigits isDigit)
  rw [addExponentDigit, if_pos isDecimal, value]
  generalize digit.toNat - 48 = number' at small ⊢
  have limit : exponentLimit = 1000000000 := rfl
  dsimp only
  split
  case isTrue saturated | isFalse fits =>
    congr 1
    omega

theorem foldlM_addExponentDigit (areDigits : ∀ digit ∈ digits, IsDigit 10 digit) (start : ℕ) :
    digits.foldlM addExponentDigit (min exponentLimit start) =
      some (min exponentLimit
        (digits.foldl (fun value digit => value * 10 + (digitValue digit 10).getD 0) start)) := by
  induction digits generalizing start with
  | nil => rfl
  | cons digit digits induction =>
    rw [foldlM_cons, addExponentDigit_eq (areDigits digit (by simp))]
    exact induction (fun other member => areDigits other (by simp [member])) _

theorem dropSign_text (sign : LiteralSign) {text : List Char}
    (unsigned : ∀ character ∈ text.head?, character ≠ '+' ∧ character ≠ '-') :
    dropSign (sign.text ++ text) = text ∧
      ((sign.text ++ text).head? == some '-') = sign.negative := by
  cases text with
  | nil => cases sign <;> simp [LiteralSign.text, dropSign, LiteralSign.negative]
  | cons character rest =>
    obtain ⟨notPlus, notMinus⟩ := unsigned character (by simp)
    cases sign <;> simp [LiteralSign.text, dropSign, LiteralSign.negative, notPlus, notMinus]

theorem parseExponent_eq (part : LiteralExponent) :
    parseExponent (part.sign.text ++ part.digits) =
      some (cutExponent (if part.sign.negative then -(digitsNumber 10 part.digits : ℤ)
        else digitsNumber 10 part.digits)) := by
  have unsigned : ∀ character ∈ part.digits.head?, character ≠ '+' ∧ character ≠ '-' := by
    intro character member
    have isDigit := mem_decimalDigits (part.decimal character (mem_of_mem_head? member))
    have only : ∀ other ∈ decimalDigits, other ≠ '+' ∧ other ≠ '-' := by decide
    exact only character isDigit
  obtain ⟨dropped, sign⟩ := dropSign_text part.sign unsigned
  have folded := foldlM_addExponentDigit part.decimal 0
  rw [parseExponent, dropped, sign, if_neg (by simpa using part.nonempty)]
  rw [Nat.min_zero] at folded
  rw [folded, ← digitsNumber]
  generalize digitsNumber 10 part.digits = number
  rw [map_some, some_inj, cutExponent]
  have limit : exponentLimit = 1000000000 := rfl
  split <;> omega

end Exponents

/-- What the last character of an unsuffixed literal can be. -/
def IsLast (character : Char) : Prop := character ∈ '.' :: decimalDigits

instance (character : Char) : Decidable (IsLast character) :=
  inferInstanceAs (Decidable (character ∈ '.' :: decimalDigits))

/-- The last character that is no digit. -/
def tailLetter (text : List Char) : Option Char := (text.reverse.dropWhile Char.isDigit).head?

variable {suffix : List Char}

theorem tailLetter_of_suffix {text : List Char} (isSuffix : suffix ∈ suffixes)
    (ends : suffix.isSuffixOf text = true) :
    (tailLetter text = some 'f' ∨ tailLetter text = some 'F') ∧
      ∃ digit ∈ text.getLast?, digit.isDigit = true := by
  obtain ⟨front, rfl⟩ := isSuffixOf_iff_suffix.mp ends
  have shapes : ∀ other ∈ suffixes, ∃ digit rest letter more, other.reverse = digit :: rest ∧
      digit.isDigit = true ∧ other.reverse.dropWhile Char.isDigit = letter :: more ∧
      (letter = 'f' ∨ letter = 'F') := by
    intro other member
    simp only [suffixes, mem_cons, not_mem_nil, or_false] at member
    rcases member with rfl | rfl | rfl | rfl | rfl | rfl | rfl | rfl | rfl | rfl <;>
      exact ⟨_, _, _, _, rfl, by decide, rfl, by decide⟩
  obtain ⟨digit, rest, letter, more, reversed, isDigit, dropped, isLetter⟩ := shapes suffix isSuffix
  constructor
  · have first : tailLetter (front ++ suffix) = some letter := by
      rw [tailLetter, reverse_append, dropWhile_append, dropped]
      simp
    rw [first]
    simpa using isLetter
  · refine ⟨digit, ?_, isDigit⟩
    rw [← head?_reverse, reverse_append, reversed]
    simp

theorem dropLastIf_concat (test : Char → Bool) (text : List Char) (last : Char) :
    dropLastIf test (text ++ [last]) = if test last then text else text ++ [last] := by
  simp [dropLastIf]

section Normalize

variable {front : List Char} {last : Char} (isLast : IsLast last)

include isLast

theorem dropLastIf_imaginary {imaginary : List Char} (isSuffix : suffix ∈ floatSuffixes ++ suffixes)
    (isImaginary : imaginary ∈ imaginarySuffixes) :
    dropLastIf isImaginarySuffix (front ++ [last] ++ suffix ++ imaginary) =
      front ++ [last] ++ suffix := by
  have unchanged : (front ++ [last] ++ suffix).getLast?.any isImaginarySuffix = false := by
    have plain : ∀ other ∈ '.' :: decimalDigits, isImaginarySuffix other = false := by decide
    have ends : ∀ other ∈ floatSuffixes ++ suffixes,
        other.getLast?.any isImaginarySuffix = false := by decide
    have end_ := ends suffix isSuffix
    rw [getLast?_append]
    cases isEnd : suffix.getLast? with
    | none => simpa using plain last isLast
    | some final =>
      rw [isEnd] at end_
      exact end_
  have letters : ∀ other ∈ imaginarySuffixes,
      other = [] ∨ ∃ letter, other = [letter] ∧ isImaginarySuffix letter = true := by
    intro other member
    simp only [imaginarySuffixes, mem_cons, not_mem_nil, or_false] at member
    rcases member with rfl | rfl | rfl | rfl | rfl
    · exact .inl rfl
    all_goals exact .inr ⟨_, rfl, by decide⟩
  rcases letters imaginary isImaginary with rfl | ⟨letter, rfl, isLetter⟩
  · rw [append_nil, dropLastIf, unchanged]
    simp
  · rw [dropLastIf_concat, if_pos isLetter]

/-- A literal without one of the long suffixes. -/
theorem drop_floatSuffix (isSuffix : suffix ∈ floatSuffixes) :
    dropLastIf isFloatSuffix (front ++ [last] ++ suffix) = front ++ [last] := by
  have plain : ∀ other ∈ '.' :: decimalDigits, isFloatSuffix other = false := by decide
  have letters : ∀ other ∈ floatSuffixes,
      other = [] ∨ ∃ letter, other = [letter] ∧ isFloatSuffix letter = true := by
    intro other member
    simp only [floatSuffixes, mem_cons, not_mem_nil, or_false] at member
    rcases member with rfl | rfl | rfl | rfl | rfl
    · exact .inl rfl
    all_goals exact .inr ⟨_, rfl, by decide⟩
  rcases letters suffix isSuffix with rfl | ⟨letter, rfl, isLetter⟩
  · rw [append_nil, dropLastIf_concat, plain last isLast]
    simp
  · rw [dropLastIf_concat, if_pos isLetter]

omit isLast in
theorem find_suffix_none (isSuffix : suffix ∈ floatSuffixes)
    (noLetter : tailLetter (front ++ [last]) ≠ some 'f' ∧ tailLetter (front ++ [last]) ≠ some 'F') :
    (suffixes.find? fun other =>
      decide (other.length < (front ++ [last] ++ suffix).length) &&
        other.isSuffixOf (front ++ [last] ++ suffix)) = none := by
  rw [find?_eq_none]
  intro other member
  rw [Bool.and_eq_true]
  rintro ⟨-, ends⟩
  obtain ⟨letter, digit, isEnd, isDigit⟩ := tailLetter_of_suffix member ends
  have letters : ∀ other ∈ floatSuffixes, other = [] ∨ ∃ letter, other = [letter] ∧
      letter.isDigit = false := by
    intro other member
    simp only [floatSuffixes, mem_cons, not_mem_nil, or_false] at member
    rcases member with rfl | rfl | rfl | rfl | rfl
    · exact .inl rfl
    all_goals exact .inr ⟨_, rfl, by decide⟩
  rcases letters suffix isSuffix with rfl | ⟨final, rfl, noDigit⟩
  · rw [append_nil] at letter
    rcases letter with lower | upper
    · exact noLetter.1 lower
    · exact noLetter.2 upper
  · rw [getLast?_concat, mem_some_iff] at isEnd
    subst isEnd
    rw [noDigit] at isDigit
    cases isDigit

theorem find_suffix_some (isSuffix : suffix ∈ suffixes) :
    (suffixes.find? fun other =>
      decide (other.length < (front ++ [last] ++ suffix).length) &&
        other.isSuffixOf (front ++ [last] ++ suffix)) = some suffix := by
  have plain : ∀ other ∈ '.' :: decimalDigits,
      ('b' == other) = false ∧ ('B' == other) = false := by decide
  obtain ⟨lower, upper⟩ := plain last isLast
  simp only [suffixes, mem_cons, not_mem_nil, or_false] at isSuffix
  rcases isSuffix with rfl | rfl | rfl | rfl | rfl | rfl | rfl | rfl | rfl | rfl <;>
    simp [suffixes, find?, isSuffixOf, isPrefixOf, lower, upper]

/-- Only sign and body of a literal are left. -/
theorem normalizeSpelling_eq {spelling suffix imaginary : List Char}
    (spells : spelling.filter (· != separator) = front ++ [last] ++ suffix ++ imaginary)
    (isSuffix : suffix ∈ floatSuffixes ++ suffixes) (isImaginary : imaginary ∈ imaginarySuffixes)
    (unnamed : isNamedValue (dropSign (front ++ [last] ++ suffix)) = false)
    (noLetter : tailLetter (front ++ [last]) ≠ some 'f' ∧ tailLetter (front ++ [last]) ≠ some 'F') :
    normalizeSpelling spelling = front ++ [last] := by
  simp only [normalizeSpelling, spells, dropLastIf_imaginary isLast isSuffix isImaginary, unnamed,
    Bool.false_eq_true, if_false]
  rcases mem_append.mp isSuffix with short | long
  · rw [find_suffix_none short noLetter]
    exact drop_floatSuffix isLast short
  · rw [find_suffix_some isLast long]
    dsimp only
    rw [length_append, Nat.add_sub_cancel, take_left]

end Normalize

namespace Literal

variable (literal : Literal)

theorem digit_mem {digit : Char} (member : digit ∈ literal.integer ++ literal.fractionDigits) :
    digit ∈ hexDigits ∧ (literal.hexMark = none → digit ∈ decimalDigits) := by
  have isDigit := literal.digits digit member
  refine ⟨mem_hexDigits isDigit, fun isDecimal => ?_⟩
  rw [isDecimal] at isDigit
  exact mem_decimalDigits isDigit

/-- The characters of the significand are digits and points. -/
theorem significand_mem {character : Char} (member : character ∈ literal.significandText) :
    character = '.' ∨ character ∈ hexDigits ∧
      (literal.hexMark = none → character ∈ decimalDigits) := by
  rw [significandText, mem_append] at member
  rcases member with inInteger | inFraction
  · exact .inr (literal.digit_mem (mem_append_left _ inInteger))
  · cases isFraction : literal.fraction with
    | none => simp [isFraction] at inFraction
    | some digits =>
      simp only [isFraction, map_some, getD_some, mem_cons] at inFraction
      rcases inFraction with isPoint | isDigit
      · exact .inl isPoint
      · refine .inr (literal.digit_mem (mem_append_right _ ?_))
        simpa [fractionDigits, isFraction] using isDigit

theorem significandText_ne_nil : literal.significandText ≠ [] := by
  have nonempty := literal.nonempty
  rw [significandText]
  intro isNil
  rw [append_eq_nil_iff] at isNil
  cases isFraction : literal.fraction with
  | none => simp [isFraction, isNil.1] at nonempty
  | some digits => simp [isFraction] at isNil

/-- Where a literal starts. -/
theorem body_head : ∃ first rest, literal.body = first :: rest ∧ first ∈ '.' :: decimalDigits := by
  cases isHex : literal.hexMark with
  | some mark =>
    refine ⟨'0', mark :: (literal.significandText ++
      (literal.exponent.map LiteralExponent.text).getD []), ?_, by decide⟩
    rw [body, isHex]
    rfl
  | none =>
    obtain ⟨first, rest, isText⟩ := exists_cons_of_ne_nil literal.significandText_ne_nil
    refine ⟨first, rest ++ (literal.exponent.map LiteralExponent.text).getD [], ?_, ?_⟩
    · rw [body, isHex, isText]
      rfl
    · rcases @Literal.significand_mem literal first (by simp [isText]) with
        isPoint | ⟨-, isDigit⟩
      · simp [isPoint]
      · exact mem_cons_of_mem _ (isDigit isHex)

theorem mark_eq {part : LiteralExponent} (isPart : literal.exponent = some part) :
    part.mark ∈ ['p', 'P', 'e', 'E'] := by
  have isMark := literal.isMark part isPart
  rw [isExponentMark] at isMark
  split at isMark <;> simp at isMark <;> rcases isMark with same | same <;> simp [same]

/-- A literal without suffix ends in digits, before which there is no digit. -/
theorem body_shape : ∃ start digits, literal.body = start ++ digits ∧
    (∀ digit ∈ digits, digit ∈ decimalDigits) ∧
    (∀ character ∈ start.getLast?, character ∈ ['.', 'p', 'P', 'e', 'E', '+', '-']) ∧
    (digits = [] → start.getLast? = some '.') := by
  cases isExponent : literal.exponent with
  | some part =>
    refine ⟨(literal.hexMark.map fun mark => ['0', mark]).getD [] ++ literal.significandText ++
      (part.mark :: part.sign.text), part.digits, ?_, ?_, ?_, ?_⟩
    · simp [body, isExponent, LiteralExponent.text]
    · exact fun digit member => mem_decimalDigits (part.decimal digit member)
    · intro character member
      have isMark := literal.mark_eq isExponent
      cases isSign : part.sign with
      | absent =>
        rw [isSign, LiteralSign.text, getLast?_concat, mem_some_iff] at member
        subst member
        simp only [mem_cons, not_mem_nil, or_false] at isMark ⊢
        tauto
      | plus | minus =>
        simp [isSign, LiteralSign.text, getLast?_append] at member
        simp [← member]
    · exact fun isNil => absurd isNil part.nonempty
  | none =>
    have isDecimal : literal.hexMark = none := by
      by_contra isHex
      have hasExponent := literal.hasExponent (isSome_iff_ne_none.mpr isHex)
      simp [isExponent] at hasExponent
    have digits := fun digit member => (@Literal.digit_mem literal digit member).2 isDecimal
    cases isFraction : literal.fraction with
    | some fraction =>
      refine ⟨literal.integer ++ ['.'], fraction, ?_, ?_, ?_, ?_⟩
      · simp [body, isExponent, isDecimal, significandText, isFraction]
      · intro digit member
        exact digits digit (by simp [fractionDigits, isFraction, member])
      · simp
      · simp
    | none =>
      refine ⟨[], literal.integer, ?_, ?_, ?_, ?_⟩
      · simp [body, isExponent, isDecimal, significandText, isFraction]
      · intro digit member
        exact digits digit (by simp [member])
      · simp
      · intro isNil
        have nonempty := literal.nonempty
        simp [isNil, isFraction] at nonempty

theorem body_last : ∃ front last, literal.body = front ++ [last] ∧ IsLast last := by
  obtain ⟨start, digits, isBody, areDigits, -, point⟩ := literal.body_shape
  rw [isBody]
  rcases eq_nil_or_concat digits with rfl | ⟨init, last, rfl⟩
  · rcases eq_nil_or_concat start with rfl | ⟨init, last, rfl⟩
    · simp at point
    · refine ⟨init, last, by simp, ?_⟩
      have isPoint := point rfl
      simp only [concat_eq_append, getLast?_concat, some_inj] at isPoint
      simp [IsLast, isPoint]
  · refine ⟨start ++ init, last, by simp, ?_⟩
    exact mem_cons_of_mem _ (areDigits last (by simp))

theorem tailLetter_body (sign : LiteralSign) :
    tailLetter (sign.text ++ literal.body) ≠ some 'f' ∧
      tailLetter (sign.text ++ literal.body) ≠ some 'F' := by
  obtain ⟨start, digits, isBody, areDigits, marks, -⟩ := literal.body_shape
  have all : ∀ other ∈ decimalDigits, other.isDigit = true := by decide
  have dropped : tailLetter (sign.text ++ literal.body) =
      ((start.reverse ++ sign.text.reverse).dropWhile Char.isDigit).head? := by
    rw [tailLetter, isBody, ← append_assoc, reverse_append, reverse_append,
      dropWhile_append_of_pos]
    intro digit member
    exact all digit (areDigits digit (mem_reverse.mp member))
  rw [dropped]
  rcases eq_nil_or_concat start with rfl | ⟨init, last, rfl⟩
  · cases sign <;> decide
  · have isMark := marks last (by simp)
    have plain : ∀ other ∈ ['.', 'p', 'P', 'e', 'E', '+', '-'], other.isDigit = false ∧
        other ≠ 'f' ∧ other ≠ 'F' := by decide
    obtain ⟨noDigit, notLower, notUpper⟩ := plain last isMark
    simp [noDigit, notLower, notUpper]

/-- The literal as the parser sees it. -/
theorem normalizeSpelling_text {spelling : List Char} (spells : literal.Spells spelling) :
    normalizeSpelling spelling = literal.sign.text ++ literal.body := by
  obtain ⟨front, last, isBody, isLast⟩ := literal.body_last
  obtain ⟨first, rest, isHead, isFirst⟩ := literal.body_head
  have letters := literal.tailLetter_body literal.sign
  have unsigned : ∀ character ∈ (literal.body ++ literal.suffix).head?,
      character ≠ '+' ∧ character ≠ '-' := by
    intro character member
    rw [isHead] at member
    have plain : ∀ other ∈ '.' :: decimalDigits, other ≠ '+' ∧ other ≠ '-' := by decide
    simp only [cons_append, head?_cons, mem_some_iff] at member
    exact member ▸ plain first isFirst
  have unnamed : isNamedValue (dropSign (literal.sign.text ++ (literal.body ++ literal.suffix))) =
      false := by
    rw [(dropSign_text literal.sign unsigned).1, isHead]
    have plain : ∀ other ∈ '.' :: decimalDigits, (other.toLower == 'i') = false ∧
        (other.toLower == 'n') = false := by decide
    obtain ⟨notI, notN⟩ := plain first isFirst
    simp [isNamedValue, caseEqual, notI, notN]
  have ends : literal.sign.text ++ literal.body = literal.sign.text ++ front ++ [last] := by
    rw [isBody, append_assoc]
  rw [ends]
  apply @normalizeSpelling_eq _ _ isLast _ literal.suffix literal.imaginary
  · rw [← ends]
    exact spells
  · exact literal.isSuffix
  · exact literal.isImaginary
  · rw [← ends, append_assoc]
    exact unnamed
  · rw [← ends]
    exact letters

theorem isHexadecimal_body : isHexadecimal literal.body = literal.hexMark.isSome := by
  cases isHex : literal.hexMark with
  | some mark =>
    rcases literal.isHexMark mark isHex with rfl | rfl <;> simp [body, isHex, isHexadecimal]
  | none =>
    -- a digit, a point or an exponent mark comes second
    have plain : ∀ other ∈ '.' :: decimalDigits ++ ['p', 'P', 'e', 'E'],
        (other == 'x' || other == 'X') = false := by decide
    have second : ∀ character ∈ (literal.body.drop 1).head?,
        (character == 'x' || character == 'X') = false := by
      intro character member
      apply plain
      obtain ⟨first, rest, isText⟩ := exists_cons_of_ne_nil literal.significandText_ne_nil
      have isBody : literal.body = first ::
          (rest ++ (literal.exponent.map LiteralExponent.text).getD []) := by
        rw [body, isHex, isText]
        rfl
      rw [isBody, drop_one, tail_cons] at member
      cases rest with
      | cons next rest =>
        simp only [cons_append, head?_cons, mem_some_iff] at member
        subst member
        rcases @Literal.significand_mem literal next (by simp [isText]) with
          isPoint | ⟨-, isDigit⟩
        · simp [isPoint]
        · exact mem_append_left _ (mem_cons_of_mem _ (isDigit isHex))
      | nil =>
        cases isExponent : literal.exponent with
        | none => simp [isExponent] at member
        | some part =>
          simp only [isExponent, LiteralExponent.text, map_some, getD_some,
            nil_append, head?_cons, mem_some_iff] at member
          subst member
          exact mem_append_right _ (literal.mark_eq isExponent)
    rw [isHexadecimal]
    cases isSecond : (literal.body.drop 1).head? with
    | none => simp
    | some character =>
      rw [any_some, second character isSecond, Bool.and_false]
      rfl

/-- The parser splits at the exponent mark. -/
theorem split_exponent :
    let rest := literal.significandText ++
      (literal.exponent.map LiteralExponent.text).getD []
    (rest.takeWhile fun character => !isExponentMark literal.hexMark.isSome character) =
        literal.significandText ∧
      (rest.dropWhile fun character => !isExponentMark literal.hexMark.isSome character) =
        (literal.exponent.map LiteralExponent.text).getD [] := by
  intro rest
  have unmarked : ∀ character ∈ literal.significandText,
      (!isExponentMark literal.hexMark.isSome character) = true := by
    intro character member
    have hexPlain : ∀ other ∈ '.' :: hexDigits, (!isExponentMark true other) = true := by decide
    have decimalPlain : ∀ other ∈ '.' :: decimalDigits, (!isExponentMark false other) = true := by
      decide
    rcases literal.significand_mem member with rfl | ⟨hex, decimal⟩
    · cases literal.hexMark.isSome <;> decide
    · cases isHex : literal.hexMark with
      | some mark => exact hexPlain _ (mem_cons_of_mem _ hex)
      | none => exact decimalPlain _ (mem_cons_of_mem _ (decimal isHex))
  simp only [rest]
  rw [takeWhile_append_of_pos unmarked, dropWhile_append_of_pos unmarked]
  cases isExponent : literal.exponent with
  | none => simp
  | some part => simp [LiteralExponent.text, literal.isMark part isExponent]

/-- It splits at the point. -/
theorem split_point :
    literal.significandText.takeWhile (· != '.') = literal.integer ∧
      (literal.significandText.dropWhile (· != '.')).drop 1 = literal.fractionDigits ∧
      literal.fractionDigits.contains '.' = false := by
  have plain : ∀ other ∈ hexDigits, (other != '.') = true := by decide
  have unpointed : ∀ digit ∈ literal.integer ++ literal.fractionDigits, (digit != '.') = true :=
    fun digit member => plain digit (literal.digit_mem member).1
  have integer : ∀ digit ∈ literal.integer, (digit != '.') = true :=
    fun digit member => unpointed digit (mem_append_left _ member)
  rw [significandText, takeWhile_append_of_pos integer, dropWhile_append_of_pos integer]
  refine ⟨?_, ?_, ?_⟩
  · cases literal.fraction <;> simp
  · cases isFraction : literal.fraction <;> simp [fractionDigits, isFraction]
  · rw [← Bool.not_eq_true, contains_iff_mem]
    intro isPoint
    have other := unpointed '.' (mem_append_right _ isPoint)
    simp at other

/-- The exponent that the parser reads. -/
theorem explicitExponent_eq :
    (if ((literal.exponent.map LiteralExponent.text).getD []).isEmpty then some 0
      else parseExponent (((literal.exponent.map LiteralExponent.text).getD []).drop 1)) =
      some (cutExponent literal.exponentNumber) := by
  cases isExponent : literal.exponent with
  | none => simp [exponentNumber, isExponent, cutExponent, exponentLimit]
  | some part =>
    simp only [map_some, getD_some, LiteralExponent.text, isEmpty_cons,
      Bool.false_eq_true, if_false, drop_one, tail_cons, exponentNumber, isExponent]
    exact parseExponent_eq part

/-- What the parser makes of a literal. -/
theorem parse_eq {spelling : List Char} (spells : literal.Spells spelling)
    {format : FloatFormat} {fmt : FloatFormatDescriptor} (known : descriptor format = some fmt)
    (control : FloatControl) :
    parse spelling format control =
      if literal.significand = 0 then { value := zero format literal.sign.negative }
      else if literal.hexMark.isSome then
        fromFloatResult (roundRational literal.sign.negative literal.significand 1
          (cutExponent literal.exponentNumber - literal.fractionDigits.length * 4) format control)
      else
        fromFloatResult (roundDecimal literal.sign.negative literal.significand
          (literal.integer ++ literal.fractionDigits).length
          (cutExponent literal.exponentNumber - literal.fractionDigits.length) format
          control) := by
  obtain ⟨first, rest, isHead, isFirst⟩ := literal.body_head
  have plain : ∀ other ∈ '.' :: decimalDigits, other ≠ '+' ∧ other ≠ '-' ∧
      (other.toLower == 'i') = false ∧ (other.toLower == 'n') = false := by decide
  obtain ⟨notPlus, notMinus, notI, notN⟩ := plain first isFirst
  obtain ⟨unsigned, negative⟩ := @dropSign_text literal.sign literal.body (by
    intro character member
    rw [isHead, head?_cons, mem_some_iff] at member
    exact member ▸ ⟨notPlus, notMinus⟩)
  have isKnown : (descriptor format).isNone = false := by rw [known]; rfl
  have notInf : (caseEqual literal.body "inf".toList ||
      caseEqual literal.body "infinity".toList) = false := by
    simp [isHead, caseEqual, notI]
  have notNan : caseEqual literal.body "nan".toList = false := by
    simp [isHead, caseEqual, notN]
  have notCall : isNanCall literal.body = false := by
    simp [isHead, isNanCall, notN]
  have isRest : (if literal.hexMark.isSome then literal.body.drop 2 else literal.body) =
      literal.significandText ++ (literal.exponent.map LiteralExponent.text).getD [] := by
    rw [body]
    cases literal.hexMark <;> simp
  obtain ⟨taken, dropped⟩ := literal.split_exponent
  obtain ⟨integer, fraction, noPoint⟩ := literal.split_point
  have marked : (((literal.exponent.map LiteralExponent.text).getD []).isEmpty &&
      literal.hexMark.isSome) = false := by
    cases isHex : literal.hexMark with
    | none => simp
    | some mark =>
      obtain ⟨part, isPart⟩ := isSome_iff_exists.mp (literal.hasExponent (by simp [isHex]))
      simp [isPart, LiteralExponent.text]
  have digits : parseBigDigits (literal.integer ++ literal.fractionDigits)
      (if literal.hexMark.isSome then 16 else 10) = some literal.significand :=
    parseBigDigits_eq literal.nonempty literal.digits
  simp only [parse, isKnown, Bool.false_eq_true, if_false, literal.normalizeSpelling_text spells,
    unsigned, negative, notInf, notNan, notCall]
  simp only [parseNumber, literal.isHexadecimal_body, isRest, taken, dropped,
    literal.explicitExponent_eq, marked, Bool.false_eq_true, if_false, integer, fraction, noPoint,
    digits]

end Literal

end Aburi.Numeric
