import Aburi.Numeric.FloatingPoint

/-!
# Parsing floating literals

Spellings are lists of characters.  The parser removes separators and suffixes,
splits the rest at the exponent mark and at the point, and hands the rational
number to the rounding routine, with two early exits for decimal spellings.
-/

namespace Aburi.Numeric

inductive ParseError where
  | none
  | invalidFormat
  | invalidSyntax
  | invalidPayload
  deriving DecidableEq

structure FloatParseResult where
  value : FloatValue := {}
  status : FloatStatus := {}
  error : ParseError := .none
  deriving DecidableEq

def fromFloatResult (result : FloatResult) : FloatParseResult :=
  { value := result.value
    status := result.status
    error := if result.error ≠ .none then .invalidFormat else .none }

def powerOfFive (exponent : ℕ) : ℕ := 5 ^ exponent

def digitValue (character : Char) (base : ℕ) : Option ℕ :=
  let value : Option ℕ :=
    if '0' ≤ character ∧ character ≤ '9' then some (character.toNat - 48)
    else if 'a' ≤ character ∧ character ≤ 'f' then some (character.toNat - 97 + 10)
    else if 'A' ≤ character ∧ character ≤ 'F' then some (character.toNat - 65 + 10)
    else none
  value.filter fun digit => decide (digit < base)

def addDigit (base value : ℕ) (character : Char) : Option ℕ :=
  (digitValue character base).map fun digit => value * base + digit

def parseBigDigits (digits : List Char) (base : ℕ) : Option ℕ :=
  if digits.isEmpty then none else digits.foldlM (addDigit base) 0

def caseEqual (lhs rhs : List Char) : Bool :=
  lhs.map Char.toLower == rhs.map Char.toLower

/-- The digit separator is an apostrophe. -/
def separator : Char := Char.ofNat 39

def isImaginarySuffix (character : Char) : Bool :=
  character == 'i' || character == 'I' || character == 'j' || character == 'J'

def isFloatSuffix (character : Char) : Bool :=
  character == 'f' || character == 'F' || character == 'l' || character == 'L'

def suffixes : List (List Char) :=
  ["bf16".toList, "BF16".toList, "f128".toList, "F128".toList, "f64".toList, "F64".toList,
    "f32".toList, "F32".toList, "f16".toList, "F16".toList]

/-- Removes the last character when it satisfies the test. -/
def dropLastIf (test : Char → Bool) (text : List Char) : List Char :=
  if text.getLast?.any test then text.dropLast else text

/-- Removes a sign. -/
def dropSign : List Char → List Char
  | [] => []
  | character :: rest =>
    if character = '+' ∨ character = '-' then rest else character :: rest

def isNamedValue (text : List Char) : Bool :=
  caseEqual text "inf".toList || caseEqual text "infinity".toList ||
    caseEqual text "nan".toList

def normalizeSpelling (spelling : List Char) : List Char :=
  let normalized := dropLastIf isImaginarySuffix (spelling.filter (· != separator))
  if isNamedValue (dropSign normalized) then normalized
  else
    match suffixes.find? fun suffix =>
        decide (suffix.length < normalized.length) && suffix.isSuffixOf normalized with
    | some suffix => normalized.take (normalized.length - suffix.length)
    | none => dropLastIf isFloatSuffix normalized

/-- The exponent saturates. -/
def exponentLimit : ℕ := 1000000000

def addExponentDigit (value : ℕ) (character : Char) : Option ℕ :=
  if character.isDigit then
    let digit := character.toNat - 48
    if (exponentLimit - digit) / 10 < value then some exponentLimit
    else some (value * 10 + digit)
  else none

def parseExponent (text : List Char) : Option ℤ :=
  let negative := text.head? == some '-'
  let digits := dropSign text
  if digits.isEmpty then none
  else
    (digits.foldlM addExponentDigit 0).map fun value : ℕ =>
      if negative then -(value : ℤ) else value

def nan (format : FloatFormat) (payloadText : List Char) (signaling negative : Bool) :
    FloatParseResult :=
  if (descriptor format).isNone then { error := .invalidFormat }
  else
    let hexadecimal := decide (2 < payloadText.length) &&
      payloadText.head? == some '0' &&
      (payloadText.drop 1).head?.any fun mark => mark == 'x' || mark == 'X'
    let base := if hexadecimal then 16 else 10
    let payloadText := if hexadecimal then payloadText.drop 2 else payloadText
    if payloadText.isEmpty then { value := makeNan format negative signaling 0 }
    else
      match parseBigDigits payloadText base with
      | none => { error := .invalidPayload }
      | some payload =>
        if 128 < payload.size then { error := .invalidPayload }
        else { value := makeNan format negative signaling payload }

def isNanCall (text : List Char) : Bool :=
  decide (5 ≤ text.length) && (text.take 3).map Char.toLower == "nan".toList &&
    (text.drop 3).head? == some '(' && text.getLast? == some ')'

def isHexadecimal (text : List Char) : Bool :=
  text.head? == some '0' && (text.drop 1).head?.any fun mark => mark == 'x' || mark == 'X'

def isExponentMark (hexadecimal : Bool) (character : Char) : Bool :=
  if hexadecimal then character == 'p' || character == 'P'
  else character == 'e' || character == 'E'

/-- Rounds the digits of a decimal spelling.  Very large and very small numbers
are told from the number of digits. -/
def roundDecimal (negative : Bool) (significand digitCount : ℕ) (decimalExponent : ℤ)
    (format : FloatFormat) (control : FloatControl) : FloatResult :=
  let adjustedDecimalExponent := digitCount + decimalExponent - 1
  if 6000 < adjustedDecimalExponent then overflowResult format negative control
  else if adjustedDecimalExponent < -6000 then tinyNonzeroResult format negative control
  else
    let numerator :=
      if 0 ≤ decimalExponent then significand * powerOfFive decimalExponent.toNat
      else significand
    let denominator :=
      if 0 ≤ decimalExponent then 1 else powerOfFive (-decimalExponent).toNat
    roundRational negative numerator denominator decimalExponent format control

/-- A spelling without sign and suffix that names no special value. -/
def parseNumber (negative : Bool) (normalized : List Char) (format : FloatFormat)
    (control : FloatControl) : FloatParseResult :=
  let hexadecimal := isHexadecimal normalized
  let body := if hexadecimal then normalized.drop 2 else normalized
  let significandText := body.takeWhile fun character => !isExponentMark hexadecimal character
  let marked := body.dropWhile fun character => !isExponentMark hexadecimal character
  let explicitExponent := if marked.isEmpty then some 0 else parseExponent (marked.drop 1)
  if marked.isEmpty && hexadecimal then { error := .invalidSyntax }
  else
    match explicitExponent with
    | none => { error := .invalidSyntax }
    | some explicitExponent =>
      let integer := significandText.takeWhile (· != '.')
      let fraction := (significandText.dropWhile (· != '.')).drop 1
      if fraction.contains '.' then { error := .invalidSyntax }
      else
        let digits := integer ++ fraction
        match parseBigDigits digits (if hexadecimal then 16 else 10) with
        | none => { error := .invalidSyntax }
        | some significand =>
          if significand = 0 then { value := zero format negative }
          else if hexadecimal then
            fromFloatResult (roundRational negative significand 1
              (explicitExponent - fraction.length * 4) format control)
          else
            fromFloatResult (roundDecimal negative significand digits.length
              (explicitExponent - fraction.length) format control)

def parse (spelling : List Char) (format : FloatFormat) (control : FloatControl := {}) :
    FloatParseResult :=
  if (descriptor format).isNone then { error := .invalidFormat }
  else
    let normalized := normalizeSpelling spelling
    let negative := normalized.head? == some '-'
    let normalized := dropSign normalized
    if caseEqual normalized "inf".toList || caseEqual normalized "infinity".toList then
      { value := infinity format negative }
    else if caseEqual normalized "nan".toList then nan format [] false negative
    else if isNanCall normalized then
      nan format ((normalized.drop 4).take (normalized.length - 5)) false negative
    else parseNumber negative normalized format control

example : (parse "0x1.8p1f".toList .ieeeBinary64).value.lowBits = 0x4008000000000000 := by
  decide

end Aburi.Numeric
