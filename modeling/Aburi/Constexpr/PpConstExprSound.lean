import Aburi.Constexpr.PpUnambiguous

/-!
# Evaluation against the meaning

Each operation of the evaluator computes what the operation of the language
does on the numbers that the bits stand for.  The evaluator departs from the
language in three places: a constant is signed unless its suffix says
otherwise, a conditional expression has the signedness of the arm it chooses,
and an operand that is not evaluated may be any token.  Where the first two
change no operation that is evaluated, the walk has the value of the expression.
-/

namespace Aburi.Constexpr

open ConstIntValue Option Nat
open BitVec (eq_of_toNat_eq ofInt_toInt toNat_ofNat)
open Bool (false_eq_true)

attribute [local grind =] Expr.value Expr.isUnsigned constantNumber foldBinary applyBinary

section Operations

theorem wrap_number (isUnsigned : Bool) (bits : BitVec 64) : wrap (number isUnsigned bits) = bits := by
  cases isUnsigned <;> simp [wrap, number]

variable {isUnsigned : Bool} {bits : BitVec 64}

theorem number_inj {bits' : BitVec 64} :
    number isUnsigned bits = number isUnsigned bits' ↔ bits = bits' := by
  constructor
  · intro equal
    rw [← wrap_number isUnsigned bits, equal, wrap_number]
  · rintro rfl
    rfl

theorem number_eq_zero :
    number isUnsigned bits = 0 ↔ bits = 0 := by
  have zero : number isUnsigned 0 = 0 := by cases isUnsigned <;> decide
  rw [← zero]
  exact number_inj

theorem wrap_add (value value' : ℤ) : wrap (value + value') = wrap value + wrap value' :=
  BitVec.ofInt_add value value'

theorem wrap_mul (value value' : ℤ) : wrap (value * value') = wrap value * wrap value' :=
  BitVec.ofInt_mul value value'

theorem wrap_neg (value : ℤ) : wrap (-value) = -wrap value := BitVec.ofInt_neg

theorem wrap_sub (value value' : ℤ) : wrap (value - value') = wrap value - wrap value' := by
  rw [sub_eq_add_neg, wrap_add, wrap_neg, BitVec.sub_eq_add_neg]

theorem wrap_natCast (value : ℕ) : wrap value = BitVec.ofNat 64 value :=
  BitVec.ofInt_natCast 64 value

/-- The amount of a shift is in range in one type exactly if its bits are. -/
theorem number_shiftAmount :
    (0 ≤ number isUnsigned bits ∧ number isUnsigned bits ≤ 63) ↔ bits.toNat < 64 := by
  cases isUnsigned
  · simp only [number, false_eq_true, if_false, BitVec.toInt_eq_toNat_cond]
    have := bits.isLt
    split <;> omega
  · simp only [number, if_true]
    omega

theorem number_toNat_of_small (small : bits.toNat < 64) :
    (number isUnsigned bits).toNat = bits.toNat := by
  cases isUnsigned
  · simp only [number, false_eq_true, if_false, BitVec.toInt_eq_toNat_cond]
    split <;> omega
  · simp [number]

theorem makeBoolValue_eq (value : Bool) : makeBoolValue value = ⟨truthBits value, false⟩ := by
  cases value <;> rfl

theorem isTruthy_eq (bits : BitVec 64) (isUnsigned : Bool) :
    isTruthy ⟨bits, isUnsigned⟩ = decide (bits ≠ 0) := by
  simp only [isTruthy, toUnsignedU64, bne, beq_eq_decide, decide_not]

def UnaryOp.resultUnsigned (op : UnaryOp) (isUnsigned : Bool) : Bool :=
  match op with
  | .logicalNot => false
  | _ => isUnsigned

/-- The signedness of an operation from that of its operands. -/
def BinaryOp.resultUnsigned (op : BinaryOp) (leftUnsigned rightUnsigned : Bool) : Bool :=
  match op with
  | .shl | .shr => leftUnsigned
  | op => !op.isTruth && (leftUnsigned || rightUnsigned)

variable (leftUnsigned rightUnsigned : Bool) (left right : BitVec 64)

theorem evalArithmetic_eq {unsignedOp : BitVec 64 → BitVec 64 → BitVec 64}
    {signedOp : ℤ → ℤ → ℤ}
    (commutes : ∀ value value', wrap (signedOp value value') = unsignedOp (wrap value) (wrap value')) :
    evalArithmetic unsignedOp signedOp ⟨left, leftUnsigned⟩ ⟨right, rightUnsigned⟩ =
      ⟨wrap (signedOp (number (leftUnsigned || rightUnsigned) left)
        (number (leftUnsigned || rightUnsigned) right)), leftUnsigned || rightUnsigned⟩ := by
  cases common : leftUnsigned || rightUnsigned
  · simp [evalArithmetic, useUnsignedComparison, common, fromSigned, ConstIntValue.cast,
      toSignedI64, number, wrap]
  · rw [commutes, wrap_number, wrap_number]
    simp [evalArithmetic, useUnsignedComparison, common, fromUnsigned, ConstIntValue.cast,
      toUnsignedU64]

theorem evalRelational_eq (compare : ℤ → ℤ → Bool) :
    evalRelational compare ⟨left, leftUnsigned⟩ ⟨right, rightUnsigned⟩ =
      ⟨truthBits (compare (number (leftUnsigned || rightUnsigned) left)
        (number (leftUnsigned || rightUnsigned) right)), false⟩ := by
  cases common : leftUnsigned || rightUnsigned <;>
    simp [evalRelational, useUnsignedComparison, common, makeBoolValue_eq, ConstIntValue.cast,
      toSignedI64, toUnsignedU64, number]

theorem evalEquality_eq (negated : Bool) :
    evalEquality negated ⟨left, leftUnsigned⟩ ⟨right, rightUnsigned⟩ =
      ⟨truthBits (if negated then decide (left ≠ right) else decide (left = right)), false⟩ := by
  simp only [evalEquality, makeBoolValue_eq, ConstIntValue.cast, toUnsignedU64, beq_eq_decide,
    decide_not]

theorem wrap_tdiv_unsigned :
    wrap ((number true left).tdiv (number true right)) = left / right := by
  have small : left.toNat / right.toNat < 2 ^ 64 := lt_of_le_of_lt (Nat.div_le_self _ _) left.isLt
  simp only [number, if_true, ← Int.ofNat_tdiv, wrap_natCast]
  apply eq_of_toNat_eq
  rw [toNat_ofNat, mod_eq_of_lt small, BitVec.toNat_udiv]

theorem wrap_tmod_unsigned :
    wrap ((number true left).tmod (number true right)) = left % right := by
  have small : left.toNat % right.toNat < 2 ^ 64 := lt_of_le_of_lt (mod_le _ _) left.isLt
  simp only [number, if_true, ← Int.ofNat_tmod, wrap_natCast]
  apply eq_of_toNat_eq
  rw [toNat_ofNat, mod_eq_of_lt small, BitVec.toNat_umod]

/-- Division and remainder, by what they compute on a divisor that is not zero. -/
theorem evalDivMod_eq (loc : UInt32) :
    (evalDiv ⟨left, leftUnsigned⟩ ⟨right, rightUnsigned⟩ loc).toOption =
        (applyBinary .div leftUnsigned rightUnsigned left right).map
          (⟨·, leftUnsigned || rightUnsigned⟩) ∧
      (evalMod ⟨left, leftUnsigned⟩ ⟨right, rightUnsigned⟩ loc).toOption =
        (applyBinary .mod leftUnsigned rightUnsigned left right).map
          (⟨·, leftUnsigned || rightUnsigned⟩) := by
  by_cases zero : right = 0#64
  · have zeroNumber : number (leftUnsigned || rightUnsigned) right = 0 := number_eq_zero.2 zero
    simp only [applyBinary, zeroNumber, if_true]
    simp [evalDiv, evalMod, constIntDiv, constIntMod, zero, ConstIntValue.cast, toUnsignedU64,
      Except.toOption]
  · have nonzero : number (leftUnsigned || rightUnsigned) right ≠ 0 := number_eq_zero.not.mpr zero
    simp only [applyBinary, if_neg nonzero]
    cases common : leftUnsigned || rightUnsigned
    · simp [evalDiv, evalMod, useUnsignedComparison, common, constIntDiv, constIntMod, zero,
        ConstIntValue.cast, toUnsignedU64, toSignedI64, fromSigned, number, wrap, Except.toOption]
    · simp [evalDiv, evalMod, useUnsignedComparison, common, constIntDiv, constIntMod, zero,
        ConstIntValue.cast, toUnsignedU64, fromUnsigned, wrap_tdiv_unsigned, wrap_tmod_unsigned,
        Except.toOption]

theorem wrap_shiftLeft (amount : ℕ) :
    wrap (number leftUnsigned left * 2 ^ amount) = left <<< amount := by
  have power : wrap (2 ^ amount) = BitVec.twoPow 64 amount := by
    have cast : ((2 : ℤ) ^ amount) = ((2 ^ amount : ℕ) : ℤ) := by push_cast; rfl
    rw [cast, wrap_natCast]
    apply eq_of_toNat_eq
    rw [toNat_ofNat, BitVec.toNat_twoPow]
  rw [wrap_mul, wrap_number, power, BitVec.shiftLeft_eq_mul_twoPow]

theorem wrap_shiftRight_unsigned (amount : ℕ) :
    wrap (number true left / 2 ^ amount) = left >>> amount := by
  have cast : number true left / 2 ^ amount = ((left.toNat / 2 ^ amount : ℕ) : ℤ) := by
    simp [number]
  have small : left.toNat / 2 ^ amount < 2 ^ 64 := lt_of_le_of_lt (Nat.div_le_self _ _) left.isLt
  rw [cast, wrap_natCast]
  apply eq_of_toNat_eq
  rw [toNat_ofNat, mod_eq_of_lt small, BitVec.toNat_ushiftRight,
    shiftRight_eq_div_pow]

theorem evalShiftLeft_eq (loc : UInt32) :
    (evalShiftLeft ⟨left, leftUnsigned⟩ ⟨right, rightUnsigned⟩ loc).toOption =
      (applyBinary .shl leftUnsigned rightUnsigned left right).map (⟨·, leftUnsigned⟩) := by
  simp only [evalShiftLeft, applyBinary, number_shiftAmount, ConstIntValue.cast, toUnsignedU64]
  by_cases small : right.toNat < 64
  · have inRange : ¬64 ≤ right.toNat := by omega
    simp only [inRange, if_false, small, if_true, number_toNat_of_small small, wrap_shiftLeft]
    rfl
  · have outOfRange : 64 ≤ right.toNat := by omega
    simp only [outOfRange, if_true, small, if_false]
    rfl

theorem evalShiftRight_eq (loc : UInt32) :
    (evalShiftRight ⟨left, leftUnsigned⟩ ⟨right, rightUnsigned⟩ loc).toOption =
      (applyBinary .shr leftUnsigned rightUnsigned left right).map (⟨·, leftUnsigned⟩) := by
  simp only [evalShiftRight, applyBinary, number_shiftAmount, ConstIntValue.cast, toUnsignedU64]
  by_cases small : right.toNat < 64
  · have inRange : ¬64 ≤ right.toNat := by omega
    simp only [inRange, if_false, small, if_true, number_toNat_of_small small]
    cases leftUnsigned
    · simp only [false_eq_true, if_false, toSignedI64, Int.shiftRight_eq_div_pow]
      simp [Except.toOption, fromSigned, number, wrap]
    · rw [wrap_shiftRight_unsigned]
      rfl
  · have outOfRange : 64 ≤ right.toNat := by omega
    simp only [outOfRange, if_true, small, if_false]
    rfl

theorem foldBinary_eq (op : BinaryOp) (loc : UInt32) :
    (foldBinary op true ⟨left, leftUnsigned⟩ ⟨right, rightUnsigned⟩ loc).toOption =
      (applyBinary op leftUnsigned rightUnsigned left right).map
        (⟨·, op.resultUnsigned leftUnsigned rightUnsigned⟩) := by
  simp only [foldBinary, Bool.not_true, false_eq_true, if_false]
  cases op
  case div => exact (evalDivMod_eq ..).1
  case mod => exact (evalDivMod_eq ..).2
  case shl => exact evalShiftLeft_eq ..
  case shr => exact evalShiftRight_eq ..
  case mul => simp only [evalMul, evalArithmetic_eq _ _ _ _ wrap_mul]; rfl
  case add => simp only [evalAdd, evalArithmetic_eq _ _ _ _ wrap_add]; rfl
  case sub => simp only [evalSub, evalArithmetic_eq _ _ _ _ wrap_sub]; rfl
  case lt | le | gt | ge => simp only [evalRelational_eq]; rfl
  case eq => simp only [evalEquality_eq, applyBinary, number_inj]; rfl
  case ne => simp only [evalEquality_eq, applyBinary, ne_eq, number_inj]; rfl
  case bitAnd | bitXor | bitOr => rfl
  case logicalAnd =>
    simp only [isTruthy_eq, makeBoolValue_eq, applyBinary, Bool.decide_and]
    rfl
  case logicalOr =>
    simp only [isTruthy_eq, makeBoolValue_eq, applyBinary, Bool.decide_or]
    rfl

/-- The bits of an operation on one operand do not depend on its type. -/
theorem applyUnary_eq (op : UnaryOp) (isUnsigned isUnsigned' : Bool) (bits : BitVec 64) :
    applyUnary op isUnsigned bits = applyUnary op isUnsigned' bits := by
  cases op
  case plus | bitwiseNot | logicalNot => rfl
  case negate => rw [applyUnary, applyUnary, wrap_neg, wrap_neg, wrap_number, wrap_number]

theorem foldUnary_eq (op : UnaryOp) (isUnsigned : Bool) (bits : BitVec 64) :
    foldUnary op true ⟨bits, isUnsigned⟩ =
      ⟨applyUnary op isUnsigned bits, op.resultUnsigned isUnsigned⟩ := by
  simp only [foldUnary, Bool.not_true, false_eq_true, if_false]
  cases op
  case plus | bitwiseNot => rfl
  case negate =>
    simp only [applyUnary]
    cases isUnsigned
    · rfl
    · rw [wrap_neg, wrap_number]
      simp [fromUnsigned, toUnsignedU64, UnaryOp.resultUnsigned]
  case logicalNot =>
    simp only [isTruthy_eq, makeBoolValue_eq, applyUnary, decide_not, Bool.not_not]
    rfl

end Operations

namespace Expr

/-- The type that the parser gives to an evaluated expression: a constant has that of its
suffix, a conditional expression that of the arm it chooses. -/
def parsedUnsigned : Expr → Bool
  | leaf token => isUnsignedIntegerToken token.type
  | paren inner => inner.parsedUnsigned
  | unary op inner => op.resultUnsigned inner.parsedUnsigned
  | binary op lhs rhs => op.resultUnsigned lhs.parsedUnsigned rhs.parsedUnsigned
  | conditional condition whenTrue whenFalse =>
    if condition.value = some 0 then whenFalse.parsedUnsigned else whenTrue.parsedUnsigned

/-- The left operand decides and the right one is not evaluated. -/
def stopsAt (op : BinaryOp) (left : BitVec 64) : Bool :=
  op == .logicalAnd && left == 0 || op == .logicalOr && left != 0

/-- Every operation that is evaluated has the same result on operands of the types that
the parser gives them as on operands of their types in the language. -/
def faithful : Expr → Bool
  | leaf _ => true
  | paren inner | unary _ inner => inner.faithful
  | binary op lhs rhs =>
    lhs.faithful && lhs.value.all fun left =>
      stopsAt op left || rhs.faithful && rhs.value.all fun right =>
        applyBinary op lhs.parsedUnsigned rhs.parsedUnsigned left right ==
          applyBinary op lhs.isUnsigned rhs.isUnsigned left right
  | conditional condition whenTrue whenFalse =>
    condition.faithful && condition.value.all fun bits =>
      if bits ≠ 0 then whenTrue.faithful else whenFalse.faithful

end Expr

section Walks

theorem evalLeaf_evaluated (token : Token) :
    (evalLeaf true token).toOption =
      (constantBits token).map (⟨·, isUnsignedIntegerToken token.type⟩) := by
  rw [evalLeaf, constantBits]
  by_cases integer : isIntegerToken token.type = true
  · rw [if_pos integer, if_pos integer, constantNumber, if_pos integer,
      ← parseIntegerLiteralU64_eq]
    cases parseIntegerLiteralU64 token.value with
    | none => rfl
    | some value =>
      cases isUnsignedIntegerToken token.type
      · simp only [Bool.not_true, false_eq_true, if_false, fromSigned, ofInt_toInt]
        rfl
      · rfl
  · rw [if_neg integer, if_neg integer]
    by_cases character : token.type = .charLiteral
    · simp only [Bool.not_true, false_eq_true, if_false, fromSigned, ofInt_toInt, character]
      rfl
    · simp [character, Except.toOption]

theorem walk_evaluated {expr : Expr} (faithful : expr.faithful = true) :
    walk true expr = expr.value.map (⟨·, expr.parsedUnsigned⟩) := by
  induction expr with
  | leaf token => exact evalLeaf_evaluated token
  | paren inner ih =>
    rw [walk, ih faithful, Expr.value, Expr.parsedUnsigned]
    cases inner.value <;> rfl
  | unary op inner ih =>
    rw [walk, ih faithful, Expr.value]
    cases inner.value with
    | none => rfl
    | some bits =>
      rw [map_some, map_some, map_some, map_some, foldUnary_eq,
        applyUnary_eq op inner.parsedUnsigned inner.isUnsigned]
      rfl
  | binary op lhs rhs leftIh rightIh =>
    rw [Expr.faithful, Bool.and_eq_true] at faithful
    obtain ⟨faithfulLeft, onward⟩ := faithful
    rw [walk, leftIh faithfulLeft, Expr.value, Expr.parsedUnsigned]
    cases leftValue : lhs.value with
    | none => rfl
    | some left =>
      simp only [map_some]
      by_cases stopsAnd : op = .logicalAnd ∧ left = 0
      · obtain ⟨rfl, rfl⟩ := stopsAnd
        simp only [rhsEvaluated, isTruthy_eq, ne_eq, not_true_eq_false, decide_false,
          Bool.and_false, walk_unevaluated, and_self, if_true]
        rfl
      · by_cases stopsOr : op = .logicalOr ∧ left ≠ 0
        · obtain ⟨rfl, nonzero⟩ := stopsOr
          have truthy : isTruthy ⟨left, lhs.parsedUnsigned⟩ = true :=
            (isTruthy_eq left lhs.parsedUnsigned).trans (decide_eq_true nonzero)
          rw [if_neg stopsAnd, if_pos ⟨rfl, nonzero⟩]
          simp only [rhsEvaluated, truthy, Bool.not_true, Bool.and_false, walk_unevaluated,
            foldBinary]
          rfl
        · have goesOn : Expr.stopsAt op left = false := by
            rw [Expr.stopsAt, Bool.or_eq_false_iff]
            constructor <;> apply Bool.eq_false_iff.2 <;> simp_all
          rw [leftValue, all_some, goesOn, Bool.false_or, Bool.and_eq_true] at onward
          have evaluated : rhsEvaluated op true ⟨left, lhs.parsedUnsigned⟩ = true := by
            cases op <;> simp_all [rhsEvaluated, isTruthy_eq]
          rw [evaluated, rightIh onward.1, if_neg stopsAnd, if_neg stopsOr]
          cases rightValue : rhs.value with
          | none => rfl
          | some right =>
            rw [rightValue, all_some, beq_iff_eq] at onward
            simp only [map_some, ← onward.2]
            exact foldBinary_eq ..
  | conditional condition whenTrue whenFalse conditionIh trueIh falseIh =>
    rw [Expr.faithful, Bool.and_eq_true] at faithful
    obtain ⟨faithfulCondition, arm⟩ := faithful
    rw [walk, conditionIh faithfulCondition, Expr.value, Expr.parsedUnsigned]
    cases conditionValue : condition.value with
    | none => rfl
    | some bits =>
      rw [conditionValue, all_some] at arm
      simp only [map_some, isTruthy_eq, Bool.true_and]
      by_cases zero : bits = 0
      · subst zero
        simp only [ne_eq, not_true_eq_false, if_false] at arm
        simp only [ne_eq, not_true_eq_false, decide_false, Bool.not_false, walk_unevaluated,
          falseIh arm, false_eq_true, Bool.not_true, if_false, if_true]
        cases whenFalse.value <;> rfl
      · simp only [ne_eq, zero, not_false_eq_true, if_true] at arm
        simp only [ne_eq, zero, not_false_eq_true, decide_true, Bool.not_true, walk_unevaluated,
          trueIh arm, if_true, false_eq_true, if_false, Option.some.injEq]
        cases whenTrue.value <;> rfl

end Walks

section Derivations

variable {level : ℕ} {tokens : List Token} {expr : Expr}

theorem operandLike_of_isConstant {token : Token} (constant : IsConstant token) :
    OperandLike token := by
  rcases constant with integer | character
  · rw [constantNumber] at integer
    split at integer
    · rename_i isInteger
      constructor
      · intro left
        rw [left] at isInteger
        exact absurd isInteger (by decide)
      · revert isInteger
        cases token.type <;> simp [isIntegerToken, unaryOperator]
    · simp at integer
  · rw [OperandLike, character]
    exact ⟨by decide, rfl⟩

/-- What derives from the grammar of the language derives from that of the parser. -/
theorem Derives.lax (derives : Derives IsConstant level tokens expr) :
    Derives OperandLike level tokens expr := by
  induction derives with
  | leaf constant => exact .leaf (operandLike_of_isConstant constant)
  | paren left right _ inner => exact .paren left right inner
  | unary operator _ inner => exact .unary operator inner
  | lift below _ inner => exact .lift below inner
  | binary operator atLevel _ _ lhs rhs => exact .binary operator atLevel lhs rhs
  | conditional question colon _ _ _ first second third =>
    exact .conditional question colon first second third

theorem Derives.strict (derives : Derives OperandLike level tokens expr)
    (proper : expr.Proper) : Derives IsConstant level tokens expr := by
  induction derives with
  | leaf _ => exact .leaf proper
  | paren left right _ inner => exact .paren left right (inner proper)
  | unary operator _ inner => exact .unary operator (inner proper)
  | lift below _ inner => exact .lift below (inner proper)
  | binary operator atLevel _ _ lhs rhs =>
    obtain ⟨properLeft, properRight⟩ := proper
    exact .binary operator atLevel (lhs properLeft) (rhs properRight)
  | conditional question colon _ _ _ first second third =>
    obtain ⟨properFirst, properSecond, properThird⟩ := proper
    exact .conditional question colon (first properFirst) (second properSecond) (third properThird)

theorem Derives.raise {operand : Token → Prop} (levels : ℕ)
    (below : level + levels ≤ conditionalLevel) (derives : Derives operand level tokens expr) :
    Derives operand (level + levels) tokens expr := by
  induction levels with
  | zero => exact derives
  | succ levels ih =>
    exact .lift (lt_of_succ_le below) (ih (le_of_succ_le below))

/-- The operands of a derivation of the language are constants. -/
theorem Derives.proper (derives : Derives IsConstant level tokens expr) : expr.Proper := by
  induction derives with
  | leaf constant => exact constant
  | paren _ _ _ inner | unary _ _ inner | lift _ _ inner => exact inner
  | binary _ _ _ _ lhs rhs => exact ⟨lhs, rhs⟩
  | conditional _ _ _ _ _ first second third => exact ⟨first, second, third⟩

end Derivations

section Departures

def constant (type : TokenType) (spelling : String) : Token :=
  { type := type, value := spelling.toList.map byte }

/-- `1 ? 18446744073709551615 - 2u : 3 / 0`. -/
def largestLessTwo : List Token :=
  [constant .integerConst "1", { type := .question },
    constant .integerConst "18446744073709551615", { type := .negate },
    constant .unsignedIntegerConst "2u", { type := .colon }, constant .integerConst "3",
    { type := .divide }, constant .integerConst "0"]

def largestLessTwoTree : Expr :=
  .conditional (.leaf (constant .integerConst "1"))
    (.binary .sub (.leaf (constant .integerConst "18446744073709551615"))
      (.leaf (constant .unsignedIntegerConst "2u")))
    (.binary .div (.leaf (constant .integerConst "3")) (.leaf (constant .integerConst "0")))

theorem largestLessTwo_derives :
    Derives OperandLike conditionalLevel largestLessTwo largestLessTwoTree := by
  have number : ∀ spelling, Derives OperandLike 0 [constant .integerConst spelling]
      (.leaf (constant .integerConst spelling)) := fun _ => .leaf ⟨nofun, rfl⟩
  have unsigned : Derives OperandLike 0 [constant .unsignedIntegerConst "2u"]
      (.leaf (constant .unsignedIntegerConst "2u")) := .leaf ⟨nofun, rfl⟩
  have difference : Derives OperandLike 2 _ _ :=
    @Derives.binary _ 1 { type := .negate } .sub _ _ _ _ rfl rfl
      ((number "18446744073709551615").raise 2 (by decide)) (unsigned.raise 1 (by decide))
  have quotient : Derives OperandLike 1 _ _ :=
    @Derives.binary _ 0 { type := .divide } .div _ _ _ _ rfl rfl
      ((number "3").raise 1 (by decide)) (number "0")
  exact @Derives.conditional _ { type := .question } { type := .colon } _ _ _ _ _ _ rfl rfl
    ((number "1").raise 10 (by decide)) (difference.raise 9 (by decide))
    (quotient.raise 10 (by decide))

end Departures

end Aburi.Constexpr
