import Aburi.Constexpr.PpTokens

/-!
# Evaluation of preprocessor expressions

The recursive descent that parses, types and evaluates the expression of an
`#if` in one pass.  A parser takes what is left of the tokens and returns the
value with what is left after it; its flag says whether the operand it parses
is evaluated.  All values have 64 bits.

The nesting of parentheses and of conditional expressions is bounded by a
number that the length of the input starts, and so are the loops.
-/

namespace Aburi.Constexpr

/-- A constant of 64 bits. -/
structure ConstIntValue where
  bits : BitVec 64
  isUnsigned : Bool
  deriving DecidableEq

namespace ConstIntValue

def fromSigned (value : ℤ) : ConstIntValue := ⟨BitVec.ofInt 64 value, false⟩

def fromUnsigned (value : BitVec 64) : ConstIntValue := ⟨value, true⟩

def toUnsignedU64 (value : ConstIntValue) : BitVec 64 := value.bits

def toSignedI64 (value : ConstIntValue) : ℤ := value.bits.toInt

/-- The cast to the width that the value has already. -/
def cast (value : ConstIntValue) (asUnsigned : Bool) : ConstIntValue := ⟨value.bits, asUnsigned⟩

end ConstIntValue

open ConstIntValue

/-- The message of a failure, with the spelling that ends it in one case. -/
structure EvalFailure where
  message : String
  spelling : List UInt8 := []
  loc : UInt32 := 0
  deriving DecidableEq

abbrev EvalResult (α : Type) := Except EvalFailure α

def makeZeroValue : ConstIntValue := fromSigned 0

def makeBoolValue (value : Bool) : ConstIntValue := fromSigned (if value then 1 else 0)

def isTruthy (value : ConstIntValue) : Bool := value.toUnsignedU64 != 0

def parseCharLiteralBits (token : Token) : BitVec 64 :=
  token.value.foldl (fun out c => out <<< 8 ||| BitVec.ofNat 64 c.toNat) 0

inductive BinaryOp where
  | mul | div | mod | add | sub | shl | shr | lt | le | gt | ge | eq | ne
  | bitAnd | bitXor | bitOr | logicalAnd | logicalOr
  deriving DecidableEq

inductive UnaryOp where
  | plus | negate | bitwiseNot | logicalNot
  deriving DecidableEq

section Operators

def useUnsignedComparison (lhs rhs : ConstIntValue) : Bool := lhs.isUnsigned || rhs.isUnsigned

/-- Addition, subtraction and multiplication: one operation for each signedness. -/
def evalArithmetic (unsignedOp : BitVec 64 → BitVec 64 → BitVec 64) (signedOp : ℤ → ℤ → ℤ)
    (lhs rhs : ConstIntValue) : ConstIntValue :=
  let asUnsigned := useUnsignedComparison lhs rhs
  let l := lhs.cast asUnsigned
  let r := rhs.cast asUnsigned
  if asUnsigned then fromUnsigned (unsignedOp l.toUnsignedU64 r.toUnsignedU64)
  else fromSigned (signedOp l.toSignedI64 r.toSignedI64)

def evalAdd : ConstIntValue → ConstIntValue → ConstIntValue := evalArithmetic (· + ·) (· + ·)

def evalSub : ConstIntValue → ConstIntValue → ConstIntValue := evalArithmetic (· - ·) (· - ·)

def evalMul : ConstIntValue → ConstIntValue → ConstIntValue := evalArithmetic (· * ·) (· * ·)

def constIntDiv (lhs rhs : ConstIntValue) : Option ConstIntValue :=
  if rhs.toUnsignedU64 = 0 then none
  else if lhs.isUnsigned then some (fromUnsigned (lhs.toUnsignedU64 / rhs.toUnsignedU64))
  else some (fromSigned (lhs.toSignedI64.tdiv rhs.toSignedI64))

def constIntMod (lhs rhs : ConstIntValue) : Option ConstIntValue :=
  if rhs.toUnsignedU64 = 0 then none
  else if lhs.isUnsigned then some (fromUnsigned (lhs.toUnsignedU64 % rhs.toUnsignedU64))
  else some (fromSigned (lhs.toSignedI64.tmod rhs.toSignedI64))

def evalDiv (lhs rhs : ConstIntValue) (loc : UInt32) : EvalResult ConstIntValue :=
  let asUnsigned := useUnsignedComparison lhs rhs
  match constIntDiv (lhs.cast asUnsigned) (rhs.cast asUnsigned) with
  | some value => .ok value
  | none => .error { message := "division by zero in preprocessor expression", loc := loc }

def evalMod (lhs rhs : ConstIntValue) (loc : UInt32) : EvalResult ConstIntValue :=
  let asUnsigned := useUnsignedComparison lhs rhs
  match constIntMod (lhs.cast asUnsigned) (rhs.cast asUnsigned) with
  | some value => .ok value
  | none => .error { message := "modulo by zero in preprocessor expression", loc := loc }

def invalidShift (loc : UInt32) : EvalFailure :=
  { message := "invalid shift amount in preprocessor expression", loc := loc }

def evalShiftLeft (lhs rhs : ConstIntValue) (loc : UInt32) : EvalResult ConstIntValue :=
  let l := lhs.cast lhs.isUnsigned
  let shift := (rhs.cast true).toUnsignedU64.toNat
  if 64 ≤ shift then .error (invalidShift loc)
  else .ok ⟨l.toUnsignedU64 <<< shift, l.isUnsigned⟩

def evalShiftRight (lhs rhs : ConstIntValue) (loc : UInt32) : EvalResult ConstIntValue :=
  let l := lhs.cast lhs.isUnsigned
  let shift := (rhs.cast true).toUnsignedU64.toNat
  if 64 ≤ shift then .error (invalidShift loc)
  else if l.isUnsigned then .ok (fromUnsigned (l.toUnsignedU64 >>> shift))
  else .ok (fromSigned (l.toSignedI64 >>> shift))

/-- A comparison of unsigned numbers or of signed ones. -/
def evalRelational (compare : ℤ → ℤ → Bool) (lhs rhs : ConstIntValue) : ConstIntValue :=
  let asUnsigned := useUnsignedComparison lhs rhs
  let l := lhs.cast asUnsigned
  let r := rhs.cast asUnsigned
  if asUnsigned then makeBoolValue (compare l.toUnsignedU64.toNat r.toUnsignedU64.toNat)
  else makeBoolValue (compare l.toSignedI64 r.toSignedI64)

def evalEquality (negated : Bool) (lhs rhs : ConstIntValue) : ConstIntValue :=
  let asUnsigned := useUnsignedComparison lhs rhs
  let eq := (lhs.cast asUnsigned).toUnsignedU64 == (rhs.cast asUnsigned).toUnsignedU64
  makeBoolValue (if negated then !eq else eq)

def evalBitwise (op : BitVec 64 → BitVec 64 → BitVec 64) (lhs rhs : ConstIntValue) :
    ConstIntValue :=
  let asUnsigned := useUnsignedComparison lhs rhs
  let l := lhs.cast asUnsigned
  let r := rhs.cast asUnsigned
  (fromUnsigned (op l.toUnsignedU64 r.toUnsignedU64)).cast asUnsigned

/-- The value of an operation whose operands are known; nothing is computed unevaluated. -/
def foldBinary (op : BinaryOp) (evaluate : Bool) (lhs rhs : ConstIntValue) (loc : UInt32) :
    EvalResult ConstIntValue :=
  if !evaluate then .ok makeZeroValue
  else
    match op with
    | .mul => .ok (evalMul lhs rhs)
    | .div => evalDiv lhs rhs loc
    | .mod => evalMod lhs rhs loc
    | .add => .ok (evalAdd lhs rhs)
    | .sub => .ok (evalSub lhs rhs)
    | .shl => evalShiftLeft lhs rhs loc
    | .shr => evalShiftRight lhs rhs loc
    | .lt => .ok (evalRelational (fun l r => decide (l < r)) lhs rhs)
    | .le => .ok (evalRelational (fun l r => decide (l ≤ r)) lhs rhs)
    | .gt => .ok (evalRelational (fun l r => decide (l > r)) lhs rhs)
    | .ge => .ok (evalRelational (fun l r => decide (l ≥ r)) lhs rhs)
    | .eq => .ok (evalEquality false lhs rhs)
    | .ne => .ok (evalEquality true lhs rhs)
    | .bitAnd => .ok (evalBitwise (· &&& ·) lhs rhs)
    | .bitXor => .ok (evalBitwise (· ^^^ ·) lhs rhs)
    | .bitOr => .ok (evalBitwise (· ||| ·) lhs rhs)
    | .logicalAnd => .ok (makeBoolValue (isTruthy lhs && isTruthy rhs))
    | .logicalOr => .ok (makeBoolValue (isTruthy lhs || isTruthy rhs))

/-- Whether the right operand is evaluated when the left one has been. -/
def rhsEvaluated (op : BinaryOp) (evaluate : Bool) (lhs : ConstIntValue) : Bool :=
  match op with
  | .logicalAnd => evaluate && isTruthy lhs
  | .logicalOr => evaluate && !isTruthy lhs
  | _ => evaluate

def foldUnary (op : UnaryOp) (evaluate : Bool) (inner : ConstIntValue) : ConstIntValue :=
  if !evaluate then makeZeroValue
  else
    match op with
    | .plus => inner.cast inner.isUnsigned
    | .negate =>
      if inner.isUnsigned then fromUnsigned (0 - inner.toUnsignedU64)
      else fromSigned (-inner.toSignedI64)
    | .bitwiseNot => (fromUnsigned (~~~inner.toUnsignedU64)).cast inner.isUnsigned
    | .logicalNot => makeBoolValue !isTruthy inner

/-- A token that stands where an operand is expected. -/
def evalLeaf (evaluate : Bool) (token : Token) : EvalResult ConstIntValue :=
  if isIntegerToken token.type then
    if !evaluate then .ok makeZeroValue
    else
      match parseIntegerLiteralU64 token.value with
      | none =>
        .error { message := "invalid integer literal in preprocessor expression",
                 loc := token.loc }
      | some parsed =>
        if isUnsignedIntegerToken token.type then .ok (fromUnsigned (BitVec.ofNat 64 parsed))
        else .ok (fromSigned (BitVec.ofNat 64 parsed).toInt)
  else if token.type = .charLiteral then
    if !evaluate then .ok makeZeroValue
    else .ok (fromSigned (parseCharLiteralBits token).toInt)
  else if !evaluate then .ok makeZeroValue
  else
    .error { message := "invalid token in preprocessor expression: ", spelling := token.value,
             loc := token.loc }

end Operators

abbrev Parser := Bool → List Token → EvalResult (ConstIntValue × List Token)

section Parsing

def unaryOperator : TokenType → Option UnaryOp
  | .plus => some .plus
  | .negate => some .negate
  | .bitwiseNot => some .bitwiseNot
  | .logicalNot => some .logicalNot
  | _ => none

def multiplicativeOperator : TokenType → Option BinaryOp
  | .multiply => some .mul
  | .divide => some .div
  | .modulo => some .mod
  | _ => none

def additiveOperator : TokenType → Option BinaryOp
  | .plus => some .add
  | .negate => some .sub
  | _ => none

def shiftOperator : TokenType → Option BinaryOp
  | .leftShift => some .shl
  | .rightShift => some .shr
  | _ => none

def relationalOperator : TokenType → Option BinaryOp
  | .lessThan => some .lt
  | .lessEqualThan => some .le
  | .greaterThan => some .gt
  | .greaterEqualThan => some .ge
  | _ => none

def equalityOperator : TokenType → Option BinaryOp
  | .equalTo => some .eq
  | .notEqual => some .ne
  | _ => none

/-- The level of a single operator. -/
def singleOperator (type : TokenType) (op : BinaryOp) (found : TokenType) : Option BinaryOp :=
  if found = type then some op else none

def parsePrimaryExpression (nested : Parser) : Parser
  | _, [] => .error { message := "Invalid constant expression in #if/#elif" }
  | evaluate, token :: rest =>
    if token.type = .leftParen then do
      let (inner, rest) ← nested evaluate rest
      match rest with
      | close :: after =>
        if close.type = .rightParen then
          pure (if evaluate then inner else makeZeroValue, after)
        else
          .error { message := "expected ')' in preprocessor expression", loc := close.loc }
      | [] => .error { message := "expected ')' in preprocessor expression" }
    else do
      let value ← evalLeaf evaluate token
      pure (value, rest)

def parseUnaryExpression (nested : Parser) (evaluate : Bool) :
    List Token → EvalResult (ConstIntValue × List Token)
  | [] => parsePrimaryExpression nested evaluate []
  | token :: rest =>
    match unaryOperator token.type with
    | some op => do
        let (inner, after) ← parseUnaryExpression nested evaluate rest
        pure (foldUnary op evaluate inner, after)
    | none => parsePrimaryExpression nested evaluate (token :: rest)

/-- The loop of a level: as long as an operator of the level follows. -/
def binaryLoop (operand : Parser) (operator : TokenType → Option BinaryOp) (evaluate : Bool) :
    ℕ → ConstIntValue → List Token → EvalResult (ConstIntValue × List Token)
  | 0, lhs, tokens => .ok (lhs, tokens)
  | _ + 1, lhs, [] => .ok (lhs, [])
  | bound + 1, lhs, token :: rest =>
    match operator token.type with
    | none => .ok (lhs, token :: rest)
    | some op => do
        let (rhs, after) ← operand (rhsEvaluated op evaluate lhs) rest
        let value ← foldBinary op evaluate lhs rhs token.loc
        binaryLoop operand operator evaluate bound value after

/-- An expression of a level: operands joined by its operators, to the left. -/
def parseBinary (operand : Parser) (operator : TokenType → Option BinaryOp) : Parser :=
  fun evaluate tokens => do
    let (lhs, after) ← operand evaluate tokens
    binaryLoop operand operator evaluate after.length lhs after

def parseMultiplicativeExpression (nested : Parser) : Parser :=
  parseBinary (parseUnaryExpression nested) multiplicativeOperator

def parseAdditiveExpression (nested : Parser) : Parser :=
  parseBinary (parseMultiplicativeExpression nested) additiveOperator

def parseShiftExpression (nested : Parser) : Parser :=
  parseBinary (parseAdditiveExpression nested) shiftOperator

def parseRelationalExpression (nested : Parser) : Parser :=
  parseBinary (parseShiftExpression nested) relationalOperator

def parseEqualityExpression (nested : Parser) : Parser :=
  parseBinary (parseRelationalExpression nested) equalityOperator

def parseBitwiseAndExpression (nested : Parser) : Parser :=
  parseBinary (parseEqualityExpression nested) (singleOperator .bitwiseAnd .bitAnd)

def parseBitwiseXorExpression (nested : Parser) : Parser :=
  parseBinary (parseBitwiseAndExpression nested) (singleOperator .bitwiseXor .bitXor)

def parseBitwiseOrExpression (nested : Parser) : Parser :=
  parseBinary (parseBitwiseXorExpression nested) (singleOperator .bitwiseOr .bitOr)

def parseLogicalAndExpression (nested : Parser) : Parser :=
  parseBinary (parseBitwiseOrExpression nested) (singleOperator .logicalAnd .logicalAnd)

def parseLogicalOrExpression (nested : Parser) : Parser :=
  parseBinary (parseLogicalAndExpression nested) (singleOperator .logicalOr .logicalOr)

/-- One conditional expression, with what parses the conditional expressions inside it. -/
def conditionalExpression (nested : Parser) : Parser := fun evaluate tokens => do
  let (condition, after) ← parseLogicalOrExpression nested evaluate tokens
  match after with
  | [] => pure (condition, [])
  | token :: rest =>
    if token.type = .question then do
      let condTruthy := evaluate && isTruthy condition
      let (trueBranch, afterTrue) ← nested condTruthy rest
      match afterTrue with
      | colon :: rest' =>
        if colon.type = .colon then do
          let (falseBranch, afterFalse) ← nested (evaluate && !condTruthy) rest'
          pure (if !evaluate then makeZeroValue
            else if condTruthy then trueBranch else falseBranch, afterFalse)
        else
          .error { message := "expected ':' in preprocessor conditional expression",
                   loc := colon.loc }
      | [] => .error { message := "expected ':' in preprocessor conditional expression" }
    else pure (condition, token :: rest)

def parseConditionalExpression : ℕ → Parser
  | 0 => fun _ _ => .error { message := "Invalid constant expression in #if/#elif" }
  | depth + 1 => conditionalExpression (parseConditionalExpression depth)

/-- The result of an `#if` expression as a signed number. -/
def evaluatePpConstantExpression (tokens : List Token) : EvalResult ℤ :=
  match tokens with
  | [] => .error { message := "Invalid constant expression in #if/#elif" }
  | _ =>
    match parseConditionalExpression tokens.length true tokens with
    | .error failure => .error failure
    | .ok (value, []) => .ok value.toSignedI64
    | .ok (_, token :: _) =>
      .error { message := "Invalid constant expression in #if/#elif", loc := token.loc }

end Parsing

end Aburi.Constexpr
