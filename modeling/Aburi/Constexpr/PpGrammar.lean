import Aburi.Constexpr.PpConstExpr

/-!
# The meaning of preprocessor expressions

The grammar of conditional expressions over integer and character constants,
and the value of an expression in `intmax_t` and `uintmax_t`: every expression
has a signedness that does not depend on what is evaluated, operands are
converted to a common type, and an expression without a value divides by zero
or shifts by an amount outside 0..63 in a part that is evaluated.
-/

namespace Aburi.Constexpr

inductive Expr where
  | leaf (token : Token)
  | paren (inner : Expr)
  | unary (op : UnaryOp) (inner : Expr)
  | binary (op : BinaryOp) (lhs rhs : Expr)
  | conditional (condition whenTrue whenFalse : Expr)

namespace BinaryOp

def token : BinaryOp → TokenType
  | mul => .multiply
  | div => .divide
  | mod => .modulo
  | add => .plus
  | sub => .negate
  | shl => .leftShift
  | shr => .rightShift
  | lt => .lessThan
  | le => .lessEqualThan
  | gt => .greaterThan
  | ge => .greaterEqualThan
  | eq => .equalTo
  | ne => .notEqual
  | bitAnd => .bitwiseAnd
  | bitXor => .bitwiseXor
  | bitOr => .bitwiseOr
  | logicalAnd => .logicalAnd
  | logicalOr => .logicalOr

/-- The level of the grammar at which the operator joins operands; 0 is the unary level. -/
def level : BinaryOp → ℕ
  | mul | div | mod => 1
  | add | sub => 2
  | shl | shr => 3
  | lt | le | gt | ge => 4
  | eq | ne => 5
  | bitAnd => 6
  | bitXor => 7
  | bitOr => 8
  | logicalAnd => 9
  | logicalOr => 10

end BinaryOp

def UnaryOp.token : UnaryOp → TokenType
  | plus => .plus
  | negate => .negate
  | bitwiseNot => .bitwiseNot
  | logicalNot => .logicalNot

/-- The level of conditional expressions. -/
abbrev conditionalLevel : ℕ := 11

/-- The tokens derive from a level of the grammar, with the tokens that are operands given. -/
inductive Derives (operand : Token → Prop) : ℕ → List Token → Expr → Prop
  | leaf {token : Token} : operand token → Derives operand 0 [token] (.leaf token)
  | paren {left right : Token} {tokens : List Token} {inner : Expr} :
      left.type = .leftParen → right.type = .rightParen →
      Derives operand conditionalLevel tokens inner →
      Derives operand 0 (left :: (tokens ++ [right])) (.paren inner)
  | unary {token : Token} {op : UnaryOp} {tokens : List Token} {inner : Expr} :
      token.type = op.token → Derives operand 0 tokens inner →
      Derives operand 0 (token :: tokens) (.unary op inner)
  | lift {level : ℕ} {tokens : List Token} {expr : Expr} :
      level < conditionalLevel → Derives operand level tokens expr →
      Derives operand (level + 1) tokens expr
  | binary {level : ℕ} {token : Token} {op : BinaryOp} {left right : List Token}
      {lhs rhs : Expr} :
      token.type = op.token → op.level = level + 1 →
      Derives operand (level + 1) left lhs → Derives operand level right rhs →
      Derives operand (level + 1) (left ++ token :: right) (.binary op lhs rhs)
  | conditional {question colon : Token} {first second third : List Token}
      {condition whenTrue whenFalse : Expr} :
      question.type = .question → colon.type = .colon →
      Derives operand 10 first condition →
      Derives operand conditionalLevel second whenTrue →
      Derives operand conditionalLevel third whenFalse →
      Derives operand conditionalLevel
        (first ++ question :: (second ++ colon :: third))
        (.conditional condition whenTrue whenFalse)

section Constants

/-- The value of a constant that some type of the preprocessor can represent. -/
def constantNumber (token : Token) : Option ℕ :=
  if isIntegerToken token.type then (integerConstantValue token.value).filter (· < 2 ^ 64)
  else none

def IsConstant (token : Token) : Prop :=
  (constantNumber token).isSome = true ∨ token.type = .charLiteral

instance (token : Token) : Decidable (IsConstant token) :=
  inferInstanceAs (Decidable (_ ∨ _))

/-- A constant is unsigned if it is written so or does not fit the signed type. -/
def constantUnsigned (token : Token) : Bool :=
  isUnsignedIntegerToken token.type || (constantNumber token).any (2 ^ 63 ≤ ·)

def constantBits (token : Token) : Option (BitVec 64) :=
  if isIntegerToken token.type then (constantNumber token).map (BitVec.ofNat 64)
  else if token.type = .charLiteral then some (parseCharLiteralBits token)
  else none

end Constants

/-- The number that the bits are in the signed or in the unsigned type. -/
def number (isUnsigned : Bool) (bits : BitVec 64) : ℤ :=
  if isUnsigned then bits.toNat else bits.toInt

def wrap (value : ℤ) : BitVec 64 := BitVec.ofInt 64 value

def truthBits (value : Bool) : BitVec 64 := if value then 1 else 0

/-- An operation that evaluates both its operands, converted to their common type; a shift
keeps the type of its left operand. -/
def applyBinary (op : BinaryOp) (leftUnsigned rightUnsigned : Bool)
    (left right : BitVec 64) : Option (BitVec 64) :=
  let common := leftUnsigned || rightUnsigned
  let a := number common left
  let b := number common right
  let amount := number rightUnsigned right
  match op with
  | .mul => some (wrap (a * b))
  | .div => if b = 0 then none else some (wrap (a.tdiv b))
  | .mod => if b = 0 then none else some (wrap (a.tmod b))
  | .add => some (wrap (a + b))
  | .sub => some (wrap (a - b))
  | .shl =>
    if 0 ≤ amount ∧ amount ≤ 63 then
      some (wrap (number leftUnsigned left * 2 ^ amount.toNat))
    else none
  | .shr =>
    if 0 ≤ amount ∧ amount ≤ 63 then some (wrap (number leftUnsigned left / 2 ^ amount.toNat))
    else none
  | .lt => some (truthBits (decide (a < b)))
  | .le => some (truthBits (decide (a ≤ b)))
  | .gt => some (truthBits (decide (a > b)))
  | .ge => some (truthBits (decide (a ≥ b)))
  | .eq => some (truthBits (decide (a = b)))
  | .ne => some (truthBits (decide (a ≠ b)))
  | .bitAnd => some (left &&& right)
  | .bitXor => some (left ^^^ right)
  | .bitOr => some (left ||| right)
  | .logicalAnd => some (truthBits (decide (left ≠ 0 ∧ right ≠ 0)))
  | .logicalOr => some (truthBits (decide (left ≠ 0 ∨ right ≠ 0)))

def applyUnary (op : UnaryOp) (isUnsigned : Bool) (bits : BitVec 64) : BitVec 64 :=
  match op with
  | .plus => bits
  | .negate => wrap (-number isUnsigned bits)
  | .bitwiseNot => ~~~bits
  | .logicalNot => truthBits (decide (bits = 0))

def BinaryOp.isTruth : BinaryOp → Bool
  | lt | le | gt | ge | eq | ne | logicalAnd | logicalOr => true
  | _ => false

namespace Expr

/-- The type of the expression is `uintmax_t`. -/
def isUnsigned : Expr → Bool
  | leaf token => constantUnsigned token
  | paren inner => inner.isUnsigned
  | unary .logicalNot _ => false
  | unary _ inner => inner.isUnsigned
  | binary .shl lhs _ => lhs.isUnsigned
  | binary .shr lhs _ => lhs.isUnsigned
  | binary op lhs rhs => !op.isTruth && (lhs.isUnsigned || rhs.isUnsigned)
  | conditional _ whenTrue whenFalse => whenTrue.isUnsigned || whenFalse.isUnsigned

/-- The value of the expression; `none` where an evaluated part has none. -/
def value : Expr → Option (BitVec 64)
  | leaf token => constantBits token
  | paren inner => inner.value
  | unary op inner => inner.value.map (applyUnary op inner.isUnsigned)
  | binary op lhs rhs =>
    match lhs.value with
    | none => none
    | some left =>
      if op = .logicalAnd ∧ left = 0 then some 0
      else if op = .logicalOr ∧ left ≠ 0 then some 1
      else
        match rhs.value with
        | none => none
        | some right => applyBinary op lhs.isUnsigned rhs.isUnsigned left right
  | conditional condition whenTrue whenFalse =>
    match condition.value with
    | none => none
    | some bits => if bits ≠ 0 then whenTrue.value else whenFalse.value

/-- All operands of the expression are constants. -/
def Proper : Expr → Prop
  | leaf token => IsConstant token
  | paren inner => inner.Proper
  | unary _ inner => inner.Proper
  | binary _ lhs rhs => lhs.Proper ∧ rhs.Proper
  | conditional condition whenTrue whenFalse =>
    condition.Proper ∧ whenTrue.Proper ∧ whenFalse.Proper

end Expr

/-- The tokens derive from the conditional expressions of C. -/
def DerivesC (tokens : List Token) (expr : Expr) : Prop :=
  Derives IsConstant conditionalLevel tokens expr

/-- The evaluation succeeds exactly on expressions that have a value, and it has the truth
value of that value. -/
def MeansWhatCSays (tokens : List Token) : Prop :=
  ((∃ result, evaluatePpConstantExpression tokens = .ok result) ↔
      ∃ expr, DerivesC tokens expr ∧ expr.value.isSome = true) ∧
    ∀ expr bits result, DerivesC tokens expr → expr.value = some bits →
      evaluatePpConstantExpression tokens = .ok result → (result ≠ 0 ↔ bits ≠ 0)

end Aburi.Constexpr
