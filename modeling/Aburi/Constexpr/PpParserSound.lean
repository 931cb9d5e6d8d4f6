import Aburi.Constexpr.PpGrammar
import Mathlib.Tactic.Common

/-!
# What the parser accepts

Parsing and evaluation are fused in the source.  Here they are taken apart: the
parser accepts what derives from the grammar in which every token but a
parenthesis and a unary operator is an operand, and its value is that of a walk
over the derivation.  Whether an operand is evaluated decides over the value of
a walk and not over the derivation.
-/

namespace Aburi.Constexpr

open List

/-- What the parser takes for an operand. -/
def OperandLike (token : Token) : Prop :=
  token.type ≠ .leftParen ∧ unaryOperator token.type = none

/-- The walk of the parser over an expression, without the locations. -/
def walk : Bool → Expr → Option ConstIntValue
  | evaluate, .leaf token => (evalLeaf evaluate token).toOption
  | evaluate, .paren inner =>
    (walk evaluate inner).map fun value => if evaluate then value else makeZeroValue
  | evaluate, .unary op inner => (walk evaluate inner).map (foldUnary op evaluate)
  | evaluate, .binary op lhs rhs =>
    match walk evaluate lhs with
    | none => none
    | some left =>
      match walk (rhsEvaluated op evaluate left) rhs with
      | none => none
      | some right => (foldBinary op evaluate left right 0).toOption
  | evaluate, .conditional condition whenTrue whenFalse =>
    match walk evaluate condition with
    | none => none
    | some decided =>
      match walk (evaluate && isTruthy decided) whenTrue,
          walk (evaluate && !(evaluate && isTruthy decided)) whenFalse with
      | some trueBranch, some falseBranch =>
        some (if !evaluate then makeZeroValue
          else if evaluate && isTruthy decided then trueBranch else falseBranch)
      | _, _ => none

attribute [local grind =] walk

/-- The operators of a level. -/
def levelOperator : ℕ → TokenType → Option BinaryOp
  | 1 => multiplicativeOperator
  | 2 => additiveOperator
  | 3 => shiftOperator
  | 4 => relationalOperator
  | 5 => equalityOperator
  | 6 => singleOperator .bitwiseAnd .bitAnd
  | 7 => singleOperator .bitwiseXor .bitXor
  | 8 => singleOperator .bitwiseOr .bitOr
  | 9 => singleOperator .logicalAnd .logicalAnd
  | 10 => singleOperator .logicalOr .logicalOr
  | _ => fun _ => none

attribute [local grind =] unaryOperator equalityOperator additiveOperator shiftOperator
  levelOperator

/-- The parsers of the levels below the conditional expressions. -/
def parseLevel (nested : Parser) : ℕ → Parser
  | 0 => parseUnaryExpression nested
  | level + 1 => parseBinary (parseLevel nested level) (levelOperator (level + 1))

theorem parseLogicalOrExpression_eq (nested : Parser) :
    parseLogicalOrExpression nested = parseLevel nested 10 := rfl

variable {op : BinaryOp} {evaluate : Bool} {token : Token} {value : ConstIntValue}

section Operators

theorem BinaryOp.token_injective {op' : BinaryOp} (equal : op.token = op'.token) :
    op = op' := by
  cases op <;> cases op' <;> first | rfl | exact absurd equal (by decide)

theorem BinaryOp.level_pos (op : BinaryOp) : 0 < op.level := by
  cases op <;> decide

theorem BinaryOp.level_le (op : BinaryOp) : op.level ≤ 10 := by
  cases op <;> decide

theorem levelOperator_of_token (op : BinaryOp) : levelOperator op.level op.token = some op := by
  cases op <;> rfl

theorem singleOperator_eq_some {type found : TokenType} {op' : BinaryOp}
    (equal : singleOperator type op found = some op') : found = type ∧ op = op' := by
  rw [singleOperator] at equal
  split at equal
  · exact ⟨by assumption, by simpa using equal⟩
  · simp at equal

theorem token_of_levelOperator {level : ℕ} {type : TokenType}
    (found : levelOperator level type = some op) : type = op.token ∧ op.level = level := by
  unfold levelOperator at found
  split at found
  case h_1 =>
    unfold multiplicativeOperator at found
    split at found <;> simp at found <;> subst found <;> exact ⟨rfl, rfl⟩
  case h_2 =>
    unfold additiveOperator at found
    split at found <;> simp at found <;> subst found <;> exact ⟨rfl, rfl⟩
  case h_3 =>
    unfold shiftOperator at found
    split at found <;> simp at found <;> subst found <;> exact ⟨rfl, rfl⟩
  case h_4 =>
    unfold relationalOperator at found
    split at found <;> simp at found <;> subst found <;> exact ⟨rfl, rfl⟩
  case h_5 =>
    unfold equalityOperator at found
    split at found <;> simp at found <;> subst found <;> exact ⟨rfl, rfl⟩
  case h_11 => simp at found
  all_goals
    obtain ⟨rfl, rfl⟩ := singleOperator_eq_some found
    exact ⟨rfl, rfl⟩

theorem unaryOperator_eq_some {type : TokenType} {op : UnaryOp} :
    unaryOperator type = some op ↔ type = op.token := by
  constructor
  · intro found
    unfold unaryOperator at found
    split at found <;> simp at found <;> subst found <;> rfl
  · rintro rfl
    cases op <;> rfl

/-- Where an operation fails is reported, and does not decide whether it does. -/
theorem foldBinary_toOption (op : BinaryOp) (evaluate : Bool) (lhs rhs : ConstIntValue)
    (loc : UInt32) :
    (foldBinary op evaluate lhs rhs loc).toOption =
      (foldBinary op evaluate lhs rhs 0).toOption := by
  unfold foldBinary
  split
  · rfl
  · cases op
    case div =>
      simp only [evalDiv]
      split <;> rfl
    case mod =>
      simp only [evalMod]
      split <;> rfl
    case shl =>
      simp only [evalShiftLeft]
      split <;> rfl
    case shr =>
      simp only [evalShiftRight]
      split
      · rfl
      · split <;> rfl
    all_goals rfl

theorem foldBinary_eq_ok {op : BinaryOp} {evaluate : Bool} {lhs rhs value : ConstIntValue}
    {loc : UInt32} :
    foldBinary op evaluate lhs rhs loc = .ok value ↔
      (foldBinary op evaluate lhs rhs 0).toOption = some value := by
  rw [← foldBinary_toOption op evaluate lhs rhs loc]
  cases foldBinary op evaluate lhs rhs loc <;> simp [Except.toOption]

theorem evalLeaf_eq_ok :
    evalLeaf evaluate token = .ok value ↔ walk evaluate (.leaf token) = some value := by
  rw [walk]
  cases evalLeaf evaluate token <;> simp [Except.toOption]

end Operators

/-- What is left does not continue an expression of the level. -/
def Stops (level : ℕ) : List Token → Prop
  | [] => True
  | token :: _ =>
    (∀ op : BinaryOp, op.level ≤ level → token.type ≠ op.token) ∧
      (level = conditionalLevel → token.type ≠ .question)

attribute [local grind =] levelOperator binaryLoop parseUnaryExpression parsePrimaryExpression

theorem Stops.zero (tokens : List Token) : Stops 0 tokens := by
  cases tokens with
  | nil => trivial
  | cons token rest =>
    constructor
    · intro op low
      have := op.level_pos
      omega
    · intro wrong
      simp at wrong

variable {tokens : List Token} {expr : Expr}

theorem derives_length_pos {operand : Token → Prop} {level : ℕ}
    (derives : Derives operand level tokens expr) : 0 < tokens.length := by
  induction derives with
  | leaf | paren | unary | binary | conditional => simp
  | lift _ _ ih => exact ih

/-- The parser follows the grammar of the level, on inputs of bounded length. -/
structure Follows (level bound : ℕ) (parser : Parser) : Prop where
  sound : ∀ evaluate tokens value rest, tokens.length ≤ bound →
    parser evaluate tokens = .ok (value, rest) →
    ∃ consumed expr, tokens = consumed ++ rest ∧
      Derives OperandLike level consumed expr ∧ walk evaluate expr = some value ∧
      Stops level rest
  complete : ∀ evaluate consumed rest expr value, (consumed ++ rest).length ≤ bound →
    Derives OperandLike level consumed expr → walk evaluate expr = some value →
    Stops level rest → parser evaluate (consumed ++ rest) = .ok (value, rest)

variable {rest consumed : List Token}

section Unary

variable {nested : Parser} {bound : ℕ}

section

variable (nestedFollows : Follows conditionalLevel bound nested)
include nestedFollows

theorem parsePrimaryExpression_sound (short : tokens.length ≤ bound)
    (notUnary : unaryOperator token.type = none)
    (parsed : parsePrimaryExpression nested evaluate (token :: tokens) = .ok (value, rest)) :
    ∃ consumed expr, token :: tokens = consumed ++ rest ∧
      Derives OperandLike 0 consumed expr ∧ walk evaluate expr = some value := by
  rw [parsePrimaryExpression] at parsed
  split at parsed
  case isTrue isLeft =>
    cases inner : nested evaluate tokens with
    | error failure => simp [inner, bind, Except.bind] at parsed
    | ok result =>
      obtain ⟨innerValue, innerRest⟩ := result
      simp only [inner, bind, Except.bind] at parsed
      cases innerRest with
      | nil => simp at parsed
      | cons close after =>
        simp only at parsed
        split at parsed
        case isFalse => simp at parsed
        case isTrue isRight =>
          simp only [pure, Except.pure, Except.ok.injEq, Prod.mk.injEq] at parsed
          obtain ⟨rfl, rfl⟩ := parsed
          obtain ⟨consumed, expr, split, derives, walked, -⟩ :=
            nestedFollows.sound _ _ _ _ short inner
          refine ⟨token :: (consumed ++ [close]), .paren expr, ?_,
            .paren isLeft isRight derives, ?_⟩
          · rw [split]
            simp
          · simp [walk, walked]
  case isFalse notLeft =>
    cases leaf : evalLeaf evaluate token with
    | error failure => simp [leaf, bind, Except.bind] at parsed
    | ok leafValue =>
      simp only [leaf, bind, Except.bind, pure, Except.pure, Except.ok.injEq,
        Prod.mk.injEq] at parsed
      obtain ⟨rfl, rfl⟩ := parsed
      exact ⟨[token], .leaf token, rfl, .leaf ⟨notLeft, notUnary⟩, evalLeaf_eq_ok.1 leaf⟩

theorem parseUnaryExpression_sound (short : tokens.length ≤ bound + 1)
    (parsed : parseUnaryExpression nested evaluate tokens = .ok (value, rest)) :
    ∃ consumed expr, tokens = consumed ++ rest ∧
      Derives OperandLike 0 consumed expr ∧ walk evaluate expr = some value := by
  induction tokens generalizing value rest with
  | nil => simp [parseUnaryExpression, parsePrimaryExpression] at parsed
  | cons token tokens ih =>
    rw [length_cons] at short
    rw [parseUnaryExpression] at parsed
    split at parsed
    case h_1 op isOperator =>
      cases inner : parseUnaryExpression nested evaluate tokens with
      | error failure => simp [inner, bind, Except.bind] at parsed
      | ok result =>
        obtain ⟨innerValue, innerRest⟩ := result
        simp only [inner, bind, Except.bind, pure, Except.pure, Except.ok.injEq,
          Prod.mk.injEq] at parsed
        obtain ⟨rfl, rfl⟩ := parsed
        obtain ⟨consumed, expr, split, derives, walked⟩ :=
          ih (by omega) inner
        refine ⟨token :: consumed, .unary op expr, by rw [split]; rfl,
          .unary (unaryOperator_eq_some.1 isOperator) derives, ?_⟩
        simp [walk, walked]
    case h_2 notOperator =>
      exact parsePrimaryExpression_sound nestedFollows (by omega) notOperator parsed

theorem parseUnaryExpression_complete (short : (consumed ++ rest).length ≤ bound + 1)
    (derives : Derives OperandLike 0 consumed expr) (walked : walk evaluate expr = some value) :
    parseUnaryExpression nested evaluate (consumed ++ rest) = .ok (value, rest) := by
  induction consumed generalizing expr value with
  | nil => exact absurd (derives_length_pos derives) (by simp)
  | cons token tokens ih =>
    cases derives with
    | leaf operandLike =>
      simp only [cons_append, nil_append, parseUnaryExpression, operandLike.2,
        parsePrimaryExpression, if_neg operandLike.1, evalLeaf_eq_ok.2 walked]
      rfl
    | @paren _ right innerTokens inner isLeft isRight innerDerives =>
      have notUnary : unaryOperator token.type = none := by
        rw [isLeft]
        rfl
      rw [walk] at walked
      obtain ⟨innerValue, innerWalked, rfl⟩ := Option.map_eq_some_iff.mp walked
      have innerShort : (innerTokens ++ right :: rest).length ≤ bound := by
        simp only [cons_append, append_assoc, length_cons,
          length_append, length_nil] at short ⊢
        omega
      have stops : Stops conditionalLevel (right :: rest) := by
        rw [Stops, isRight]
        constructor
        · intro op _
          cases op <;> decide
        · intro _
          decide
      have parsed := nestedFollows.complete evaluate innerTokens (right :: rest) inner
        innerValue innerShort innerDerives innerWalked stops
      simp only [cons_append, append_assoc, nil_append,
        parseUnaryExpression, notUnary, parsePrimaryExpression, if_pos isLeft, parsed]
      simp only [bind, Except.bind, if_pos isRight]
      rfl
    | @unary _ op _ inner isOperator innerDerives =>
      rw [walk] at walked
      obtain ⟨innerValue, innerWalked, rfl⟩ := Option.map_eq_some_iff.mp walked
      have innerShort : (tokens ++ rest).length ≤ bound + 1 := by
        simp only [cons_append, length_cons] at short
        omega
      have parsed := ih innerShort innerDerives innerWalked
      simp only [cons_append, parseUnaryExpression,
        unaryOperator_eq_some.2 isOperator, parsed]
      rfl

theorem parseUnaryExpression_follows :
    Follows 0 (bound + 1) (parseUnaryExpression nested) := by
  constructor
  · intro evaluate tokens value rest short parsed
    obtain ⟨consumed, expr, split, derives, walked⟩ :=
      parseUnaryExpression_sound nestedFollows short parsed
    exact ⟨consumed, expr, split, derives, walked, .zero rest⟩
  · intro evaluate consumed rest expr value short derives walked _
    exact parseUnaryExpression_complete nestedFollows short derives walked

end

end Unary

section Levels

variable {level bound : ℕ} {operand : Parser}

theorem Stops.of_succ (low : level < 10) (stops : Stops (level + 1) tokens) :
    Stops level tokens := by
  cases tokens with
  | nil => trivial
  | cons token rest =>
    refine ⟨fun op below => stops.1 op (by omega), fun wrong => ?_⟩
    simp only [conditionalLevel] at wrong
    omega

theorem stops_of_operator (isOperator : token.type = op.token) (above : op.level = level + 1)
    (low : level < 10) (rest : List Token) :
    Stops level (token :: rest) := by
  constructor
  · intro other below sameToken
    rw [isOperator] at sameToken
    have : op = other := BinaryOp.token_injective sameToken
    subst this
    omega
  · intro wrong
    simp only [conditionalLevel] at wrong
    omega

theorem stops_succ (low : level < 10) (stops : Stops level tokens)
    (noOperator : ∀ token rest, tokens = token :: rest →
      levelOperator (level + 1) token.type = none) : Stops (level + 1) tokens := by
  cases tokens with
  | nil => trivial
  | cons token rest =>
    constructor
    · intro op below sameToken
      rcases Nat.lt_or_ge op.level (level + 1) with lower | atLevel
      · exact stops.1 op (by omega) sameToken
      · have exact_level : op.level = level + 1 := by omega
        have found := levelOperator_of_token op
        rw [exact_level, ← sameToken, noOperator token rest rfl] at found
        simp at found
    · intro wrong
      simp only [conditionalLevel] at wrong
      omega

theorem binaryLoop_stops {count : ℕ} (stops : Stops (level + 1) rest) :
    binaryLoop operand (levelOperator (level + 1)) evaluate count value rest =
      .ok (value, rest) := by
  cases count with
  | zero => rfl
  | succ count =>
    cases rest with
    | nil => rfl
    | cons token rest =>
      rw [binaryLoop]
      split
      case h_1 => rfl
      case h_2 op found =>
        obtain ⟨sameToken, atLevel⟩ := token_of_levelOperator found
        exact absurd sameToken (stops.1 op (by omega))

theorem binaryLoop_step {count : ℕ} {left right : ConstIntValue}
    (isOperator : token.type = op.token) (atLevel : op.level = level + 1)
    (parsed : operand (rhsEvaluated op evaluate left) tokens = .ok (right, rest))
    (folded : (foldBinary op evaluate left right 0).toOption = some value) :
    binaryLoop operand (levelOperator (level + 1)) evaluate (count + 1) left (token :: tokens) =
      binaryLoop operand (levelOperator (level + 1)) evaluate count value rest := by
  have found := levelOperator_of_token op
  rw [atLevel, ← isOperator] at found
  have result := (@foldBinary_eq_ok op evaluate left right value token.loc).mpr folded
  simp only [binaryLoop, found, parsed, bind, Except.bind, result]

theorem binaryLoop_sound (low : level < 10) (operandFollows : Follows level bound operand)
    {count : ℕ} {left : ConstIntValue} {before : List Token} (enough : tokens.length ≤ count)
    (short : tokens.length ≤ bound) (stops : Stops level tokens)
    (derives : Derives OperandLike (level + 1) before expr)
    (walked : walk evaluate expr = some left)
    (parsed : binaryLoop operand (levelOperator (level + 1)) evaluate count left tokens =
      .ok (value, rest)) :
    ∃ consumed expr', tokens = consumed ++ rest ∧
      Derives OperandLike (level + 1) (before ++ consumed) expr' ∧
      walk evaluate expr' = some value ∧ Stops (level + 1) rest := by
  induction count generalizing left before tokens expr with
  | zero =>
    have empty : tokens = [] := eq_nil_of_length_eq_zero (by omega)
    subst empty
    simp only [binaryLoop, Except.ok.injEq, Prod.mk.injEq] at parsed
    obtain ⟨rfl, rfl⟩ := parsed
    exact ⟨[], expr, rfl, by simpa using derives, walked, trivial⟩
  | succ count ih =>
    cases tokens with
    | nil =>
      simp only [binaryLoop, Except.ok.injEq, Prod.mk.injEq] at parsed
      obtain ⟨rfl, rfl⟩ := parsed
      exact ⟨[], expr, rfl, by simpa using derives, walked, trivial⟩
    | cons token tokens =>
      rw [length_cons] at enough short
      rw [binaryLoop] at parsed
      split at parsed
      case h_1 noOperator =>
        simp only [Except.ok.injEq, Prod.mk.injEq] at parsed
        obtain ⟨rfl, rfl⟩ := parsed
        refine ⟨[], expr, rfl, by simpa using derives, walked, ?_⟩
        apply stops_succ low stops
        intro token' rest' same
        simp only [List.cons.injEq] at same
        rw [← same.1]
        exact noOperator
      case h_2 op found =>
        obtain ⟨isOperator, atLevel⟩ := token_of_levelOperator found
        cases rightParsed : operand (rhsEvaluated op evaluate left) tokens with
        | error failure => simp [rightParsed, bind, Except.bind] at parsed
        | ok result =>
          obtain ⟨right, after⟩ := result
          simp only [rightParsed, bind, Except.bind] at parsed
          cases folded : foldBinary op evaluate left right token.loc with
          | error failure => simp [folded] at parsed
          | ok combined =>
            simp only [folded] at parsed
            obtain ⟨rightTokens, rhs, split, rightDerives, rightWalked, rightStops⟩ :=
              operandFollows.sound _ _ _ _ (by omega) rightParsed
            have afterShort : after.length ≤ tokens.length := by
              rw [split]
              simp
            have joined := Derives.binary isOperator atLevel derives rightDerives
            have joinedWalked : walk evaluate (.binary op expr rhs) = some combined := by
              simp only [walk, walked, rightWalked]
              exact foldBinary_eq_ok.1 folded
            obtain ⟨consumed, expr', restSplit, restDerives, restWalked, restStops⟩ :=
              ih (by omega) (by omega) rightStops joined joinedWalked
                parsed
            refine ⟨token :: (rightTokens ++ consumed), expr', ?_, ?_, restWalked,
              restStops⟩
            · rw [split, restSplit]
              simp
            · simpa using restDerives

/-- The derivations of a level: one operand, or one more operand after an operator. -/
theorem derives_succ_cases {operandToken : Token → Prop} (low : level < 10)
    (derives : Derives operandToken (level + 1) tokens expr) :
    Derives operandToken level tokens expr ∨
      ∃ token op left right lhs rhs, token.type = op.token ∧ op.level = level + 1 ∧
        tokens = left ++ token :: right ∧ expr = .binary op lhs rhs ∧
        Derives operandToken (level + 1) left lhs ∧ Derives operandToken level right rhs := by
  generalize atLevel : level + 1 = other at derives
  cases derives with
  | leaf | paren | unary => omega
  | @lift lower _ _ _ below =>
    obtain rfl : level = lower := by omega
    exact Or.inl below
  | @binary lower _ _ _ _ _ _ isOperator opLevel left right =>
    obtain rfl : level = lower := by omega
    exact Or.inr ⟨_, _, _, _, _, _, isOperator, opLevel, rfl, rfl, left, right⟩
  | conditional =>
    simp only [conditionalLevel] at atLevel
    omega

/-- Parsing a chain of operands leaves the loop with the value of the chain. -/
theorem parseBinary_chain (low : level < 10) (operandFollows : Follows level bound operand)
    (size : ℕ) (sized : consumed.length ≤ size) (short : (consumed ++ rest).length ≤ bound)
    (stops : Stops level rest) (derives : Derives OperandLike (level + 1) consumed expr)
    (walked : walk evaluate expr = some value) :
    ∃ count, rest.length ≤ count ∧
      parseBinary operand (levelOperator (level + 1)) evaluate (consumed ++ rest) =
        binaryLoop operand (levelOperator (level + 1)) evaluate count value rest := by
  induction size generalizing consumed rest expr value with
  | zero =>
    have := derives_length_pos derives
    omega
  | succ size ih =>
    rcases derives_succ_cases low derives with single |
      ⟨token, op, left, right, lhs, rhs, isOperator, atLevel, rfl, rfl, leftDerives,
        rightDerives⟩
    · have parsed := operandFollows.complete evaluate consumed rest expr value short single
        walked stops
      refine ⟨rest.length, le_refl _, ?_⟩
      simp only [parseBinary, parsed, bind, Except.bind]
    · rw [walk] at walked
      split at walked
      case h_1 => simp at walked
      case h_2 leftValue leftWalked =>
        split at walked
        case h_1 => simp at walked
        case h_2 rightValue rightWalked =>
          have rightPositive := derives_length_pos rightDerives
          simp only [length_append, length_cons] at sized short
          obtain ⟨count, enough, reached⟩ := ih (by omega)
            (by simpa [Nat.add_assoc, Nat.add_comm, Nat.add_left_comm] using short)
            (stops_of_operator isOperator atLevel low (right ++ rest)) leftDerives leftWalked
          have rightParsed := operandFollows.complete
            (rhsEvaluated op evaluate leftValue) right rest rhs rightValue
            (by simp only [length_append]; omega) rightDerives rightWalked stops
          simp only [length_cons, length_append] at enough
          obtain ⟨remaining, rfl⟩ : ∃ remaining, count = remaining + 1 :=
            ⟨count - 1, by omega⟩
          refine ⟨remaining, by omega, ?_⟩
          rw [append_assoc, cons_append, reached,
            binaryLoop_step isOperator atLevel rightParsed walked]

theorem parseBinary_follows (low : level < 10) (operandFollows : Follows level bound operand) :
    Follows (level + 1) bound (parseBinary operand (levelOperator (level + 1))) := by
  constructor
  · intro evaluate tokens value rest short parsed
    rw [parseBinary] at parsed
    cases first : operand evaluate tokens with
    | error failure => simp [first, bind, Except.bind] at parsed
    | ok result =>
      obtain ⟨left, after⟩ := result
      simp only [first, bind, Except.bind] at parsed
      obtain ⟨consumed, expr, split, derives, walked, stops⟩ :=
        operandFollows.sound _ _ _ _ short first
      have afterShort : after.length ≤ bound := by
        rw [split, length_append] at short
        omega
      obtain ⟨more, expr', restSplit, restDerives, restWalked, restStops⟩ :=
        binaryLoop_sound low operandFollows (le_refl _) afterShort stops
          (.lift (by simp only [conditionalLevel]; omega) derives) walked parsed
      refine ⟨consumed ++ more, expr', ?_, restDerives, restWalked, restStops⟩
      rw [split, restSplit, append_assoc]
  · intro evaluate consumed rest expr value short derives walked stops
    obtain ⟨count, -, reached⟩ := parseBinary_chain low operandFollows consumed.length
      (le_refl _) short (stops.of_succ low) derives walked
    rw [reached, binaryLoop_stops stops]

theorem parseLevel_follows {nested : Parser}
    (nestedFollows : Follows conditionalLevel bound nested) {level : ℕ} (low : level ≤ 10) :
    Follows level (bound + 1) (parseLevel nested level) := by
  induction level with
  | zero => exact parseUnaryExpression_follows nestedFollows
  | succ level ih =>
    exact parseBinary_follows (by omega) (ih (by omega))

end Levels

section Conditional

variable {bound : ℕ} {nested : Parser}

theorem derives_conditional_cases {operandToken : Token → Prop}
    (derives : Derives operandToken conditionalLevel tokens expr) :
    Derives operandToken 10 tokens expr ∨
      ∃ question colon first second third condition whenTrue whenFalse,
        question.type = .question ∧ colon.type = .colon ∧
        tokens = first ++ question :: (second ++ colon :: third) ∧
        expr = .conditional condition whenTrue whenFalse ∧
        Derives operandToken 10 first condition ∧
        Derives operandToken conditionalLevel second whenTrue ∧
        Derives operandToken conditionalLevel third whenFalse := by
  generalize atLevel : conditionalLevel = other at derives
  simp only [conditionalLevel] at atLevel
  cases derives with
  | leaf | paren | unary => omega
  | @lift lower _ _ _ below =>
    obtain rfl : lower = 10 := by omega
    exact Or.inl below
  | @binary _ _ op _ _ _ _ _ opLevel _ _ =>
    have := op.level_le
    omega
  | conditional isQuestion isColon first second third =>
    exact Or.inr ⟨_, _, _, _, _, _, _, _, isQuestion, isColon, rfl, rfl, first, second, third⟩

theorem stops_colon (isColon : token.type = .colon) (rest : List Token) :
    Stops conditionalLevel (token :: rest) := by
  rw [Stops, isColon]
  constructor
  · intro op _
    cases op <;> decide
  · intro _
    decide

theorem stops_question (isQuestion : token.type = .question) (rest : List Token) :
    Stops 10 (token :: rest) := by
  rw [Stops, isQuestion]
  constructor
  · intro op _
    cases op <;> decide
  · intro wrong
    simp [conditionalLevel] at wrong

theorem Stops.of_conditional (stops : Stops conditionalLevel tokens) :
    Stops 10 tokens := by
  cases tokens with
  | nil => trivial
  | cons token rest =>
    refine ⟨fun op _ => stops.1 op ?_, fun wrong => by simp [conditionalLevel] at wrong⟩
    have := op.level_le
    simp only [conditionalLevel]
    omega

theorem Stops.to_conditional (stops : Stops 10 (token :: rest))
    (notQuestion : token.type ≠ .question) :
    Stops conditionalLevel (token :: rest) :=
  ⟨fun op _ => stops.1 op op.level_le, fun _ => notQuestion⟩

theorem conditionalExpression_sound (nestedFollows : Follows conditionalLevel bound nested)
    (short : tokens.length ≤ bound + 1)
    (parsed : conditionalExpression nested evaluate tokens = .ok (value, rest)) :
    ∃ consumed expr, tokens = consumed ++ rest ∧
      Derives OperandLike conditionalLevel consumed expr ∧ walk evaluate expr = some value ∧
      Stops conditionalLevel rest := by
  have orFollows := parseLevel_follows nestedFollows (le_refl 10)
  rw [← parseLogicalOrExpression_eq] at orFollows
  rw [conditionalExpression] at parsed
  cases first : parseLogicalOrExpression nested evaluate tokens with
  | error failure => simp [first, bind, Except.bind] at parsed
  | ok result =>
    obtain ⟨condition, after⟩ := result
    simp only [first, bind, Except.bind] at parsed
    obtain ⟨consumed, expr, split, derives, walked, stops⟩ :=
      orFollows.sound _ _ _ _ short first
    have positive := derives_length_pos derives
    cases after with
    | nil =>
      simp only [pure, Except.pure, Except.ok.injEq, Prod.mk.injEq] at parsed
      obtain ⟨rfl, rfl⟩ := parsed
      exact ⟨consumed, expr, split, .lift (by decide) derives, walked, trivial⟩
    | cons token after =>
      simp only at parsed
      split at parsed
      case isFalse notQuestion =>
        simp only [pure, Except.pure, Except.ok.injEq, Prod.mk.injEq] at parsed
        obtain ⟨rfl, rfl⟩ := parsed
        exact ⟨consumed, expr, split, .lift (by decide) derives, walked,
          stops.to_conditional notQuestion⟩
      case isTrue isQuestion =>
        rw [split, length_append, length_cons] at short
        cases second : nested (evaluate && isTruthy condition) after with
        | error failure => simp [second] at parsed
        | ok result =>
          obtain ⟨trueBranch, afterTrue⟩ := result
          simp only [second] at parsed
          obtain ⟨trueTokens, whenTrue, trueSplit, trueDerives, trueWalked, -⟩ :=
            nestedFollows.sound _ _ _ _ (by omega) second
          cases afterTrue with
          | nil => simp at parsed
          | cons colon afterTrue =>
            simp only at parsed
            split at parsed
            case isFalse => simp at parsed
            case isTrue isColon =>
              rw [trueSplit, length_append, length_cons] at short
              cases third : nested
                  (evaluate && !(evaluate && isTruthy condition)) afterTrue with
              | error failure => simp only [third, reduceCtorEq] at parsed
              | ok result =>
                obtain ⟨falseBranch, afterFalse⟩ := result
                simp only [third, pure, Except.pure, Except.ok.injEq,
                  Prod.mk.injEq] at parsed
                obtain ⟨rfl, rfl⟩ := parsed
                obtain ⟨falseTokens, whenFalse, falseSplit, falseDerives,
                  falseWalked, falseStops⟩ :=
                    nestedFollows.sound _ _ _ _ (by omega) third
                refine ⟨consumed ++ token :: (trueTokens ++ colon :: falseTokens),
                  .conditional expr whenTrue whenFalse, ?_,
                  .conditional isQuestion isColon derives trueDerives falseDerives,
                  ?_, falseStops⟩
                · rw [split, trueSplit, falseSplit]
                  simp
                · simp only [walk, walked, trueWalked, falseWalked]

theorem conditionalExpression_complete (nestedFollows : Follows conditionalLevel bound nested)
    (short : (consumed ++ rest).length ≤ bound + 1)
    (derives : Derives OperandLike conditionalLevel consumed expr)
    (walked : walk evaluate expr = some value) (stops : Stops conditionalLevel rest) :
    conditionalExpression nested evaluate (consumed ++ rest) = .ok (value, rest) := by
  have orFollows := parseLevel_follows nestedFollows (le_refl 10)
  rw [← parseLogicalOrExpression_eq] at orFollows
  rcases derives_conditional_cases derives with single |
    ⟨question, colon, first, second, third, condition, whenTrue, whenFalse, isQuestion, isColon,
      rfl, rfl, firstDerives, secondDerives, thirdDerives⟩
  · have parsed := orFollows.complete evaluate consumed rest expr value short single walked
      stops.of_conditional
    simp only [conditionalExpression, parsed, bind, Except.bind]
    cases rest with
    | nil => rfl
    | cons token rest =>
      simp only [if_neg (stops.2 rfl)]
      rfl
  · rw [walk] at walked
    split at walked
    case h_1 => simp at walked
    case h_2 decided firstWalked =>
      split at walked
      case h_2 => simp at walked
      case h_1 trueBranch falseBranch trueWalked falseWalked =>
        have firstPositive := derives_length_pos firstDerives
        simp only [length_append, length_cons] at short
        have firstParsed := orFollows.complete evaluate first
          (question :: (second ++ colon :: (third ++ rest))) condition decided
          (by simp only [length_append, length_cons]; omega) firstDerives firstWalked
          (stops_question isQuestion _)
        have trueParsed := nestedFollows.complete (evaluate && isTruthy decided) second
          (colon :: (third ++ rest)) whenTrue trueBranch
          (by simp only [length_append, length_cons]; omega) secondDerives trueWalked
          (stops_colon isColon _)
        have falseParsed := nestedFollows.complete
          (evaluate && !(evaluate && isTruthy decided)) third rest whenFalse falseBranch
          (by simp only [length_append]; omega) thirdDerives falseWalked stops
        simp only [append_assoc, cons_append]
        simp only [conditionalExpression, firstParsed, bind, Except.bind, if_pos isQuestion,
          trueParsed, if_pos isColon, falseParsed, pure, Except.pure]
        rw [← Option.some.inj walked]

theorem parseConditionalExpression_follows (bound : ℕ) :
    Follows conditionalLevel bound (parseConditionalExpression bound) := by
  induction bound with
  | zero =>
    constructor
    · intro evaluate tokens value rest _ parsed
      simp [parseConditionalExpression] at parsed
    · intro evaluate consumed rest expr value short derives
      have := derives_length_pos derives
      simp only [length_append] at short
      omega
  | succ bound ih =>
    constructor
    · intro evaluate tokens value rest short parsed
      exact conditionalExpression_sound ih short parsed
    · intro evaluate consumed rest expr value short derives walked stops
      exact conditionalExpression_complete ih short derives walked stops

end Conditional

/-- The evaluation succeeds exactly with the value of a walk over a derivation. -/
theorem evaluatePpConstantExpression_eq_ok {result : ℤ} :
    evaluatePpConstantExpression tokens = .ok result ↔
      ∃ expr value, Derives OperandLike conditionalLevel tokens expr ∧
        walk true expr = some value ∧ value.toSignedI64 = result := by
  have follows := parseConditionalExpression_follows tokens.length
  constructor
  · intro evaluated
    cases tokens with
    | nil => simp [evaluatePpConstantExpression] at evaluated
    | cons token tokens =>
      cases parsed : parseConditionalExpression (token :: tokens).length true
          (token :: tokens) with
      | error failure =>
        simp only [evaluatePpConstantExpression, parsed, reduceCtorEq] at evaluated
      | ok outcome =>
        obtain ⟨value, rest⟩ := outcome
        cases rest with
        | cons next rest =>
          simp only [evaluatePpConstantExpression, parsed, reduceCtorEq] at evaluated
        | nil =>
          obtain ⟨consumed, expr, split, derives, walked, -⟩ :=
            follows.sound _ _ _ _ (le_refl _) parsed
          rw [append_nil] at split
          refine ⟨expr, value, split ▸ derives, walked, ?_⟩
          simp only [evaluatePpConstantExpression, parsed, Except.ok.injEq] at evaluated
          exact evaluated
  · rintro ⟨expr, value, derives, walked, rfl⟩
    have positive := derives_length_pos derives
    have parsed := follows.complete true tokens [] expr value (by simp) derives walked trivial
    rw [append_nil] at parsed
    cases tokens with
    | nil => simp at positive
    | cons token tokens => simp only [evaluatePpConstantExpression, parsed]

end Aburi.Constexpr
