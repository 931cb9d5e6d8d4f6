import Aburi.Constexpr.PpParserSound

/-!
# The tree of a preprocessor expression

An operand that is not evaluated is parsed all the same, so where it ends does not
depend on values.  From this a list of tokens has at most one derivation, whose
operands are found by looking at one token after another.
-/

namespace Aburi.Constexpr

open List

variable {level : ℕ} {tokens consumed rest : List Token} {expr expr' : Expr}

theorem walk_unevaluated (expr : Expr) : walk false expr = some makeZeroValue := by
  induction expr with
  | leaf token =>
    simp only [walk, evalLeaf, Bool.not_false, if_true, ite_self]
    rfl
  | paren inner ih => simp [walk, ih]
  | unary op inner ih => simp [walk, ih, foldUnary]
  | binary op lhs rhs left right =>
    have skipped : rhsEvaluated op false makeZeroValue = false := by cases op <;> rfl
    simp only [walk, left, skipped, right]
    rfl
  | conditional condition whenTrue whenFalse first second third =>
    simp only [walk, first, Bool.false_and, second, third]
    rfl

theorem Derives.same_end {consumed' rest' : List Token} (low : level ≤ 11)
    (one : Derives OperandLike level consumed expr)
    (other : Derives OperandLike level consumed' expr')
    (equal : consumed ++ rest = consumed' ++ rest') (stops : Stops level rest)
    (stops' : Stops level rest') : consumed = consumed' ∧ rest = rest' := by
  obtain ⟨parser, follows⟩ : ∃ parser, Follows level ((consumed ++ rest).length + 1) parser := by
    rcases Nat.lt_or_eq_of_le low with below | rfl
    · exact ⟨_, parseLevel_follows (parseConditionalExpression_follows _) (Nat.le_of_lt_succ below)⟩
    · exact ⟨_, parseConditionalExpression_follows _⟩
  have first := follows.complete false consumed rest expr _ (Nat.le_succ _) one
    (walk_unevaluated expr) stops
  have second := follows.complete false consumed' rest' expr' _ (by rw [equal]; exact Nat.le_succ _)
    other (walk_unevaluated expr') stops'
  rw [equal, second] at first
  cases first
  exact ⟨append_cancel_right equal, rfl⟩

/-- Operators of one level with their right operands, behind an expression. -/
inductive Chain (level : ℕ) : Expr → List Token → Expr → Prop where
  | done {expr : Expr} : Chain level expr [] expr
  | more {token : Token} {op : BinaryOp} {operand rest : List Token} {start rhs expr : Expr} :
      token.type = op.token → op.level = level + 1 → Derives OperandLike level operand rhs →
      Chain level (.binary op start rhs) rest expr →
      Chain level start (token :: (operand ++ rest)) expr

theorem Chain.stops {start : Expr} (low : level < 10) (chain : Chain level start rest expr) :
    Stops level rest := by
  cases chain with
  | done => trivial
  | more isOperator above => exact stops_of_operator isOperator above low _

theorem Chain.snoc {token : Token} {op : BinaryOp} {right : List Token} {start lhs rhs : Expr}
    (chain : Chain level start rest lhs) (isOperator : token.type = op.token)
    (above : op.level = level + 1) (derives : Derives OperandLike level right rhs) :
    Chain level start (rest ++ token :: right) (.binary op lhs rhs) := by
  induction chain with
  | done => exact append_nil right ▸ .more isOperator above derives .done
  | more isOperator' above' derives' _ ih =>
    rw [cons_append, append_assoc]
    exact .more isOperator' above' derives' ih

/-- A derivation of a level is a first operand with a chain. -/
theorem Derives.chain (low : level < 10) (derives : Derives OperandLike (level + 1) tokens expr) :
    ∃ first start rest, tokens = first ++ rest ∧ Derives OperandLike level first start ∧
      Chain level start rest expr := by
  generalize size : tokens.length = length
  induction length using Nat.strong_induction_on generalizing tokens expr with
  | _ length ih =>
    rcases derives_succ_cases low derives with single |
      ⟨token, op, left, right, lhs, rhs, isOperator, above, rfl, rfl, leftDerives, rightDerives⟩
    · exact ⟨tokens, expr, [], (append_nil _).symm, single, .done⟩
    · simp only [length_append, length_cons] at size
      obtain ⟨first, start, rest, rfl, derives, chain⟩ := ih left.length (by omega) leftDerives rfl
      exact ⟨first, start, rest ++ token :: right, append_assoc .., derives,
        chain.snoc isOperator above rightDerives⟩

theorem Chain.unique {start : Expr} {size : ℕ} (low : level < 10)
    (unique : ∀ tokens expr expr', tokens.length ≤ size → Derives OperandLike level tokens expr →
      Derives OperandLike level tokens expr' → expr = expr')
    (sized : rest.length ≤ size) (one : Chain level start rest expr)
    (other : Chain level start rest expr') : expr = expr' := by
  induction one generalizing expr' with
  | done =>
    cases other
    rfl
  | @more token op operand rest start rhs _ isOperator _ derives chain ih =>
    generalize equal : token :: (operand ++ rest) = whole at other
    cases other with
    | done => exact nomatch equal
    | more isOperator' _ derives' chain' =>
      obtain ⟨rfl, tails⟩ := List.cons.inj equal
      cases BinaryOp.token_injective (isOperator.symm.trans isOperator')
      obtain ⟨rfl, rfl⟩ := derives.same_end (by omega) derives' tails (chain.stops low)
        (chain'.stops low)
      simp only [length_cons, length_append] at sized
      cases unique operand _ _ (by omega) derives derives'
      exact ih (by omega) chain'

theorem derives_zero_cases {operandToken : Token → Prop}
    (derives : Derives operandToken 0 tokens expr) :
    (∃ token, operandToken token ∧ tokens = [token] ∧ expr = .leaf token) ∨
      (∃ left right inside inner, left.type = .leftParen ∧ right.type = .rightParen ∧
        Derives operandToken conditionalLevel inside inner ∧
        tokens = left :: (inside ++ [right]) ∧ expr = .paren inner) ∨
      ∃ token op inside inner, token.type = UnaryOp.token op ∧
        Derives operandToken 0 inside inner ∧ tokens = token :: inside ∧
        expr = .unary op inner := by
  generalize atLevel : 0 = other at derives
  cases derives with
  | leaf operand => exact .inl ⟨_, operand, rfl, rfl⟩
  | paren left right inner => exact .inr (.inl ⟨_, _, _, _, left, right, inner, rfl, rfl⟩)
  | unary operator inner =>
    exact .inr (.inr ⟨_, _, _, _, operator, inner, rfl, rfl⟩)
  | lift | binary | conditional => exact nomatch atLevel

theorem derives_unique (low : level ≤ 11)
    (one : Derives OperandLike level tokens expr)
    (other : Derives OperandLike level tokens expr') : expr = expr' := by
  generalize size : tokens.length = length
  have bounded : tokens.length ≤ length := Nat.le_of_eq size
  clear size
  induction length generalizing level tokens expr expr' with
  | zero =>
    have := derives_length_pos one
    omega
  | succ length shorter =>
    induction level generalizing tokens expr expr' with
    | zero =>
      rcases derives_zero_cases one with ⟨token, operand, rfl, rfl⟩ |
        ⟨left, right, inside, inner, isLeft, _, derives, rfl, rfl⟩ |
        ⟨token, op, inside, inner, operator, derives, rfl, rfl⟩
      · rcases derives_zero_cases other with ⟨_, _, equal, rfl⟩ |
          ⟨_, _, _, _, isLeft, _, _, equal, _⟩ | ⟨_, _, _, _, operator, _, equal, _⟩
        · cases equal
          rfl
        · exact (operand.1 (by rw [(List.cons.inj equal).1, isLeft])).elim
        · exact nomatch operand.2.symm.trans
            (unaryOperator_eq_some.2 ((List.cons.inj equal).1 ▸ operator))
      · rcases derives_zero_cases other with ⟨_, operand, equal, _⟩ |
          ⟨_, _, inside', _, _, _, derives', equal, rfl⟩ | ⟨_, op, _, _, operator, _, equal, _⟩
        · exact (operand.1 (by rw [← (List.cons.inj equal).1, isLeft])).elim
        · obtain ⟨rfl, _⟩ := append_inj' (List.cons.inj equal).2 rfl
          simp only [length_cons, length_append] at bounded
          rw [shorter (le_refl _) derives derives' (by omega)]
        · rw [← (List.cons.inj equal).1, isLeft] at operator
          cases op <;> exact nomatch operator
      · rcases derives_zero_cases other with ⟨_, operand, equal, _⟩ |
          ⟨_, _, _, _, isLeft, _, _, equal, _⟩ | ⟨_, op', inside', _, operator', derives', equal, rfl⟩
        · exact nomatch operand.2.symm.trans
            (unaryOperator_eq_some.2 ((List.cons.inj equal).1 ▸ operator))
        · rw [(List.cons.inj equal).1, isLeft] at operator
          cases op <;> exact nomatch operator
        · obtain ⟨rfl, rfl⟩ := List.cons.inj equal
          have same : some op = some op' :=
            (unaryOperator_eq_some.2 operator).symm.trans (unaryOperator_eq_some.2 operator')
          cases same
          simp only [length_cons] at bounded
          rw [shorter low derives derives' (by omega)]
    | succ level below =>
      have unique : ∀ tokens expr expr', tokens.length ≤ length + 1 →
          Derives OperandLike level tokens expr → Derives OperandLike level tokens expr' →
          expr = expr' :=
        fun _ _ _ bounded one other => below (Nat.le_of_succ_le low) one other bounded
      rcases Nat.lt_or_eq_of_le low with inside | outermost
      · have low : level < 10 := Nat.lt_of_succ_lt_succ inside
        obtain ⟨first, start, rest, rfl, derives, chain⟩ := one.chain low
        obtain ⟨first', start', rest', equal, derives', chain'⟩ := other.chain low
        obtain ⟨rfl, rfl⟩ := derives.same_end (by omega) derives' equal (chain.stops low)
          (chain'.stops low)
        rw [length_append] at bounded
        cases unique first _ _ (by omega) derives derives'
        exact chain.unique low unique (by omega) chain'
      · obtain rfl : level = 10 := Nat.succ.inj outermost
        rcases derives_conditional_cases one with one | ⟨question, colon, first, second, third,
          condition, whenTrue, whenFalse, isQuestion, isColon, rfl, rfl, one, two, three⟩
        · rcases derives_conditional_cases other with other | ⟨question, _, first', _, _, _, _, _,
            isQuestion, _, equal, _, other, _⟩
          · exact unique tokens _ _ bounded one other
          · have ends := one.same_end (by decide) other ((append_nil _).trans equal) trivial
              (stops_question isQuestion _)
            exact nomatch ends.2
        · rcases derives_conditional_cases other with other | ⟨question', colon', first', second',
            third', _, _, _, isQuestion', isColon', equal, rfl, one', two', three'⟩
          · have ends := @Derives.same_end _ _ _ _ _ _ [] (by decide) one other
              (append_nil _).symm (stops_question isQuestion _) trivial
            exact nomatch ends.2
          · obtain ⟨rfl, arms⟩ := one.same_end (by decide) one' equal (stops_question isQuestion _)
              (stops_question isQuestion' _)
            obtain ⟨rfl, last⟩ := two.same_end (le_refl _) two' (List.cons.inj arms).2
              (stops_colon isColon _) (stops_colon isColon' _)
            obtain ⟨rfl, rfl⟩ := List.cons.inj last
            simp only [length_append, length_cons] at bounded
            rw [unique first _ _ (by omega) one one', shorter (le_refl _) two two' (by omega),
              shorter (le_refl _) three three' (by omega)]

/-- The operands of an expression in their order. -/
def Expr.leaves : Expr → List Token
  | leaf token => [token]
  | paren inner | unary _ inner => inner.leaves
  | binary _ lhs rhs => lhs.leaves ++ rhs.leaves
  | conditional condition whenTrue whenFalse =>
    condition.leaves ++ whenTrue.leaves ++ whenFalse.leaves

theorem Expr.proper_iff (expr : Expr) : expr.Proper ↔ ∀ token ∈ expr.leaves, IsConstant token := by
  induction expr with
  | leaf token => simp only [Proper, leaves, mem_singleton, forall_eq]
  | paren inner ih | unary op inner ih => exact ih
  | binary op lhs rhs left right =>
    simp only [Proper, leaves, left, right, mem_append, or_imp, forall_and]
  | conditional condition whenTrue whenFalse first second third =>
    simp only [Proper, leaves, first, second, third, mem_append, or_imp, forall_and, and_assoc]

/-- The tokens where operands are expected, evaluated or not; the flag says whether the
next one is. -/
def operands : Bool → List Token → List Token
  | _, [] => []
  | true, token :: rest =>
    if token.type = .leftParen ∨ (unaryOperator token.type).isSome = true then operands true rest
    else token :: operands false rest
  | false, token :: rest => operands (decide (token.type ≠ .rightParen)) rest

theorem operands_operator {token : Token} {op : BinaryOp} (operator : token.type = op.token)
    (rest : List Token) : operands false (token :: rest) = operands true rest := by
  rw [operands, operator]
  cases op <;> rfl

theorem Derives.operands_append (derives : Derives OperandLike level tokens expr)
    (rest : List Token) :
    operands true (tokens ++ rest) = expr.leaves ++ operands false rest := by
  induction derives generalizing rest with
  | leaf operand =>
    rw [singleton_append, operands, operand.2, if_neg (not_or.2 ⟨operand.1, nofun⟩)]
    rfl
  | paren left right _ ih =>
    rw [cons_append, operands, if_pos (.inl left), append_assoc, ih, singleton_append, operands, right]
    rfl
  | unary operator _ ih =>
    have isOperator := congrArg Option.isSome (unaryOperator_eq_some.2 operator)
    rw [cons_append, operands, if_pos (.inr isOperator)]
    exact ih rest
  | lift _ _ ih => exact ih rest
  | binary operator _ _ _ leftIh rightIh =>
    rw [append_assoc, leftIh, cons_append, operands_operator operator, rightIh, ← append_assoc]
    rfl
  | conditional question colon _ _ _ first second third =>
    rw [append_assoc, first, cons_append, operands, question, append_assoc, decide_eq_true nofun,
      second, cons_append, operands, colon, decide_eq_true nofun, third, ← append_assoc,
      ← append_assoc]
    rfl

theorem Derives.operands_eq (derives : Derives OperandLike level tokens expr) :
    operands true tokens = expr.leaves := by
  rw [← append_nil tokens, derives.operands_append]
  exact append_nil _

end Aburi.Constexpr
