import Aburi.Air.Justification

/-!
# Simplified instructions

Every rewrite of the simplifier is justified, case by case as the source
distinguishes them.
-/

namespace Aburi.Air

open Aburi.Lib Aburi.Numeric FunctionVerifier Aburi.Air.Function BitVec Option

variable {value : ∀ World : Type, Interp World → Env → Val} {r : ConstInt}

section Binop

variable {mod : Module} {f : Function} {i : InstId} {gone : Point}
  (simplifiable : Simplifiable mod f) (found : f.instAt gone i) (linked : f.Linked i)
  (op : isIntBinop (f.inst i).op = true)

include simplifiable linked op

theorem binop_typed :
    f.operands i = [f.operand i 0, f.operand i 1] ∧ mod.types.isInt (f.inst i).type = true ∧
      SoundType mod (f.inst i).type ∧ f.HasType (f.operand i 0) (f.inst i).type ∧
      f.HasType (f.operand i 1) (f.inst i).type := by
  have typed := simplifiable.typed linked
  have arity := simplifiable.arity linked 2
  rw [InstTyped] at typed
  cases isOp : (f.inst i).op <;> rw [isOp] at op <;> simp only [isOp] at typed arity <;>
    first
    | exact absurd op Bool.false_ne_true
    | exact ⟨operands_two (arity rfl), typed⟩

include found

theorem hasValue_of_binop (compute : ∀ (World : Type) (interp : Interp World) (env : Env)
      (x y : BitVec (bitSize mod (f.inst i).type)),
      readValue interp mod f env (f.operand i 0) = x.setWidth 128 →
      readValue interp mod f env (f.operand i 1) = y.setWidth 128 →
      ∃ z, evalBinop (f.inst i).op x y = some z ∧ z.setWidth 128 = value World interp env) :
    HasValue mod f i gone value := by
  obtain ⟨operands, isInt, sound, first, second⟩ := binop_typed simplifiable linked op
  have narrow := (width_of_sound sound isInt).2
  intro World interp env point reached after holds
  have reachedGone := reached_gone reached after
  have exact' : ∀ {v}, v ∈ f.operands i → f.HasType v (f.inst i).type →
      readValue interp mod f env v =
        ((readValue interp mod f env v).setWidth (bitSize mod (f.inst i).type)).setWidth 128 := by
    intro v used hasType
    have same := simplifiable.hasType_of_readable hasType reachedGone
      (simplifiable.single.operands reachedGone found v used)
    conv_lhs => rw [readValue_eq_setWidth, same]
  obtain ⟨z, computed, same⟩ := compute World interp env _ _
    (exact' (by simp [operands]) first) (exact' (by simp [operands]) second)
  refine ⟨z.setWidth 128, ?_, ?_⟩
  · rw [evalPure_binop op operands, computed, map_some]
  · rw [clamp, clampBits_setWidth narrow, same]

theorem justified_folded {l : ConstInt} {bits : Word}
    (left : constIntOf mod f (f.operand i 0) = some l)
    (right : constIntOf mod f (f.operand i 1) = some r)
    (folded : foldIntBinop (f.inst i).op l r = some bits) :
    Justified mod f i gone (f.constInt (f.inst i).type bits 0) := by
  obtain ⟨-, isInt, sound, first, second⟩ := binop_typed simplifiable linked op
  have leftConstant := (constIntOf_eq left rfl).2.2.1
  have rightConstant := (constIntOf_eq right rfl).2.2.1
  obtain ⟨-, narrow, -, x, rfl, readLeft⟩ := constIntOf_eq left (first.of_constant leftConstant)
  obtain ⟨-, -, -, y, rfl, readRight⟩ := constIntOf_eq right (second.of_constant rightConstant)
  have positive : 0 < bitSize mod (f.inst i).type := by
    have := (width_of_sound sound isInt).1
    omega
  rw [foldIntBinop_eq positive narrow] at folded
  obtain ⟨z, computed, rfl⟩ := map_eq_some_iff.mp folded
  refine .ofConstant simplifiable (.inl rfl) (canonicalInt_of_bitVec isInt z narrow) ?_
  apply hasValue_of_binop simplifiable found linked op
  intro World interp env x' y' isX isY
  have wide := (width_of_sound sound isInt).2
  rw [readLeft] at isX
  rw [readRight] at isY
  rw [← setWidth_val_inj wide isX, ← setWidth_val_inj wide isY]
  refine ⟨z, computed, ?_⟩
  rw [clamp, clampBits, setWidth_append_low narrow, setWidth_setWidth_of_le _ narrow, setWidth_eq]

theorem justified_withConstant (onRight : Bool) {const : ConstInt}
    {simplified : ValueId × Function}
    (isConst : constIntOf mod f (f.operand i (if onRight then 1 else 0)) = some const)
    (identity : simplifyWithConstant f (f.inst i).op (f.inst i).type
      (f.operand i (if onRight then 0 else 1)) const onRight = some simplified) :
    Justified mod f i gone simplified := by
  obtain ⟨operands, isInt, sound, first, second⟩ := binop_typed simplifiable linked op
  have wide := (width_of_sound sound isInt).2
  have constant := (constIntOf_eq isConst rfl).2.2.1
  have hasType : f.HasType (f.operand i (if onRight then 1 else 0)) (f.inst i).type := by
    cases onRight
    · exact first
    · exact second
  obtain ⟨-, narrow, -, k, rfl, readConst⟩ := constIntOf_eq isConst (hasType.of_constant constant)
  have eval : ∀ {World : Type} {interp : Interp World} {env : Env}
      {x y : BitVec (bitSize mod (f.inst i).type)},
      readValue interp mod f env (f.operand i 0) = x.setWidth 128 →
      readValue interp mod f env (f.operand i 1) = y.setWidth 128 →
      evalBinop (f.inst i).op x y =
        evalWithConstant (f.inst i).op onRight k (if onRight then x else y) := by
    intro World interp env x y isX isY
    cases onRight with
    | true =>
      simp only [if_true] at readConst
      rw [readConst] at isY
      simp [evalWithConstant, setWidth_val_inj wide isY]
    | false =>
      simp only [Bool.false_eq_true, if_false] at readConst
      rw [readConst] at isX
      simp [evalWithConstant, setWidth_val_inj wide isX]
  have atLeastTwo : 2 ≤ bitSize mod (f.inst i).type := by
    have := (width_of_sound sound isInt).1
    omega
  rcases simplifyWithConstant_eq atLeastTwo narrow identity with
    ⟨rfl, keeps⟩ | ⟨rfl, vanishes⟩
  · refine .ofOperand simplifiable found linked ?_ ?_ ?_
    · rw [operands]
      cases onRight <;> simp
    · cases onRight
      · exact second
      · exact first
    · apply hasValue_of_binop simplifiable found linked op
      intro World interp env x y isX isY
      refine ⟨_, (eval isX isY).trans (keeps _), ?_⟩
      cases onRight
      · exact isY.symm
      · exact isX.symm
  · refine .ofConstant simplifiable (.inl rfl) ?_ ?_
    · have zero := canonicalInt_of_bitVec isInt (0 : BitVec (bitSize mod (f.inst i).type)) narrow
      simpa using zero
    · apply hasValue_of_binop simplifiable found linked op
      intro World interp env x y isX isY
      refine ⟨_, (eval isX isY).trans (vanishes _), ?_⟩
      rw [clamp, clampBits, setWidth_append_low narrow]
      simp

theorem justified_binop
    (nonzero : (simplifyBinop mod f (f.inst i).op (f.inst i).type (f.operand i 0)
      (f.operand i 1)).1 ≠ 0) :
    Justified mod f i gone
      (simplifyBinop mod f (f.inst i).op (f.inst i).type (f.operand i 0) (f.operand i 1)) := by
  obtain ⟨operands, -, -, first, -⟩ := binop_typed simplifiable linked op
  rw [simplifyBinop] at nonzero ⊢
  cases folded : foldBinop mod f (f.inst i).op (f.inst i).type (f.operand i 0) (f.operand i 1) with
  | some simplified =>
    obtain ⟨l, left, rest⟩ := bind_eq_some_iff.mp folded
    obtain ⟨r, right, rest⟩ := bind_eq_some_iff.mp rest
    obtain ⟨bits, computed, packed⟩ := bind_eq_some_iff.mp rest
    cases packed
    exact justified_folded simplifiable found linked op left right computed
  | none =>
    rw [folded] at nonzero
    cases identity : binopIdentity mod f (f.inst i).op (f.inst i).type (f.operand i 0)
      (f.operand i 1) with
    | some simplified =>
      rw [binopIdentity] at identity
      split at identity
      · rename_i isConst
        exact justified_withConstant simplifiable found linked op true isConst identity
      · rename_i isConst
        split at identity
        · exact justified_withConstant simplifiable found linked op false isConst identity
        · cases identity
      · cases identity
    | none =>
      rw [identity] at nonzero
      simp only [sameOperand] at nonzero ⊢
      split at nonzero
      case isTrue both =>
        rw [if_pos both]
        refine .ofOperand simplifiable found linked (by simp [operands]) first ?_
        apply hasValue_of_binop simplifiable found linked op
        intro World interp env x y isX isY
        have wide : bitSize mod (f.inst i).type ≤ 128 := by
          obtain ⟨-, isInt, sound, -, -⟩ := binop_typed simplifiable linked op
          exact (width_of_sound sound isInt).2
        rw [← both.2, isX] at isY
        rw [← setWidth_val_inj wide isY]
        rcases both.1 with isAnd | isOr
        · exact ⟨x, by simp [isAnd, evalBinop], isX.symm⟩
        · exact ⟨x, by simp [isOr, evalBinop], isX.symm⟩
      case isFalse => exact absurd rfl nonzero

end Binop

section Icmp

variable {mod : Module} {f : Function} {i : InstId} {gone : Point}
  (simplifiable : Simplifiable mod f) (built : mod.types.Built) (found : f.instAt gone i)
  (linked : f.Linked i)

theorem bitSize_I8 (built : mod.types.Built) : bitSize mod types.I8 = 8 := by
  rw [bitSize, built.type_eq (by decide)]
  rfl

theorem isInt_I8 (built : mod.types.Built) : mod.types.isInt types.I8 = true := by
  rw [TypeTable.isInt, built.type_eq (by decide)]
  rfl

include simplifiable in
theorem valid_of_isBoolValued {levels : ℕ} {v : ValueId}
    (isBool : isBoolValued f levels v = true) : f.isValidValue v = true := by
  apply simplifiable.blank.valid_of_ne
  intro blank
  cases levels with
  | zero => cases isBool
  | succ levels => simp [isBoolValued, blank] at isBool

include simplifiable in
/-- Truth values have type i8, or they are strays. -/
theorem hasType_of_isBoolValued {levels : ℕ} {v : ValueId}
    (isBool : isBoolValued f levels v = true) : f.HasType v types.I8 := by
  induction levels generalizing v with
  | zero => cases isBool
  | succ levels ih =>
    rw [isBoolValued] at isBool
    dsimp only at isBool
    split at isBool
    case h_1 =>
      simp only [Bool.and_eq_true, beq_iff_eq] at isBool
      exact .inl isBool.1
    case h_2 kind =>
      by_cases linked : f.Linked (f.defInst v)
      · have typed := simplifiable.typed linked
        have labelled : f.valueType v = (f.inst (f.defInst v)).type := by
          have defined : (f.inst (f.defInst v)).result = v := by
            rw [defInst, if_pos kind]
            exact simplifiable.single.consistent.defs v kind
          have valid := simplifiable.single.consistent.valuesValid v kind
          have positive : (f.inst (f.defInst v)).result ≠ 0 := by
            rw [defined]
            exact Nat.pos_iff_ne_zero.mp (Slots.isValid_iff.mp valid).1
          have type := simplifiable.labelled.types _ positive
          rwa [defined] at type
        rw [InstTyped] at typed
        cases op : (f.inst (f.defInst v)).op <;> simp only [op] at isBool typed <;>
          try exact absurd isBool Bool.false_ne_true
        case icmp => exact .inl (labelled.trans typed.1)
        case fcmp => exact .inl (labelled.trans typed)
        case select =>
          rw [Bool.and_eq_true] at isBool
          by_cases isI8 : f.valueType v = types.I8
          · exact .inl isI8
          have arms : ∀ {arm}, f.HasType arm (f.inst (f.defInst v)).type →
              f.HasType arm types.I8 → f.Stray arm := by
            intro arm armType armBool
            rw [← labelled] at armType
            have different : f.valueType arm ≠ types.I8 := by
              rcases armType with same | ⟨impossible, -⟩
              · rw [same]
                exact isI8
              · exact absurd impossible isI8
            exact (armBool.resolve_left different).2
          exact .inr ⟨rfl, .select kind linked op isI8
            (arms typed.2.1 (ih isBool.1)) (arms typed.2.2 (ih isBool.2))⟩
      · exact .inr ⟨rfl, .unlinked kind linked⟩
    case h_3 => cases isBool

variable {cond : IntCond}

theorem icmpCond_eq {aux : Word} (isCond : IntCond.ofCode? aux.toNat = some cond) :
    icmpCond aux = some cond := by
  have small : aux.toNat < IntCond.all.length := (List.getElem?_eq_some_iff.mp isCond).1
  have bound : IntCond.all.length = 10 := rfl
  rw [icmpCond, Nat.mod_eq_of_lt (by omega)]
  exact isCond

theorem clamp_boolVal (built : mod.types.Built) (b : Bool) :
    clamp mod types.I8 (boolVal b) = boolVal b := by
  rw [clamp, bitSize_I8 built]
  cases b <;> rfl

theorem clampBits_bool {bits : ℕ} (positive : 0 < bits) {x : Val} (bool : x = 0 ∨ x = 1) :
    clampBits bits x = x := by
  apply eq_of_toNat_eq
  rw [clampBits, toNat_setWidth, toNat_setWidth]
  rcases bool with rfl | rfl
  · simp
  · rw [show (1 : Val).toNat = 1 from rfl, Nat.mod_eq_of_lt (Nat.one_lt_two_pow (by omega))]

theorem canonical_bool (built : mod.types.Built) (b : Bool) :
    CanonicalData mod ⟨.constInt, types.I8, if b then 1 else 0, 0⟩ := by
  have width : mod.types.intWidth types.I8 = 8 := by
    rw [← bitSize_int (isInt_I8 built), bitSize_I8 built]
  refine ⟨isInt_I8 built, ?_⟩
  rw [width]
  cases b <;> rfl

theorem boolVal_eq (b : Bool) : (0 : Word) ++ (if b then 1 else 0 : Word) = boolVal b := by
  cases b <;> rfl

variable (op : (f.inst i).op = .icmp)

include simplifiable linked op

theorem icmp_typed :
    f.operands i = [f.operand i 0, f.operand i 1] ∧ (f.inst i).type = types.I8 ∧
      (∃ cond, IntCond.ofCode? (f.inst i).aux.toNat = some cond) ∧
      ∃ type, f.HasType (f.operand i 0) type ∧ f.HasType (f.operand i 1) type := by
  have typed := simplifiable.typed linked
  have arity := simplifiable.arity linked 2 (by rw [op]; rfl)
  rw [InstTyped] at typed
  simp only [op] at typed
  obtain ⟨isI8, someCond, same⟩ := typed
  exact ⟨operands_two arity, isI8, isSome_iff_exists.mp someCond, same⟩

include found built

theorem hasValue_of_icmp (isCond : IntCond.ofCode? (f.inst i).aux.toNat = some cond)
    (compute : ∀ (World : Type) (interp : Interp World) (env : Env) (point : Point),
      f.PointReached point → EquationsHold interp mod f env point →
      f.Readable (f.operand i 0) point →
      f.valueType (f.operand i 1) = f.valueType (f.operand i 0) →
      SoundType mod (f.valueType (f.operand i 0)) →
      boolVal (evalCond cond
        ((readValue interp mod f env (f.operand i 0)).setWidth
          (bitSize mod (f.valueType (f.operand i 0))))
        ((readValue interp mod f env (f.operand i 1)).setWidth
          (bitSize mod (f.valueType (f.operand i 0))))) = value World interp env) :
    HasValue mod f i gone value := by
  obtain ⟨operands, isI8, -, type, first, second⟩ := icmp_typed simplifiable linked op
  intro World interp env point reached after holds
  have reachedGone := reached_gone reached after
  have used0 : f.operand i 0 ∈ f.operands i := by simp [operands]
  have used1 : f.operand i 1 ∈ f.operands i := by simp [operands]
  have readable0 := simplifiable.single.operands reachedGone found _ used0
  have readable1 := simplifiable.single.operands reachedGone found _ used1
  refine ⟨_, evalPure_icmp op operands isCond, ?_⟩
  rw [isI8, clamp_boolVal built]
  refine compute World interp env point reached holds (readable0.at_point after) ?_
    (simplifiable.checked reachedGone found _ used0).2
  rw [simplifiable.hasType_of_readable first reachedGone readable0,
    simplifiable.hasType_of_readable second reachedGone readable1]

omit found in
theorem justified_bool {b : Bool} (equal : HasValue mod f i gone fun _ _ _ => boolVal b) :
    Justified mod f i gone (f.constInt types.I8 (if b then 1 else 0) 0) := by
  obtain ⟨-, isI8, -⟩ := icmp_typed simplifiable linked op
  rw [← isI8]
  refine .ofConstant simplifiable (.inl rfl) (isI8.symm ▸ canonical_bool built b) ?_
  rw [isI8]
  simp only [boolVal_eq, clamp_boolVal built]
  exact equal

theorem justified_foldIcmp (isCond : IntCond.ofCode? (f.inst i).aux.toNat = some cond)
    {l : ConstInt} (left : constIntOf mod f (f.operand i 0) = some l)
    (right : constIntOf mod f (f.operand i 1) = some r) :
    Justified mod f i gone (f.constInt types.I8 (if foldIcmp cond l r then 1 else 0) 0) := by
  apply justified_bool simplifiable built linked op
  apply hasValue_of_icmp simplifiable built found linked op isCond
  intro World interp env point _ _ _ sameType sound
  obtain ⟨isInt, narrow, -, x, rfl, readLeft⟩ := constIntOf_eq left rfl
  obtain ⟨-, -, -, y, rfl, readRight⟩ := constIntOf_eq right sameType
  have widths := width_of_sound sound isInt
  rw [readLeft, readRight, setWidth_setWidth_of_le _ widths.2,
    setWidth_setWidth_of_le _ widths.2, setWidth_eq, setWidth_eq,
    foldIcmp_eq (by omega) narrow]

theorem justified_reflexive (isCond : IntCond.ofCode? (f.inst i).aux.toNat = some cond)
    (same : f.operand i 0 = f.operand i 1) :
    Justified mod f i gone (f.constInt types.I8 (if reflexiveCond cond then 1 else 0) 0) := by
  apply justified_bool simplifiable built linked op
  apply hasValue_of_icmp simplifiable built found linked op isCond
  intro World interp env point _ _ _ _ _
  rw [← same, evalCond_self]

section

variable (isCond : IntCond.ofCode? (f.inst i).aux.toNat = some .ne)
  (right : constIntOf mod f (f.operand i 1) = some r) (zero : r.bits = 0)
include isCond right zero

/-- Comparing with zero, for a value that is known to be zero or one. -/
theorem hasValue_of_bool
    (bool : ∀ (World : Type) (interp : Interp World) (env : Env) (point : Point),
      f.PointReached point → EquationsHold interp mod f env point →
      f.Readable (f.operand i 0) point → SoundType mod (f.valueType (f.operand i 0)) →
      mod.types.isInt (f.valueType (f.operand i 0)) = true →
      readValue interp mod f env (f.operand i 0) = value World interp env ∧
        (value World interp env = 0 ∨ value World interp env = 1)) :
    HasValue mod f i gone value := by
  apply hasValue_of_icmp simplifiable built found linked op isCond
  intro World interp env point reached holds readable sameType sound
  obtain ⟨isInt, narrow, -, y, rfl, readRight⟩ := constIntOf_eq right sameType
  have widths := width_of_sound sound isInt
  obtain ⟨isValue, zeroOrOne⟩ := bool World interp env point reached holds readable sound isInt
  have isZero : y = 0 := by
    have zeroWord : (0 : BitVec (bitSize mod (f.valueType (f.operand i 0)))).setWidth 64 = 0 := by
      simp
    rwa [← setWidth_word_inj narrow, zeroWord]
  rw [readRight, isZero, isValue]
  rcases zeroOrOne with isFalse | isTrue
  · rw [isFalse]
    simp [evalCond, boolVal]
  · rw [isTrue]
    generalize bitSize mod (f.valueType (f.operand i 0)) = width at widths
    have different :
        ((1 : Val).setWidth width != ((0 : BitVec width).setWidth 128).setWidth width) = true := by
      rw [bne_iff_ne]
      intro same
      have numbers := congrArg BitVec.toNat same
      rw [toNat_setWidth, show (1 : Val).toNat = 1 from rfl,
        Nat.mod_eq_of_lt (Nat.one_lt_two_pow (by omega))] at numbers
      simp at numbers
    simp only [evalCond, different, boolVal, if_true]

theorem justified_boolOperand {v : ValueId} (isOperand : boolOperand f (f.operand i 0) = some v) :
    Justified mod f i gone (v, f) := by
  obtain ⟨operands, isI8, -, -⟩ := icmp_typed simplifiable linked op
  rw [boolOperand] at isOperand
  split at isOperand
  case isTrue isBool =>
    cases isOperand
    refine .ofOperand simplifiable found linked (by simp [operands]) ?_ ?_
    · rw [isI8]
      exact hasType_of_isBoolValued simplifiable isBool
    · apply hasValue_of_bool simplifiable built found linked op isCond right zero
      intro World interp env point reached holds readable _ _
      exact ⟨rfl, (bool_of_isBoolValued simplifiable reached holds built isBool readable).2⟩
  case isFalse =>
    split at isOperand
    case isFalse => cases isOperand
    rename_i isResult
    dsimp only at isOperand
    split at isOperand
    case isFalse => cases isOperand
    rename_i extension
    cases isOperand
    obtain ⟨isZext, isBool⟩ := extension
    have used : f.operand i 0 ∈ f.operands i := by simp [operands]
    have count : (f.inst (f.defInst (f.operand i 0))).op.operandCount = some 1 := by
      rw [isZext]
      rfl
    have source : ∀ {point : Point}, f.PointReached point →
        f.Readable (f.operand i 0) point → _ := fun reached readable =>
      source_readable simplifiable reached isResult readable count
    refine ⟨.refl mod f, valid_of_isBoolValued simplifiable isBool, ?_, ?_, ?_, ?_⟩
    · rw [isI8]
      exact hasType_of_isBoolValued simplifiable isBool
    · intro reached
      exact .inl (source reached (simplifiable.single.operands reached found _ used)).2.2.1
    · intro reached
      exact (source reached (simplifiable.single.operands reached found _ used)).2.2.2
    · apply hasValue_of_bool simplifiable built found linked op isCond right zero
      intro World interp env point reached holds readable sound isInt
      obtain ⟨-, single, readableSource, -⟩ := source reached readable
      obtain ⟨-, zeroOrOne⟩ :=
        bool_of_isBoolValued simplifiable reached holds built isBool readableSource
      obtain ⟨-, -, -, -, -, computed⟩ :=
        result_computed simplifiable reached holds isResult readable
      have value := computed (by rw [isZext]; rfl) _ (evalPure_keep (.inr (.inl isZext)) single)
      refine ⟨?_, zeroOrOne⟩
      rw [value]
      have widths := width_of_sound sound isInt
      exact clampBits_bool (by omega) zeroOrOne

end

theorem justified_icmp
    (nonzero : (simplifyIcmp mod f (icmpCond (f.inst i).aux) (f.operand i 0)
      (f.operand i 1)).1 ≠ 0) :
    Justified mod f i gone
      (simplifyIcmp mod f (icmpCond (f.inst i).aux) (f.operand i 0) (f.operand i 1)) := by
  obtain ⟨-, -, ⟨cond, isCond⟩, -⟩ := icmp_typed simplifiable linked op
  rw [icmpCond_eq isCond] at nonzero ⊢
  rw [simplifyIcmp] at nonzero ⊢
  dsimp only at nonzero ⊢
  split at nonzero
  case h_1 l r left right =>
    exact justified_foldIcmp simplifiable built found linked op isCond left right
  case h_2 =>
    split at nonzero
    case isTrue same =>
      rw [if_pos same]
      exact justified_reflexive simplifiable built found linked op isCond same.1
    rename_i different
    rw [if_neg different]
    split at nonzero
    case isFalse => exact absurd rfl nonzero
    rename_i againstZero
    rw [if_pos againstZero]
    obtain ⟨isNe, bitsZero⟩ := againstZero
    obtain ⟨r, right, zero⟩ := map_eq_some_iff.mp bitsZero
    obtain rfl := Option.some.inj isNe
    cases isOperand : boolOperand f (f.operand i 0) with
    | none =>
      rw [isOperand] at nonzero
      exact absurd rfl nonzero
    | some v =>
      exact justified_boolOperand simplifiable built found linked op isCond right zero isOperand

end Icmp

section Casts

variable {mod : Module} {f : Function} {i : InstId} {gone : Point}
  (simplifiable : Simplifiable mod f) (found : f.instAt gone i) (linked : f.Linked i)
  (op : (f.inst i).op = .trunc ∨ (f.inst i).op = .zext ∨ (f.inst i).op = .sext)

section

variable {narrow wide : ℕ} (widens : narrow ≤ wide)
include widens

theorem setWidth_signExtend (fits : wide ≤ 64) (x : BitVec narrow) :
    (x.signExtend 64).setWidth wide = x.signExtend wide := by
  apply eq_of_toInt_eq
  rw [toInt_setWidth_of_le fits, toInt_signExtend_of_le (widens.trans fits),
    ← toInt_signExtend_of_le widens, toInt_bmod_cancel]

theorem signExtend_setWidth_self (x : BitVec narrow) : (x.signExtend wide).setWidth narrow = x := by
  apply eq_of_getLsbD_eq
  intro index inside
  rw [getLsbD_setWidth, getLsbD_signExtend]
  simp [inside, Nat.lt_of_lt_of_le inside widens]

theorem clampBits_clampBits (fits : wide ≤ 128) (x : Val) :
    clampBits narrow (clampBits wide x) = clampBits narrow x := by
  rw [clampBits, clampBits, setWidth_setWidth_of_le _ (widens.trans fits),
    setWidth_setWidth_of_le _ widens]
  rfl

end

include simplifiable linked op

theorem cast_typed :
    f.operands i = [f.operand i 0] ∧ mod.types.isInt (f.inst i).type = true ∧
      ∃ type, mod.types.isInt type = true ∧ f.HasType (f.operand i 0) type ∧
        if (f.inst i).op = .trunc then
          mod.types.intWidth (f.inst i).type < mod.types.intWidth type
        else mod.types.intWidth type < mod.types.intWidth (f.inst i).type := by
  have typed := simplifiable.typed linked
  have arity := simplifiable.arity linked 1 (by
    rcases op with op | op | op <;> rw [op] <;> rfl)
  rw [InstTyped] at typed
  rcases op with op | op | op <;> simp only [op] at typed ⊢ <;> exact ⟨operands_one arity, typed⟩

include found

theorem justified_castConstant {const : ConstInt}
    (isConst : constIntOf mod f (f.operand i 0) = some const)
    (narrow : mod.types.intWidth (f.inst i).type ≤ 64) :
    Justified mod f i gone (f.constInt (f.inst i).type
      ((if (f.inst i).op = .sext then signExtend const.bits const.width else const.bits) &&&
        widthMask (mod.types.intWidth (f.inst i).type)) 0) := by
  obtain ⟨operands, isInt, type, isIntFrom, hasType, change⟩ := cast_typed simplifiable linked op
  have used : f.operand i 0 ∈ f.operands i := by simp [operands]
  have size := bitSize_int isInt
  rw [← size] at narrow ⊢
  rw [and_widthMask narrow]
  refine .ofConstant simplifiable (.inl rfl) (canonicalInt_of_bitVec isInt _ narrow) ?_
  intro World interp env point reached after holds
  have reachedGone := reached_gone reached after
  have sound := (simplifiable.checked reachedGone found _ used).2
  obtain ⟨isIntFrom', narrowFrom, -, x, rfl, readConst⟩ := constIntOf_eq isConst rfl
  have widths := width_of_sound sound isIntFrom'
  have folded : ∀ bits : Word, clamp mod (f.inst i).type
      ((0 : Word) ++ (bits.setWidth (bitSize mod (f.inst i).type)).setWidth 64) =
        (bits.setWidth (bitSize mod (f.inst i).type)).setWidth 128 := by
    intro bits
    rw [clamp, clampBits, setWidth_append_low narrow, setWidth_setWidth_of_le _ narrow, setWidth_eq]
  dsimp only
  rw [folded]
  by_cases signed : (f.inst i).op = .sext
  · refine ⟨_, evalPure_sext signed operands, ?_⟩
    have widens : bitSize mod (f.valueType (f.operand i 0)) ≤ bitSize mod (f.inst i).type := by
      have same := simplifiable.hasType_of_readable hasType reachedGone
        (simplifiable.single.operands reachedGone found _ used)
      rw [signed, if_neg (by simp)] at change
      rw [size, same, bitSize_int isIntFrom]
      exact change.le
    rw [if_pos signed, signExtend_setWidth (by omega) narrowFrom,
      setWidth_signExtend widens narrow, readConst, setWidth_setWidth_of_le _ widths.2,
      setWidth_eq, clamp, clampBits_setWidth (by omega)]
  · have keeps : (f.inst i).op = .trunc ∨ (f.inst i).op = .zext ∨ (f.inst i).op = .bitcast := by
      rcases op with op | op | op
      · exact .inl op
      · exact .inr (.inl op)
      · exact absurd op signed
    refine ⟨_, evalPure_keep keeps operands, ?_⟩
    have cut : (x.setWidth 128).setWidth (bitSize mod (f.inst i).type) =
        x.setWidth (bitSize mod (f.inst i).type) :=
      setWidth_setWidth_of_le _ (by omega)
    rw [if_neg signed, readConst, clamp, clampBits, cut, setWidth_setWidth_of_le _ narrow]

theorem justified_truncExtension (built : mod.types.Built) (isTrunc : (f.inst i).op = .trunc)
    (isResult : (f.value (f.operand i 0)).kind = .instResult)
    (extends' : (f.inst (f.defInst (f.operand i 0))).op = .zext ∨
      (f.inst (f.defInst (f.operand i 0))).op = .sext)
    (sameType : f.valueType (f.operand (f.defInst (f.operand i 0)) 0) = (f.inst i).type) :
    Justified mod f i gone (f.operand (f.defInst (f.operand i 0)) 0, f) := by
  obtain ⟨operands, isInt, type, isIntFrom, hasType, change⟩ := cast_typed simplifiable linked op
  have used : f.operand i 0 ∈ f.operands i := by simp [operands]
  have count : (f.inst (f.defInst (f.operand i 0))).op.operandCount = some 1 := by
    rcases extends' with op | op <;> rw [op] <;> rfl
  have source : ∀ {point : Point}, f.PointReached point →
      f.Readable (f.operand i 0) point → _ := fun reached readable =>
    source_readable simplifiable reached isResult readable count
  have valid : f.isValidValue (f.operand (f.defInst (f.operand i 0)) 0) = true := by
    apply simplifiable.blank.valid_of_ne
    intro blank
    rw [valueType, blank] at sameType
    rw [← sameType, TypeTable.isInt, built.type_eq (by decide)] at isInt
    cases isInt
  refine ⟨.refl mod f, valid, .inl sameType, ?_, ?_, ?_⟩
  · intro reached
    exact .inl (source reached (simplifiable.single.operands reached found _ used)).2.2.1
  · intro reached
    exact (source reached (simplifiable.single.operands reached found _ used)).2.2.2
  · intro World interp env point reached after holds
    have reachedGone := reached_gone reached after
    have readable := (simplifiable.single.operands reachedGone found _ used).at_point after
    have sound := (simplifiable.checked reachedGone found _ used).2
    obtain ⟨-, single, -, -⟩ := source reached readable
    obtain ⟨-, -, -, -, sameResult, computed⟩ :=
      result_computed simplifiable reached holds isResult readable
    refine ⟨_, evalPure_keep (.inl isTrunc) operands, ?_⟩
    have widens : bitSize mod (f.inst i).type ≤ bitSize mod (f.valueType (f.operand i 0)) := by
      have same := simplifiable.hasType_of_readable hasType reached readable
      rw [isTrunc, if_pos rfl] at change
      rw [bitSize_int isInt, same, bitSize_int isIntFrom]
      exact change.le
    have widths : bitSize mod (f.valueType (f.operand i 0)) ≤ 128 := by
      have same := simplifiable.hasType_of_readable hasType reached readable
      exact (width_of_sound sound (same ▸ isIntFrom)).2
    dsimp only
    have sourceValue := readValue_eq_setWidth interp mod f env
      (f.operand (f.defInst (f.operand i 0)) 0)
    rw [sameType] at sourceValue
    rcases extends' with isZext | isSext
    · have value := computed (by rw [isZext]; rfl) _ (evalPure_keep (.inr (.inl isZext)) single)
      rw [value, clamp, clamp, clampBits_clampBits widens widths]
      exact sourceValue.symm
    · have value := computed (by rw [isSext]; rfl) _ (evalPure_sext isSext single)
      rw [value, clamp, clamp, clampBits_clampBits widens widths, clampBits,
        setWidth_setWidth_of_le _ (widens.trans widths), sameResult, sameType,
        signExtend_setWidth_self widens]
      exact sourceValue.symm

theorem justified_intCast (built : mod.types.Built)
    (nonzero : (simplifyIntCast mod f (f.inst i).op (f.inst i).type (f.operand i 0)).1 ≠ 0) :
    Justified mod f i gone
      (simplifyIntCast mod f (f.inst i).op (f.inst i).type (f.operand i 0)) := by
  rw [simplifyIntCast] at nonzero ⊢
  dsimp only at nonzero ⊢
  split at nonzero
  case h_1 const isConst =>
    obtain ⟨isConst, narrow⟩ := filter_eq_some_iff.mp isConst
    exact justified_castConstant simplifiable found linked op isConst (of_decide_eq_true narrow)
  case h_2 =>
    split at nonzero
    case isFalse => exact absurd rfl nonzero
    rename_i extension
    rw [if_pos extension]
    obtain ⟨isTrunc, isResult, extends', sameType⟩ := extension
    exact justified_truncExtension simplifiable found linked op built isTrunc isResult extends'
      sameType

end Casts

section Floats

variable {mod : Module} {f : Function} {i : InstId} {gone : Point}
  (simplifiable : Simplifiable mod f) (built : mod.types.Built) (found : f.instAt gone i)
  (linked : f.Linked i)

theorem toNat_append_words (high low : Word) :
    (high ++ low).toNat = 2 ^ 64 * high.toNat + low.toNat := by
  rw [toNat_append, Nat.shiftLeft_eq, Nat.mul_comm, Nat.two_pow_add_eq_or_of_lt low.isLt]

theorem clampBits_of_lt {bits : ℕ} {v : Val} (fits : v.toNat < 2 ^ bits) :
    clampBits bits v = v := by
  apply eq_of_toNat_eq
  rw [clampBits, toNat_setWidth, toNat_setWidth, Nat.mod_eq_of_lt fits, Nat.mod_eq_of_lt v.isLt]

theorem high_append (high low : Word) : ((high ++ low) >>> 64).setWidth 64 = high := by
  apply eq_of_toNat_eq
  rw [toNat_setWidth, toNat_ushiftRight, toNat_append_words, Nat.shiftRight_eq_div_pow]
  have := low.isLt
  have := high.isLt
  omega

/-- Canonical constants are those that fit the storage of their type. -/
theorem constFloatCanonical_iff {kind : FloatKind} {data : ValueData} :
    constFloatCanonical kind data = true ↔
      (data.payload2 ++ data.payload).toNat < 2 ^ floatBits kind := by
  have low := data.payload.isLt
  have high := data.payload2.isLt
  have zero : ∀ word : Word, word = 0 ↔ word.toNat = 0 := by
    intro word
    rw [← toNat_inj]
    rfl
  have shifted : ∀ (word : Word) amount, word >>> amount = 0 ↔ word.toNat < 2 ^ amount := by
    intro word amount
    rw [zero, toNat_ushiftRight, Nat.shiftRight_eq_div_pow, Nat.div_eq_zero_iff]
    have := Nat.two_pow_pos amount
    omega
  rw [toNat_append_words]
  cases kind <;>
    simp only [constFloatCanonical, floatBits, Bool.and_eq_true, beq_iff_eq, shifted, true_iff]
  · rw [zero]
    omega
  · rw [zero]
    omega
  · omega
  · omega

/-- The types whose formats the folder knows. -/
theorem format_known (built : mod.types.Built) {type : TypeId}
    (known : floatFormat type ≠ .invalid) :
    mod.types.isFloat type = true ∧ ∃ fmt, descriptor (floatFormat type) = some fmt ∧
      fmt.storageBits = floatBits (mod.types.type type).floatKind := by
  rw [floatFormat] at known ⊢
  split_ifs at known ⊢ with isF32 isF64 isF80 isF128
  · subst isF32
    rw [TypeTable.isFloat, built.type_eq (by decide)]
    exact ⟨rfl, _, rfl, rfl⟩
  · subst isF64
    rw [TypeTable.isFloat, built.type_eq (by decide)]
    exact ⟨rfl, _, rfl, rfl⟩
  · subst isF80
    rw [TypeTable.isFloat, built.type_eq (by decide)]
    exact ⟨rfl, _, rfl, rfl⟩
  · subst isF128
    rw [TypeTable.isFloat, built.type_eq (by decide)]
    exact ⟨rfl, _, rfl, rfl⟩
  · exact absurd rfl known

include simplifiable built in
theorem justified_floatResult {result : FloatResult}
    (known : floatFormat (f.inst i).type ≠ .invalid) (valued : result.hasValue = true)
    (encoded : Encoded (floatFormat (f.inst i).type) result.value)
    (equal : ∀ (World : Type) (interp : Interp World) (env : Env) (point : Point),
      f.PointReached point → point = gone ∨ f.Executed gone point →
      evalPure interp mod (f.shape i) (readAll interp mod f env (f.operands i)) =
        floatResult result) :
    Justified mod f i gone
      (f.constFloatBits (f.inst i).type result.value.lowBits result.value.highBits) := by
  obtain ⟨isFloat, fmt, described, storage⟩ := format_known built known
  refine .ofConstant simplifiable (.inr rfl) ⟨isFloat, ?_⟩ ?_
  · rw [constFloatCanonical_iff, ← storage]
    obtain ⟨raw, isRaw⟩ := encoded
    have fits := rawBits_fromRaw_lt described raw
    rw [← isRaw] at fits
    exact fits
  · intro World interp env point reached after _
    refine ⟨rawBits result.value, ?_, rfl⟩
    rw [equal World interp env point reached after, floatResult, if_pos valued]

include simplifiable built found linked

theorem justified_floatCast (op : (f.inst i).op = .fpext ∨ (f.inst i).op = .fptrunc)
    (nonzero : (simplifyFloatCast f (f.inst i).type (f.operand i 0)).1 ≠ 0) :
    Justified mod f i gone (simplifyFloatCast f (f.inst i).type (f.operand i 0)) := by
  have arity := simplifiable.arity linked 1 (by rcases op with op | op <;> rw [op] <;> rfl)
  have operands := operands_one arity
  have used : f.operand i 0 ∈ f.operands i := by simp [operands]
  rw [simplifyFloatCast] at nonzero ⊢
  split at nonzero
  case isFalse => exact absurd rfl nonzero
  rename_i foldable
  rw [if_pos foldable]
  obtain ⟨isConst, known⟩ := foldable
  rw [internFloatResult] at nonzero ⊢
  split at nonzero
  case isFalse => exact absurd rfl nonzero
  rename_i valued
  rw [if_pos valued]
  refine justified_floatResult simplifiable built known valued (convert_encoded valued) ?_
  intro World interp env point reached after
  rw [evalPure_floatCast op operands]
  have canonical := (simplifiable.checked (reached_gone reached after) found _ used).1
  simp only [CanonicalData, isConst] at canonical
  have kind : (mod.types.type (f.value (f.operand i 0)).type).kind = .float := by
    simpa [TypeTable.isFloat] using canonical.1
  have size : bitSize mod (f.value (f.operand i 0)).type =
      floatBits (mod.types.type (f.value (f.operand i 0)).type).floatKind := by
    simp [bitSize, kind]
  have fits := constFloatCanonical_iff.1 canonical.2
  have constant : f.isConstant (f.operand i 0) = true := by simp [isConstant, isConst]
  have value : readValue interp mod f env (f.operand i 0) =
      (f.value (f.operand i 0)).payload2 ++ (f.value (f.operand i 0)).payload := by
    rw [readValue, constant]
    simp only [if_true, Air.constant, isConst, clamp, size]
    exact clampBits_of_lt fits
  rw [value, valueType, floatOperand, floatValueOf, setWidth_append_low le_rfl, high_append,
    setWidth_eq]

omit found in
theorem justified_intToFloat (op : (f.inst i).op = .sitofp ∨ (f.inst i).op = .uitofp)
    (nonzero : (simplifyIntToFloat mod f (f.inst i).op (f.inst i).type (f.operand i 0)).1 ≠ 0) :
    Justified mod f i gone
      (simplifyIntToFloat mod f (f.inst i).op (f.inst i).type (f.operand i 0)) := by
  have arity := simplifiable.arity linked 1 (by rcases op with op | op <;> rw [op] <;> rfl)
  have operands := operands_one arity
  rw [simplifyIntToFloat] at nonzero ⊢
  split at nonzero
  case h_2 => exact absurd rfl nonzero
  rename_i const isConst
  obtain ⟨isConst, known⟩ := filter_eq_some_iff.mp isConst
  rw [internFloatResult] at nonzero ⊢
  split at nonzero
  case isFalse => exact absurd rfl nonzero
  rename_i valued
  rw [if_pos valued]
  refine justified_floatResult simplifiable built (of_decide_eq_true known) valued
    (fromInteger_encoded valued) ?_
  intro World interp env point reached after
  obtain ⟨-, narrow, -, x, rfl, readConst⟩ := constIntOf_eq isConst rfl
  rw [evalPure_intToFloat op operands, readConst]
  dsimp only
  rw [setWidth_setWidth (by omega)]

end Floats

section Copies

variable {mod : Module} {f : Function} {i : InstId} {gone : Point}
  (simplifiable : Simplifiable mod f) (built : mod.types.Built) (found : f.instAt gone i)
  (linked : f.Linked i)

include simplifiable found linked

theorem justified_bitcast (op : (f.inst i).op = .bitcast)
    (sameType : f.valueType (f.operand i 0) = (f.inst i).type) :
    Justified mod f i gone (f.operand i 0, f) := by
  have operands := operands_one (simplifiable.arity linked 1 (by rw [op]; rfl))
  have used : f.operand i 0 ∈ f.operands i := by simp [operands]
  refine .ofOperand simplifiable found linked used (.inl sameType) ?_
  intro World interp env point reached after holds
  refine ⟨_, evalPure_keep (.inr (.inr op)) operands, ?_⟩
  rw [← sameType]
  exact clamp_readValue env _

theorem justified_ptrAdd (op : (f.inst i).op = .ptrAdd)
    (zeroOffset : (constIntOf mod f (f.operand i 1)).map ConstInt.bits = some 0) :
    Justified mod f i gone (f.operand i 0, f) := by
  have operands := operands_two (simplifiable.arity linked 2 (by rw [op]; rfl))
  have used : f.operand i 0 ∈ f.operands i := by simp [operands]
  have hasType : f.HasType (f.operand i 0) (f.inst i).type := by
    have typed := simplifiable.typed linked
    rwa [InstTyped, op] at typed
  refine .ofOperand simplifiable found linked used hasType ?_
  intro World interp env point reached after holds
  have reachedGone := reached_gone reached after
  have readable := simplifiable.single.operands reachedGone found _ used
  have sameType := simplifiable.hasType_of_readable hasType reachedGone readable
  obtain ⟨const, isConst, zero⟩ := map_eq_some_iff.mp zeroOffset
  obtain ⟨-, narrow, -, x, rfl, readConst⟩ := constIntOf_eq isConst rfl
  have isZero : x = 0 := (setWidth_word_inj narrow).mp (by simpa using zero)
  refine ⟨_, evalPure_ptrAdd op operands, ?_⟩
  have noOffset : (0 : BitVec (bitSize mod (f.valueType (f.operand i 1)))).setWidth 128 = 0 :=
    setWidth_zero _ _
  have added : readValue interp mod f env (f.operand i 0) +
      readValue interp mod f env (f.operand i 1) = readValue interp mod f env (f.operand i 0) := by
    rw [readConst, isZero, noOffset]
    exact BitVec.add_zero _
  rw [added, ← sameType]
  exact clamp_readValue env _

omit found in
theorem select_typed (op : (f.inst i).op = .select) :
    f.operands i = [f.operand i 0, f.operand i 1, f.operand i 2] ∧
      f.HasType (f.operand i 0) types.I8 ∧ f.HasType (f.operand i 1) (f.inst i).type ∧
      f.HasType (f.operand i 2) (f.inst i).type := by
  have typed := simplifiable.typed linked
  rw [InstTyped, op] at typed
  exact ⟨operands_three (simplifiable.arity linked 3 (by rw [op]; rfl)), typed⟩

theorem justified_arm (op : (f.inst i).op = .select) {index : ℕ}
    (isArm : index = 1 ∨ index = 2)
    (taken : ∀ (World : Type) (interp : Interp World) (env : Env), f.PointReached gone →
      (if readValue interp mod f env (f.operand i 0) = 0
        then readValue interp mod f env (f.operand i 2)
        else readValue interp mod f env (f.operand i 1)) =
      readValue interp mod f env (f.operand i index)) :
    Justified mod f i gone (f.operand i index, f) := by
  obtain ⟨operands, -, first, second⟩ := select_typed simplifiable linked op
  have used : f.operand i index ∈ f.operands i := by
    rcases isArm with rfl | rfl <;> simp [operands]
  have hasType : f.HasType (f.operand i index) (f.inst i).type := by
    rcases isArm with rfl | rfl
    · exact first
    · exact second
  refine .ofOperand simplifiable found linked used hasType ?_
  intro World interp env point reached after holds
  have reachedGone := reached_gone reached after
  have sameType := simplifiable.hasType_of_readable hasType reachedGone
    (simplifiable.single.operands reachedGone found _ used)
  refine ⟨_, evalPure_select op operands, ?_⟩
  rw [taken World interp env reachedGone, ← sameType]
  exact clamp_readValue env _

include built

section

variable (op : (f.inst i).op = .select)
include op

theorem condition_zero_iff (isConst : (f.value (f.operand i 0)).kind = .constInt)
    (reached : f.PointReached gone) {World : Type} (interp : Interp World) (env : Env) :
    readValue interp mod f env (f.operand i 0) = 0 ↔ (f.value (f.operand i 0)).payload = 0 := by
  obtain ⟨operands, hasType, -, -⟩ := select_typed simplifiable linked op
  have constant : f.isConstant (f.operand i 0) = true := by simp [isConstant, isConst]
  have type : (f.value (f.operand i 0)).type = types.I8 := hasType.of_constant constant
  have canonical := (simplifiable.checked reached found (f.operand i 0) (by simp [operands])).1
  have width : mod.types.intWidth types.I8 = 8 := by
    rw [TypeTable.intWidth, built.type_eq (by decide)]
    rfl
  have size : bitSize mod types.I8 = 8 := by
    rw [bitSize, built.type_eq (by decide)]
    rfl
  simp only [CanonicalData, isConst, type, width, constIntCanonical, Nat.reduceLT, if_true,
    Bool.and_eq_true, beq_iff_eq] at canonical
  have small : (f.value (f.operand i 0)).payload.toNat < 2 ^ 8 := by
    have shifted := congrArg BitVec.toNat canonical.2.2
    rw [toNat_ushiftRight, Nat.shiftRight_eq_div_pow] at shifted
    exact (Nat.div_eq_zero_iff.mp shifted).resolve_left (by decide)
  rw [readValue, constant]
  simp only [if_true, Air.constant, isConst, type]
  rw [clamp, size, clampBits, setWidth_append_low (by omega), ← toNat_inj,
    ← toNat_inj, toNat_setWidth, toNat_setWidth, Nat.mod_eq_of_lt small,
    Nat.mod_eq_of_lt (small.trans (by decide))]
  rfl

theorem justified_truth {t e : ConstInt} (isThen : constIntOf mod f (f.operand i 1) = some t)
    (isElse : constIntOf mod f (f.operand i 2) = some e)
    (truth : (f.inst i).type = types.I8 ∧ t.bits = 1 ∧ e.bits = 0 ∧
      isBoolValued f boolDepth (f.operand i 0) = true) :
    Justified mod f i gone (f.operand i 0, f) := by
  obtain ⟨operands, condition, first, second⟩ := select_typed simplifiable linked op
  obtain ⟨isI8, one, zero, isBool⟩ := truth
  have used : f.operand i 0 ∈ f.operands i := by simp [operands]
  refine .ofOperand simplifiable found linked used (isI8 ▸ condition) ?_
  intro World interp env point reached after holds
  obtain ⟨-, narrow, -, x, rfl, readThen⟩ := constIntOf_eq isThen rfl
  obtain ⟨-, narrow', -, y, rfl, readElse⟩ := constIntOf_eq isElse rfl
  have readable := (simplifiable.single.operands (reached_gone reached after) found _ used).at_point
    after
  obtain ⟨type, bool⟩ := bool_of_isBoolValued simplifiable reached holds built isBool readable
  have isOne : (x.setWidth 128 : Val) = 1 := by
    have widened := congrArg (setWidth 128) one
    rwa [setWidth_setWidth (by omega)] at widened
  have isZero : (y.setWidth 128 : Val) = 0 := by
    have widened := congrArg (setWidth 128) zero
    rwa [setWidth_setWidth (by omega)] at widened
  refine ⟨_, evalPure_select op operands, ?_⟩
  have same : (if readValue interp mod f env (f.operand i 0) = 0
      then readValue interp mod f env (f.operand i 2)
      else readValue interp mod f env (f.operand i 1)) =
      readValue interp mod f env (f.operand i 0) := by
    rw [readThen, readElse, isOne, isZero]
    rcases bool with isFalse | isTrue
    · rw [isFalse, if_pos rfl]
    · rw [isTrue, if_neg (by decide)]
  rw [same, isI8, ← type]
  exact clamp_readValue env _

theorem justified_select
    (nonzero : simplifySelect mod f (f.inst i).type (f.operand i 0) (f.operand i 1)
      (f.operand i 2) ≠ 0) :
    Justified mod f i gone (simplifySelect mod f (f.inst i).type (f.operand i 0)
      (f.operand i 1) (f.operand i 2), f) := by
  rw [simplifySelect] at nonzero ⊢
  split at nonzero
  case isTrue isConst =>
    rw [if_pos isConst]
    split
    case isTrue set =>
      apply justified_arm simplifiable found linked op (.inl rfl)
      intro World interp env reached
      rw [if_neg]
      rwa [condition_zero_iff simplifiable built found linked op isConst reached]
    case isFalse clear =>
      apply justified_arm simplifiable found linked op (.inr rfl)
      intro World interp env reached
      rw [if_pos]
      rw [condition_zero_iff simplifiable built found linked op isConst reached]
      exact not_not.mp clear
  case isFalse notConst =>
  rw [if_neg notConst]
  split at nonzero
  case isTrue same =>
    rw [if_pos same]
    apply justified_arm simplifiable found linked op (.inl rfl)
    intro World interp env reached
    rw [← same, ite_self]
  case isFalse different =>
  rw [if_neg different]
  split at nonzero
  case h_2 => exact absurd rfl nonzero
  case h_1 t e isThen isElse =>
  split at nonzero
  case isFalse => exact absurd rfl nonzero
  case isTrue truth =>
  simp only [if_pos truth]
  exact justified_truth simplifiable built found linked op isThen isElse truth

end

end Copies

section Simplifier

variable {mod : Module} {f : Function} {i : InstId}

/-- Every rewrite of the simplifier yields a value equal to the result. -/
theorem simplifyInst_justified (simplifiable : Simplifiable mod f) (built : mod.types.Built)
    {gone : Point} (found : f.instAt gone i) (linked : f.Linked i)
    (nonzero : (simplifyInst mod f i).1 ≠ 0) :
    (f.inst i).op.isTerminator = false ∧ Justified mod f i gone (simplifyInst mod f i) := by
  have binop : isIntBinop (f.inst i).op = true →
      simplifyInst mod f i =
        simplifyBinop mod f (f.inst i).op (f.inst i).type (f.operand i 0) (f.operand i 1) →
      Justified mod f i gone (simplifyInst mod f i) := by
    intro isBinop same
    rw [same] at nonzero ⊢
    exact justified_binop simplifiable found linked isBinop nonzero
  rw [simplifyInst] at binop nonzero ⊢
  cases op : (f.inst i).op <;> simp only [op] at binop nonzero ⊢ <;>
    first
    | exact absurd rfl nonzero
    | exact ⟨rfl, binop rfl rfl⟩
    | refine ⟨rfl, ?_⟩
  case icmp => exact justified_icmp simplifiable built found linked op nonzero
  case trunc | zext | sext =>
    rw [← op] at nonzero ⊢
    refine justified_intCast simplifiable found linked ?_ built nonzero
    simp [op]
  case fpext | fptrunc =>
    refine justified_floatCast simplifiable built found linked ?_ nonzero
    simp [op]
  case sitofp | uitofp =>
    rw [← op] at nonzero ⊢
    refine justified_intToFloat simplifiable built linked ?_ nonzero
    simp [op]
  case bitcast =>
    split at nonzero
    case isFalse => exact absurd rfl nonzero
    rename_i sameType
    rw [if_pos sameType]
    exact justified_bitcast simplifiable found linked op sameType
  case ptrAdd =>
    split at nonzero
    case isFalse => exact absurd rfl nonzero
    rename_i zeroOffset
    rw [if_pos zeroOffset]
    exact justified_ptrAdd simplifiable found linked op zeroOffset
  case select => exact justified_select simplifiable built found linked op nonzero

/-- A selection between values of any other type than a truth value is
replaced by one of its arms. -/
theorem simplifyInst_arm (isSelect : (f.inst i).op = .select)
    (notBool : (f.inst i).type ≠ types.I8) (nonzero : (simplifyInst mod f i).1 ≠ 0) :
    (simplifyInst mod f i).1 = f.operand i 1 ∨ (simplifyInst mod f i).1 = f.operand i 2 := by
  rw [simplifyInst] at nonzero ⊢
  simp only [isSelect, simplifySelect, notBool, false_and, if_false] at nonzero ⊢
  split_ifs at nonzero ⊢ with isConst set same
  · exact .inl rfl
  · exact .inr rfl
  · exact .inl rfl
  · split at nonzero <;> exact absurd rfl nonzero

/-- What is interned is the answer. -/
def Interns (f : Function) (simplified : ValueId × Function) : Prop :=
  simplified.2 = f ∨ ∃ kind type payload payload2, (kind = .constInt ∨ kind = .constFloat) ∧
    simplified = f.internConstant kind type payload payload2

theorem Interns.constInt (type : TypeId) (bits : Word) : Interns f (f.constInt type bits 0) :=
  .inr ⟨_, _, _, _, .inl rfl, rfl⟩

theorem Interns.floatResult (type : TypeId) (result : FloatResult) :
    Interns f (internFloatResult f type result) := by
  rw [internFloatResult]
  split
  · exact .inr ⟨_, _, _, _, .inr rfl, rfl⟩
  · exact .inl rfl

theorem Interns.withConstant {op : Opcode} {type : TypeId} {v : ValueId} {const : ConstInt}
    {onRight : Bool} {simplified : ValueId × Function}
    (identity : simplifyWithConstant f op type v const onRight = some simplified) :
    Interns f simplified := by
  unfold simplifyWithConstant at identity
  split at identity <;> try split_ifs at identity
  all_goals cases identity
  all_goals
    first
    | exact .inl rfl
    | exact .constInt _ _

theorem Interns.binop (op : Opcode) (type : TypeId) (left right : ValueId) :
    Interns f (simplifyBinop mod f op type left right) := by
  rw [simplifyBinop]
  cases folded : foldBinop mod f op type left right with
  | some simplified =>
    obtain ⟨l, -, rest⟩ := bind_eq_some_iff.mp folded
    obtain ⟨r, -, rest⟩ := bind_eq_some_iff.mp rest
    obtain ⟨bits, -, packed⟩ := bind_eq_some_iff.mp rest
    cases packed
    exact .constInt _ _
  | none =>
    cases identity : binopIdentity mod f op type left right with
    | some simplified =>
      rw [binopIdentity] at identity
      split at identity
      · exact .withConstant identity
      · split at identity
        · exact .withConstant identity
        · cases identity
      · cases identity
    | none =>
      rw [orElse_none, orElse_none, sameOperand]
      split <;> exact .inl rfl

theorem simplifyInst_interns : Interns f (simplifyInst mod f i) := by
  have unchanged : ∀ v, Interns f (v, f) := fun _ => .inl rfl
  have casts : ∀ op type v, Interns f (simplifyIntCast mod f op type v) := by
    intro op type v
    rw [simplifyIntCast]
    dsimp only
    split
    · exact .constInt _ _
    · split <;> exact unchanged _
  have floats : ∀ op type v, Interns f (simplifyIntToFloat mod f op type v) := by
    intro op type v
    rw [simplifyIntToFloat]
    split
    · exact .floatResult _ _
    · exact unchanged _
  have floatCasts : ∀ type v, Interns f (simplifyFloatCast f type v) := by
    intro type v
    rw [simplifyFloatCast]
    split
    · exact .floatResult _ _
    · exact unchanged _
  have comparisons : ∀ cond left right, Interns f (simplifyIcmp mod f cond left right) := by
    intro cond left right
    rw [simplifyIcmp]
    dsimp only
    split
    · exact .constInt _ _
    · split
      · exact .constInt _ _
      · split <;> exact unchanged _
  rw [simplifyInst]
  cases (f.inst i).op <;> dsimp only <;>
    first
    | exact unchanged _
    | exact .binop _ _ _ _
    | exact comparisons _ _ _
    | exact casts _ _ _
    | exact floats _ _ _
    | exact floatCasts _ _

end Simplifier

end Aburi.Air
