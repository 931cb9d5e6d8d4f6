import Aburi.Air.IntegerFolding
import Aburi.Air.OperandTypes

/-!
# Justified replacements

What a value has to satisfy to stand for the result of an instruction: it is
equal to the result wherever the instruction was executed, has its type, and
can be read where the instruction stands.  Only canonical constants may be
interned for it.
-/

namespace Aburi.Air

open Aburi.Lib Aburi.Numeric FunctionVerifier Aburi.Air.Function List Nat

/-- The second function has the tables of the first and more constants. -/
structure Grown (mod : Module) (f g : Function) : Prop where
  same : g = { f with values := g.values }
  valid : ∀ v, f.isValidValue v = true → g.isValidValue v = true
  kept : ∀ v, f.isValidValue v = true → g.value v = f.value v
  interned : ∀ v, g.isValidValue v = true → f.isValidValue v = false →
    g.isConstant v = true ∧ CanonicalData mod (g.value v)

theorem Grown.refl (mod : Module) (f : Function) : Grown mod f f :=
  ⟨rfl, fun _ valid => valid, fun _ _ => rfl, fun v valid invalid => by
    rw [valid] at invalid
    cases invalid⟩

variable {type : TypeId}

theorem internConstant_grown {mod : Module} {f : Function} (consistent : f.Consistent)
    {kind : ValueKind} {payload payload2 : Word}
    (isConstant : kind ≠ .instResult ∧ kind ≠ .blockParam)
    (canonical : CanonicalData mod ⟨kind, type, payload, payload2⟩) :
    Grown mod f (f.internConstant kind type payload payload2).2 ∧
      (f.internConstant kind type payload payload2).2.isValidValue
        (f.internConstant kind type payload payload2).1 = true ∧
      (f.internConstant kind type payload payload2).2.value
        (f.internConstant kind type payload payload2).1 = ⟨kind, type, payload, payload2⟩ := by
  rw [internConstant]
  split
  case h_1 index present =>
    have found := find?_some present
    have inside := List.mem_range.mp (mem_of_find?_eq_some present)
    simp only [Bool.and_eq_true, decide_eq_true_eq, beq_iff_eq] at found
    exact ⟨Grown.refl mod f, Slots.isValid_iff.mpr ⟨found.1, inside⟩, found.2⟩
  case h_2 =>
    have newValue : (f.newValue kind type payload payload2).2.value f.values.size =
        ⟨kind, type, payload, payload2⟩ := Slots.get_push_self _ _
    refine ⟨⟨rfl, ?_, ?_, ?_⟩, ?_, newValue⟩
    · intro v valid
      obtain ⟨positive, bounded⟩ := Slots.isValid_iff.mp valid
      exact Slots.isValid_iff.mpr ⟨positive, lt_succ_of_lt bounded⟩
    · intro v valid
      exact Slots.get_push_of_valid _ _ (Slots.isValid_iff.mp valid).2
    · intro v valid invalid
      obtain ⟨positive, bounded⟩ := Slots.isValid_iff.mp valid
      have notOld : ¬ v < f.values.size := by
        intro inside
        have old : f.isValidValue v = true := Slots.isValid_iff.mpr ⟨positive, inside⟩
        rw [invalid] at old
        cases old
      have isNew : v = f.values.size :=
        Nat.le_antisymm (Nat.lt_succ_iff.mp bounded) (Nat.not_lt.mp notOld)
      subst isNew
      refine ⟨?_, newValue ▸ canonical⟩
      rw [Function.isConstant, newValue]
      cases kind <;> simp_all
    · exact Slots.isValid_iff.mpr ⟨consistent.valuesPos, lt_succ_self _⟩

theorem clampBits_setWidth {bits : ℕ} (narrow : bits ≤ 128) (x : BitVec bits) :
    clampBits bits (x.setWidth 128) = x.setWidth 128 := by
  rw [clampBits, BitVec.setWidth_setWidth_of_le _ narrow, BitVec.setWidth_eq]

theorem setWidth_append_low {bits : ℕ} (narrow : bits ≤ 64) (high low : Word) :
    (high ++ low).setWidth bits = low.setWidth bits := by
  have divides : 2 ^ bits ∣ 2 ^ 64 * high.toNat := (Nat.pow_dvd_pow 2 narrow).mul_right _
  apply BitVec.eq_of_toNat_eq
  rw [BitVec.toNat_setWidth, BitVec.toNat_setWidth, BitVec.toNat_append, shiftLeft_eq,
    Nat.mul_comm, ← two_pow_add_eq_or_of_lt low.isLt, add_mod,
    mod_eq_zero_of_dvd divides, Nat.zero_add, mod_mod]

theorem bitSize_int {mod : Module} (isInt : mod.types.isInt type = true) :
    bitSize mod type = mod.types.intWidth type := by
  have kind : (mod.types.type type).kind = .int := by simpa [TypeTable.isInt] using isInt
  simp [bitSize, kind, TypeTable.intWidth]

variable {v : ValueId}

theorem constIntOf_eq {mod : Module} {f : Function} {const : ConstInt}
    (found : constIntOf mod f v = some const) (same : f.valueType v = type) :
    mod.types.isInt type = true ∧ bitSize mod type ≤ 64 ∧ f.isConstant v = true ∧
      ∃ x : BitVec (bitSize mod type), const = ⟨x.setWidth 64, bitSize mod type⟩ ∧
        ∀ (World : Type) (interp : Interp World) (env : Env),
          readValue interp mod f env v = x.setWidth 128 := by
  subst same
  rw [constIntOf] at found
  dsimp only at found
  split at found
  · cases found
  rename_i isConst
  rw [not_or, not_not, Bool.not_eq_false] at isConst
  have kind := isConst.1
  have isInt : mod.types.isInt (f.valueType v) = true := isConst.2
  have size := bitSize_int isInt
  split at found
  · cases found
  rename_i narrow
  cases found
  have narrow : bitSize mod (f.valueType v) ≤ 64 := by
    rw [size]
    exact Nat.not_lt.mp narrow
  have constant : f.isConstant v = true := by simp [isConstant, kind]
  refine ⟨isInt, narrow, constant,
    (f.value v).payload.setWidth (bitSize mod (f.valueType v)), ?_, ?_⟩
  · rw [size] at narrow ⊢
    rw [← and_widthMask narrow]
    rfl
  · intro World interp env
    rw [readValue, constant]
    simp only [if_true, Air.constant, kind, clamp, clampBits]
    exact congrArg (BitVec.setWidth 128) (setWidth_append_low narrow _ _)

theorem setWidth_val_inj {bits : ℕ} (wide : bits ≤ 128) {x y : BitVec bits}
    (same : x.setWidth 128 = y.setWidth 128) : x = y := by
  have cut := congrArg (BitVec.setWidth bits) same
  rwa [BitVec.setWidth_setWidth_of_le _ wide, BitVec.setWidth_setWidth_of_le _ wide,
    BitVec.setWidth_eq, BitVec.setWidth_eq] at cut

theorem canonicalInt_of_bitVec {mod : Module} (isInt : mod.types.isInt type = true)
    (bits : BitVec (bitSize mod type)) (narrow : bitSize mod type ≤ 64) :
    CanonicalData mod ⟨.constInt, type, bits.setWidth 64, 0⟩ := by
  refine ⟨isInt, ?_⟩
  rw [← bitSize_int isInt]
  have small : (bits.setWidth 64).toNat = bits.toNat := toNat_setWidth_word narrow bits
  rw [constIntCanonical]
  split
  · simp only [beq_self_eq_true, Bool.true_and, beq_iff_eq]
    apply BitVec.eq_of_toNat_eq
    rw [BitVec.toNat_ushiftRight, small, shiftRight_eq_div_pow, div_eq_of_lt bits.isLt]
    rfl
  · rw [if_pos (by omega)]
    rfl

/-- The integer operators with two operands. -/
def isIntBinop : Opcode → Bool
  | .iadd | .isub | .imul | .iand | .ior | .ixor | .shl | .sdiv | .udiv | .srem | .urem
  | .ashr | .lshr => true
  | _ => false

section Meaning

variable {World : Type} {interp : Interp World} {mod : Module} {f : Function} {env : Env}
  {j : InstId} {a b c : ValueId}

theorem evalPure_binop (op : isIntBinop (f.inst j).op = true)
    (operands : f.operands j = [a, b]) :
    evalPure interp mod (f.shape j) (readAll interp mod f env (f.operands j)) =
      (evalBinop (f.inst j).op
        ((readValue interp mod f env a).setWidth (bitSize mod (f.inst j).type))
        ((readValue interp mod f env b).setWidth (bitSize mod (f.inst j).type))).map
          (·.setWidth 128) := by
  rw [operands]
  cases isOp : (f.inst j).op <;> rw [isOp] at op <;>
    first
    | exact absurd op Bool.false_ne_true
    | simp only [readAll, map_cons, map_nil, evalPure, shape, isOp]

theorem evalPure_icmp (op : (f.inst j).op = .icmp) (operands : f.operands j = [a, b])
    {cond : IntCond} (isCond : IntCond.ofCode? (f.inst j).aux.toNat = some cond) :
    evalPure interp mod (f.shape j) (readAll interp mod f env (f.operands j)) =
      some (boolVal (evalCond cond
        ((readValue interp mod f env a).setWidth (bitSize mod (f.valueType a)))
        ((readValue interp mod f env b).setWidth (bitSize mod (f.valueType a))))) := by
  have listed : (f.inst j).operands = [a, b] := operands
  rw [operands]
  simp only [readAll, map_cons, map_nil, evalPure, shape, op, isCond, Option.map_some]
  rw [listed]
  rfl

theorem evalPure_fcmp (op : (f.inst j).op = .fcmp) (vals : List Val) :
    evalPure interp mod (f.shape j) vals =
      some (boolVal (interp.compareFloats (f.shape j) vals)) :=
  evalPure_compareFloats op vals

theorem evalPure_select (op : (f.inst j).op = .select) (operands : f.operands j = [c, a, b]) :
    evalPure interp mod (f.shape j) (readAll interp mod f env (f.operands j)) =
      some (if readValue interp mod f env c = 0 then readValue interp mod f env b
        else readValue interp mod f env a) := by
  rw [operands]
  simp only [readAll, map_cons, map_nil, evalPure, shape, op]

theorem evalPure_keep
    (op : (f.inst j).op = .trunc ∨ (f.inst j).op = .zext ∨ (f.inst j).op = .bitcast)
    (operands : f.operands j = [a]) :
    evalPure interp mod (f.shape j) (readAll interp mod f env (f.operands j)) =
      some (readValue interp mod f env a) := by
  rw [operands]
  rcases op with op | op | op <;>
    simp only [readAll, map_cons, map_nil, evalPure, shape, op]

theorem evalPure_sext (op : (f.inst j).op = .sext) (operands : f.operands j = [a]) :
    evalPure interp mod (f.shape j) (readAll interp mod f env (f.operands j)) =
      some ((((readValue interp mod f env a).setWidth (bitSize mod (f.valueType a))).signExtend
        (bitSize mod (f.inst j).type)).setWidth 128) := by
  have listed : (f.inst j).operands = [a] := operands
  rw [operands]
  simp only [readAll, map_cons, map_nil, evalPure, shape, op]
  rw [listed]
  rfl

theorem evalPure_floatCast (op : (f.inst j).op = .fpext ∨ (f.inst j).op = .fptrunc)
    (operands : f.operands j = [a]) :
    evalPure interp mod (f.shape j) (readAll interp mod f env (f.operands j)) =
      floatResult (convert (floatOperand (f.valueType a) (readValue interp mod f env a))
        (floatFormat (f.inst j).type)) := by
  have listed : (f.inst j).operands = [a] := operands
  rw [operands]
  rcases op with op | op <;>
    simp only [readAll, map_cons, map_nil, evalPure, shape, op, listed, headD_cons]

theorem evalPure_intToFloat (op : (f.inst j).op = .sitofp ∨ (f.inst j).op = .uitofp)
    (operands : f.operands j = [a]) :
    evalPure interp mod (f.shape j) (readAll interp mod f env (f.operands j)) =
      floatResult (fromInteger (readValue interp mod f env a)
        (bitSize mod (f.valueType a)) ((f.inst j).op = .sitofp)
        (floatFormat (f.inst j).type)) := by
  have listed : (f.inst j).operands = [a] := operands
  rw [operands]
  rcases op with op | op
  · simp [readAll, evalPure, shape, op, listed]
  · simp [readAll, evalPure, shape, op, listed]

theorem evalPure_ptrAdd (op : (f.inst j).op = .ptrAdd) (operands : f.operands j = [a, b]) :
    evalPure interp mod (f.shape j) (readAll interp mod f env (f.operands j)) =
      some (readValue interp mod f env a + readValue interp mod f env b) := by
  rw [operands]
  simp only [readAll, map_cons, map_nil, evalPure, shape, op]

end Meaning

theorem operands_one {f : Function} {i : InstId} (count : (f.operands i).length = 1) :
    f.operands i = [f.operand i 0] := by
  obtain ⟨a, list⟩ := List.length_eq_one_iff.mp count
  simp [operand, list]

theorem operands_two {f : Function} {i : InstId} (count : (f.operands i).length = 2) :
    f.operands i = [f.operand i 0, f.operand i 1] := by
  obtain ⟨a, b, list⟩ := List.length_eq_two.mp count
  simp [operand, list]

theorem operands_three {f : Function} {i : InstId} (count : (f.operands i).length = 3) :
    f.operands i = [f.operand i 0, f.operand i 1, f.operand i 2] := by
  obtain ⟨a, b, c, list⟩ := List.length_eq_three.mp count
  simp [operand, list]

theorem width_of_sound {mod : Module} (sound : SoundType mod type)
    (isInt : mod.types.isInt type = true) :
    8 ≤ bitSize mod type ∧ bitSize mod type ≤ 128 := by
  have allowed := sound.2 isInt
  rw [bitSize_int isInt]
  simp only [intWidthAllowed, Bool.or_eq_true, beq_iff_eq] at allowed
  omega

/-- A value of a type, as a number of the width of the type. -/
theorem readValue_eq_setWidth {World : Type} (interp : Interp World) (mod : Module)
    (f : Function) (env : Env) (v : ValueId) :
    readValue interp mod f env v =
      ((readValue interp mod f env v).setWidth (bitSize mod (f.valueType v))).setWidth 128 :=
  (clamp_readValue env v).symm

section Points

variable {World : Type} {interp : Interp World} {mod : Module} {f : Function}
  (simplifiable : Simplifiable mod f) {env : Env} {point : Point}
  (reached : f.PointReached point) (holds : EquationsHold interp mod f env point)

include simplifiable reached

theorem operand_readable {defPoint : Point} {j : InstId} (atDef : f.instAt defPoint j)
    (executed : f.Executed defPoint point) {index : ℕ}
    (inside : index < (f.operands j).length) : f.Readable (f.operand j index) point := by
  have reachedDef := executed.reached reached
  refine (simplifiable.single.operands reachedDef atDef _ ?_).later executed
  rw [operand, getD_eq_getElem _ _ inside]
  exact getElem_mem inside

theorem source_readable (isResult : (f.value v).kind = .instResult) (readable : f.Readable v point)
    (count : (f.inst (f.defInst v)).op.operandCount = some 1) :
    f.Linked (f.defInst v) ∧ f.operands (f.defInst v) = [f.operand (f.defInst v) 0] ∧
      f.Readable (f.operand (f.defInst v) 0) point ∧
      CanonicalData mod (f.value (f.operand (f.defInst v) 0)) := by
  have available := readable.2
  rw [AvailableAt, isResult] at available
  obtain ⟨defPoint, atDef, executed⟩ := available
  have reachedDef := executed.reached reached
  have linked := linked_of_instAt simplifiable.single.defined reachedDef atDef
  have length := simplifiable.arity linked 1 count
  have operands := operands_one length
  refine ⟨linked, operands, operand_readable simplifiable reached atDef executed (by omega), ?_⟩
  exact (simplifiable.checked reachedDef atDef _ (by rw [operands]; simp [operand])).1

include holds

theorem result_computed (isResult : (f.value v).kind = .instResult)
    (readable : f.Readable v point) :
    ∃ defPoint, f.instAt defPoint (f.defInst v) ∧ f.PointReached defPoint ∧
      f.Executed defPoint point ∧ (f.inst (f.defInst v)).type = f.valueType v ∧
      ((f.inst (f.defInst v)).op.isTerminator = false →
        ∀ x, evalPure interp mod (f.shape (f.defInst v))
          (readAll interp mod f env (f.operands (f.defInst v))) = some x →
        readValue interp mod f env v = clamp mod (f.valueType v) x) := by
  have available := readable.2
  rw [AvailableAt, isResult] at available
  obtain ⟨defPoint, atDef, executed⟩ := available
  have defined : (f.inst (f.defInst v)).result = v := by
    rw [defInst, if_pos isResult]
    exact simplifiable.single.consistent.defs v isResult
  have positive : (f.inst (f.defInst v)).result ≠ 0 := by
    rw [defined]
    exact Nat.pos_iff_ne_zero.mp (Slots.isValid_iff.mp readable.1).1
  have type : f.valueType v = (f.inst (f.defInst v)).type := by
    have labelled := simplifiable.labelled.types _ positive
    rwa [defined] at labelled
  refine ⟨defPoint, atDef, executed.reached reached, executed, type.symm, ?_⟩
  intro inside x computed
  have value := holds defPoint _ atDef inside executed positive x computed
  rw [defined] at value
  have notConstant : f.isConstant v = false := by simp [isConstant, isResult]
  rw [readValue, notConstant]
  simp only [Bool.false_eq_true, if_false]
  rw [value, ← type]
  exact clamp_idem _ _

theorem bool_of_isBoolValued (built : mod.types.Built) {levels : ℕ}
    (isBool : isBoolValued f levels v = true) (readable : f.Readable v point) :
    f.valueType v = types.I8 ∧
      (readValue interp mod f env v = 0 ∨ readValue interp mod f env v = 1) := by
  have size : bitSize mod types.I8 = 8 := by
    rw [bitSize, built.type_eq (by decide)]
    rfl
  have clampBool : ∀ b, clamp mod types.I8 (boolVal b) = 0 ∨
      clamp mod types.I8 (boolVal b) = 1 := by
    intro b
    rw [clamp, size]
    cases b
    · exact .inl rfl
    · exact .inr rfl
  induction levels generalizing v with
  | zero => cases isBool
  | succ levels ih =>
    rw [isBoolValued] at isBool
    dsimp only at isBool
    split at isBool
    case h_1 kind =>
      simp only [Bool.and_eq_true, Bool.or_eq_true, beq_iff_eq] at isBool
      obtain ⟨type, payload⟩ := isBool
      refine ⟨type, ?_⟩
      have constant : f.isConstant v = true := by simp [isConstant, kind]
      rw [readValue, constant]
      simp only [if_true, Air.constant, kind, type]
      rw [clamp, size, clampBits, setWidth_append_low (by omega)]
      rcases payload with zero | one
      · rw [zero]
        exact .inl rfl
      · rw [one]
        exact .inr rfl
    case h_2 kind =>
      obtain ⟨defPoint, atDef, reachedDef, executed, type, computed⟩ :=
        result_computed simplifiable reached holds kind readable
      have linked := linked_of_instAt simplifiable.single.defined reachedDef atDef
      have typed := simplifiable.typed linked
      have arity := simplifiable.arity linked
      rw [InstTyped] at typed
      cases op : (f.inst (f.defInst v)).op <;> simp only [op] at isBool typed arity computed <;>
        try exact absurd isBool Bool.false_ne_true
      case icmp =>
        obtain ⟨isI8, someCond, -⟩ := typed
        obtain ⟨cond, isCond⟩ := Option.isSome_iff_exists.mp someCond
        have value := computed rfl _ (evalPure_icmp op (operands_two (arity 2 rfl)) isCond)
        rw [value, ← type, isI8]
        exact ⟨rfl, clampBool _⟩
      case fcmp =>
        have value := computed rfl _ (evalPure_fcmp op _)
        rw [value, ← type, typed]
        exact ⟨rfl, clampBool _⟩
      case select =>
        have count : (f.operands (f.defInst v)).length = 3 := arity 3 rfl
        rw [Bool.and_eq_true] at isBool
        have thenReadable := operand_readable simplifiable reached atDef executed
          (show 1 < _ by omega)
        have elseReadable := operand_readable simplifiable reached atDef executed
          (show 2 < _ by omega)
        obtain ⟨thenType, thenBool⟩ := ih isBool.1 thenReadable
        obtain ⟨-, elseBool⟩ := ih isBool.2 elseReadable
        have isI8 : f.valueType v = types.I8 := by
          rw [← type, ← simplifiable.hasType_of_readable typed.2.1 reached thenReadable]
          exact thenType
        have value := computed rfl _ (evalPure_select op (operands_three count))
        have clampVal : ∀ x : Val, x = 0 ∨ x = 1 → clamp mod types.I8 x = 0 ∨
            clamp mod types.I8 x = 1 := by
          rintro x (rfl | rfl)
          · exact clampBool false
          · exact clampBool true
        refine ⟨isI8, ?_⟩
        rw [value, isI8]
        apply clampVal
        split
        · exact elseBool
        · exact thenBool
    case h_3 => cases isBool

end Points

/-- Wherever the instruction was executed, it has this value. -/
def HasValue (mod : Module) (f : Function) (i : InstId) (gone : Point)
    (value : ∀ World : Type, Interp World → Env → Val) : Prop :=
  ∀ (World : Type) (interp : Interp World) (env : Env) (point : Point),
    f.PointReached point → point = gone ∨ f.Executed gone point →
    EquationsHold interp mod f env point →
    ∃ x, evalPure interp mod (f.shape i) (readAll interp mod f env (f.operands i)) = some x ∧
      clamp mod (f.inst i).type x = value World interp env

/-- What the simplifier returns for an instruction. -/
structure Justified (mod : Module) (f : Function) (i : InstId) (gone : Point)
    (simplified : ValueId × Function) : Prop where
  grown : Grown mod f simplified.2
  valid : simplified.2.isValidValue simplified.1 = true
  typed : simplified.2.valueType simplified.1 = (f.inst i).type ∨
    (f.inst i).type = types.I8 ∧ f.Stray simplified.1
  place : f.PointReached gone → f.Readable simplified.1 gone ∨
    simplified.2.isValidValue simplified.1 = true ∧ simplified.2.isConstant simplified.1 = true
  canonical : f.PointReached gone → CanonicalData mod (simplified.2.value simplified.1)
  equal : HasValue mod f i gone fun _ interp env =>
    readValue interp mod simplified.2 env simplified.1

section Justification

variable {mod : Module} {f : Function} {i : InstId} {gone : Point}
  (simplifiable : Simplifiable mod f) (found : f.instAt gone i) (linked : f.Linked i)

theorem reached_gone {point : Point} (reached : f.PointReached point)
    (after : point = gone ∨ f.Executed gone point) : f.PointReached gone := by
  rcases after with rfl | executed
  · exact reached
  · exact executed.reached reached

theorem Function.Readable.at_point {point : Point} (readable : f.Readable v gone)
    (after : point = gone ∨ f.Executed gone point) : f.Readable v point := by
  rcases after with rfl | executed
  · exact readable
  · exact readable.later executed

include simplifiable found linked

theorem Justified.ofOperand (used : v ∈ f.operands i) (hasType : f.HasType v (f.inst i).type)
    (equal : HasValue mod f i gone fun _ interp env => readValue interp mod f env v) :
    Justified mod f i gone (v, f) where
  grown := .refl mod f
  valid := simplifiable.valid linked v used
  typed := hasType
  place reached := .inl (simplifiable.single.operands reached found v used)
  canonical reached := (simplifiable.checked reached found v used).1
  equal := equal

omit found linked in
theorem Justified.ofConstant {kind : ValueKind} {payload payload2 : Word}
    (isConstant : kind = .constInt ∨ kind = .constFloat)
    (canonical : CanonicalData mod ⟨kind, (f.inst i).type, payload, payload2⟩)
    (equal : HasValue mod f i gone fun _ _ _ =>
      clamp mod (f.inst i).type (payload2 ++ payload)) :
    Justified mod f i gone (f.internConstant kind (f.inst i).type payload payload2) := by
  have notDefined : kind ≠ .instResult ∧ kind ≠ .blockParam := by
    rcases isConstant with rfl | rfl <;> simp
  obtain ⟨grown, valid, data⟩ :=
    internConstant_grown simplifiable.single.consistent notDefined canonical
  have constant : (f.internConstant kind (f.inst i).type payload payload2).2.isConstant
      (f.internConstant kind (f.inst i).type payload payload2).1 = true := by
    rw [Function.isConstant, data]
    rcases isConstant with rfl | rfl <;> rfl
  refine ⟨grown, valid, .inl ?_, fun _ => .inr ⟨valid, constant⟩, fun _ => data ▸ canonical, ?_⟩
  · rw [valueType, data]
  · intro World interp env point reached after holds
    obtain ⟨x, computed, same⟩ := equal World interp env point reached after holds
    refine ⟨x, computed, same.trans ?_⟩
    dsimp only
    rw [readValue, constant, if_pos rfl, data]
    rcases isConstant with rfl | rfl <;> rfl

end Justification

end Aburi.Air
