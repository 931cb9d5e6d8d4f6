import Aburi.Air.SingleAssignment
import Aburi.Air.ValueTables

/-!
# Types of operands

The passes rely on the types that the verifier checked.  The verifier looks at
linked instructions only, so in code that is never reached the result of an
unlinked comparison may have any type; such strays can take the place of a
truth value there, but they are never constants.
-/

namespace Aburi.Air

open Aburi.Lib FunctionVerifier VerifyResult List

namespace Function

def Linked (f : Function) (i : InstId) : Prop := ∃ b ∈ f.layout, i ∈ f.blockInsts b

def operand (f : Function) (i : InstId) (index : ℕ) : ValueId := (f.operands i).getD index 0

inductive Stray (f : Function) : ValueId → Prop
  | unlinked {v : ValueId} : (f.value v).kind = .instResult → ¬ f.Linked (f.defInst v) → Stray f v
  | select {v : ValueId} : (f.value v).kind = .instResult → f.Linked (f.defInst v) →
      (f.inst (f.defInst v)).op = .select → f.valueType v ≠ types.I8 →
      Stray f (f.operand (f.defInst v) 1) → Stray f (f.operand (f.defInst v) 2) → Stray f v

def HasType (f : Function) (v : ValueId) (type : TypeId) : Prop :=
  f.valueType v = type ∨ type = types.I8 ∧ f.Stray v

/-- What the simplifier uses of the types of an instruction. -/
def InstTyped (mod : Module) (f : Function) (i : InstId) : Prop :=
  let data := f.inst i
  match data.op with
  | .iadd | .isub | .imul | .iand | .ior | .ixor | .shl | .sdiv | .udiv | .srem | .urem
  | .ashr | .lshr =>
    mod.types.isInt data.type = true ∧ SoundType mod data.type ∧
      f.HasType (f.operand i 0) data.type ∧ f.HasType (f.operand i 1) data.type
  | .icmp =>
    data.type = types.I8 ∧ (IntCond.ofCode? data.aux.toNat).isSome = true ∧
      ∃ type, f.HasType (f.operand i 0) type ∧ f.HasType (f.operand i 1) type
  | .fcmp => data.type = types.I8
  | .trunc | .zext | .sext =>
    mod.types.isInt data.type = true ∧ ∃ type, mod.types.isInt type = true ∧
      f.HasType (f.operand i 0) type ∧
      if data.op = .trunc then mod.types.intWidth data.type < mod.types.intWidth type
      else mod.types.intWidth type < mod.types.intWidth data.type
  | .ptrAdd => f.HasType (f.operand i 0) data.type
  | .select =>
    f.HasType (f.operand i 0) types.I8 ∧ f.HasType (f.operand i 1) data.type ∧
      f.HasType (f.operand i 2) data.type
  | _ => True

/-- What the simplifier needs of a function. -/
structure Simplifiable (mod : Module) (f : Function) : Prop where
  single : f.SingleAssignment
  labelled : f.Labelled
  blank : f.Blank
  arity : ∀ {i}, f.Linked i → ∀ count, (f.inst i).op.operandCount = some count →
    (f.operands i).length = count
  valid : ∀ {i}, f.Linked i → ∀ v ∈ f.operands i, f.isValidValue v = true
  typed : ∀ {i}, f.Linked i → InstTyped mod f i
  checked : ∀ {point i}, f.PointReached point → f.instAt point i →
    ∀ v ∈ f.operands i, CanonicalData mod (f.value v) ∧ SoundType mod (f.valueType v)

variable {mod : Module} {f : Function}

theorem linked_of_instAt (defined : f.isDeclaration = false) {point : Point} {i : InstId}
    (reached : f.PointReached point) (found : f.instAt point i) : f.Linked i :=
  ⟨point.1, reached.linked defined, mem_of_getElem? found⟩

theorem Stray.isResult {v : ValueId} (stray : f.Stray v) : (f.value v).kind = .instResult := by
  cases stray with
  | unlinked isResult _ | select isResult _ _ _ _ _ => exact isResult

theorem Stray.not_constant {v : ValueId} (stray : f.Stray v) : f.isConstant v = false := by
  simp [isConstant, stray.isResult]

theorem HasType.of_constant {v : ValueId} {type : TypeId} (hasType : f.HasType v type)
    (constant : f.isConstant v = true) : f.valueType v = type := by
  refine hasType.resolve_right ?_
  rintro ⟨-, stray⟩
  rw [stray.not_constant] at constant
  cases constant

/-- Strays are never read by code that is reached. -/
theorem Stray.not_readable (single : f.SingleAssignment)
    (arity : ∀ {i}, f.Linked i → ∀ count, (f.inst i).op.operandCount = some count →
      (f.operands i).length = count)
    {v : ValueId} (stray : f.Stray v) {point : Point} (reached : f.PointReached point)
    (readable : f.Readable v point) : False := by
  induction stray generalizing point with
  | @unlinked v isResult notLinked =>
    have available := readable.2
    rw [AvailableAt, isResult] at available
    obtain ⟨defPoint, atDef, executed⟩ := available
    exact notLinked (linked_of_instAt single.defined (executed.reached reached) atDef)
  | @select v isResult linked isSelect _ _ _ ih _ =>
    have available := readable.2
    rw [AvailableAt, isResult] at available
    obtain ⟨defPoint, atDef, executed⟩ := available
    have reachedDef := executed.reached reached
    have count : (f.operands (f.defInst v)).length = 3 := arity linked 3 (by rw [isSelect]; rfl)
    refine ih reachedDef (single.operands reachedDef atDef _ ?_)
    rw [operand, getD_eq_getElem _ _ (by omega)]
    exact getElem_mem _

namespace Simplifiable

variable (simplifiable : Simplifiable mod f)

include simplifiable

theorem hasType_of_readable {v : ValueId} {type : TypeId} (hasType : f.HasType v type)
    {point : Point} (reached : f.PointReached point) (readable : f.Readable v point) :
    f.valueType v = type := by
  refine hasType.resolve_right ?_
  rintro ⟨-, stray⟩
  exact stray.not_readable simplifiable.single simplifiable.arity reached readable

end Simplifiable

theorem instTyped_of_checked {b : BlockId} {i : InstId} (checked : CheckedInst mod f b i)
    (produced : (f.inst i).op.resultKind = .value → (f.inst i).result ≠ 0) :
    InstTyped mod f i := by
  have fine := checked.arithmetic
  have sound := fun kind => checked.resultType (produced kind)
  have binary : ok (requireInt mod f b i 0 ++ requireType mod f b i 1 (opType f i 0) ++
        requireResult f b i (opType f i 0) "result type must match operands") = true →
      mod.types.isInt (f.inst i).type = true ∧ f.HasType (f.operand i 0) (f.inst i).type ∧
        f.HasType (f.operand i 1) (f.inst i).type := by
    intro fine
    simp only [ok_append, Bool.and_eq_true, requireInt, ok_requireKind, ok_requireType,
      ok_requireResult] at fine
    obtain ⟨⟨isInt, second⟩, result⟩ := fine
    exact ⟨result ▸ isInt, .inl result.symm, .inl (second.trans result.symm)⟩
  rw [InstTyped]
  rw [checkArithmetic] at fine
  cases op : (f.inst i).op <;> simp only [op] at fine sound ⊢
  case icmp =>
    simp only [ok_append, Bool.and_eq_true, ok_requireType, ok_requireResult, ok_complainIf,
      Bool.not_eq_true', Option.isNone_eq_false_iff] at fine
    obtain ⟨⟨⟨-, second⟩, result⟩, cond⟩ := fine
    exact ⟨result, cond, opType f i 0, .inl rfl, .inl second⟩
  case fcmp =>
    simp only [ok_append, Bool.and_eq_true, ok_requireResult] at fine
    exact fine.1.2
  case trunc | zext | sext =>
    split at fine
    · simp at fine
    rename_i isInt
    simp only [Bool.or_eq_true, Bool.not_eq_true', not_or, Bool.not_eq_false] at isInt
    refine ⟨isInt.2, opType f i 0, isInt.1, .inl rfl, ?_⟩
    simpa using fine
  case ptrAdd =>
    simp only [ok_append, Bool.and_eq_true, ok_requireResult] at fine
    exact .inl fine.2.symm
  case select =>
    simp only [ok_append, Bool.and_eq_true, ok_requireType, ok_requireResult] at fine
    obtain ⟨⟨first, third⟩, result⟩ := fine
    exact ⟨.inl first, .inl result.symm, .inl (third.trans result.symm)⟩
  all_goals first
    | trivial
    | exact ⟨(binary fine).1, sound rfl, (binary fine).2⟩

theorem Built.simplifiable (built : f.Built) (accepts : Accepts mod f)
    (defined : f.isDeclaration = false) : Simplifiable mod f := by
  obtain ⟨fuel, tree, accepted⟩ := accepted_of_accepts accepts defined
  have single := built.singleAssignment accepted defined
  have checked : ∀ {i}, f.Linked i → ∃ b, CheckedInst mod f b i :=
    fun ⟨b, linked, member⟩ => ⟨b, accepted.checkedInst linked member⟩
  refine ⟨single, built.labelled, built.blank, ?_, ?_, ?_, ?_⟩
  · intro i linked
    obtain ⟨b, fine⟩ := checked linked
    exact fine.arity
  · intro i linked v used
    obtain ⟨b, fine⟩ := checked linked
    exact (fine.operands v used).1
  · intro i linked
    obtain ⟨b, fine⟩ := checked linked
    obtain ⟨owner, -, member⟩ := linked
    exact instTyped_of_checked fine
      (built.labelled.produced i (built.consistent.attached owner i member).2.1)
  · intro point i reached found v used
    obtain ⟨b, fine⟩ := checked (linked_of_instAt defined reached found)
    exact ⟨(fine.operands v used).2, fine.operandTypes v used⟩

end Function

end Aburi.Air
