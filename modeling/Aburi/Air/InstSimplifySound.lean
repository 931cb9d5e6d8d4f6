import Aburi.Air.ResultReplacement
import Aburi.Air.SimplifyInstSound
import Mathlib.Algebra.Order.BigOperators.Group.List

/-!
# Soundness of instruction simplification

The pass is a sequence of replacements.  Each deletes an instruction, so the
rounds come to an end, and each keeps what the simplifier relies on.
-/

namespace Aburi.Air

open Aburi.Lib FunctionVerifier Aburi.Air.Function List

theorem replaces_of_grown {mod : Module} {f h : Function} {i : InstId} {w : ValueId}
    (consistent : f.Consistent) (grown : Grown mod f h) : Replaces f (replaceInst h i w) i w := by
  have valid := grown.valid
  have kept := grown.kept
  obtain ⟨values, rfl⟩ : ∃ values, h = { f with values } := ⟨_, grown.same⟩
  have owner : (replaceInst { f with values } i w).block (f.inst i).block =
      { f.block (f.inst i).block with insts := (f.blockInsts (f.inst i).block).erase i } :=
    Slots.get_set_self f.blocks _ _
  have others : ∀ {b}, b ≠ (f.inst i).block →
      (replaceInst { f with values } i w).block b = f.block b := fun other =>
    Slots.get_set_ne f.blocks _ other
  refine ⟨rfl, ?_, ?_, ?_, fun call => rfl, rfl, rfl, kept, valid⟩
  · intro b
    by_cases here : b = (f.inst i).block
    · subst here
      rw [blockInsts, owner]
    · have outside : i ∉ f.blockInsts b := fun member =>
        here (consistent.attached b i member).2.2.symm
      rw [blockInsts, others here, erase_of_not_mem outside]
      rfl
  · intro b
    by_cases here : b = (f.inst i).block
    · subst here
      rw [blockParams, owner]
      rfl
    · rw [blockParams, others here]
      rfl
  · intro j other
    exact Slots.get_set_ne _ _ other

section Replacement

variable {mod : Module} {f g : Function} {i : InstId} {gone : Point} {w : ValueId}
  (replaces : Replaces f g i w) (simplifiable : Simplifiable mod f) (linked : f.Linked i)

include replaces simplifiable

theorem linked_iff {j : InstId} : g.Linked j ↔ f.Linked j ∧ j ≠ i := by
  simp only [Linked, replaces.layout, replaces.insts]
  constructor
  · rintro ⟨b, inside, member⟩
    have kept := (simplifiable.single.consistent.instsNodup b).mem_erase_iff.mp member
    exact ⟨⟨b, inside, kept.2⟩, kept.1⟩
  · rintro ⟨⟨b, inside, member⟩, other⟩
    exact ⟨b, inside, (mem_erase_of_ne other).mpr member⟩

omit simplifiable in
theorem operand_renamed {j : InstId} (other : j ≠ i) {index : ℕ}
    (inside : index < (f.operands j).length) :
    g.operand j index = renamed (f.inst i).result w (f.operand j index) := by
  rw [operand, replaces.operands_eq other, operand, getD_eq_getElem _ _ (by simpa using inside),
    getD_eq_getElem _ _ inside, getElem_map]

omit replaces in
theorem defInst_result (isResult : (f.value (f.inst i).result).kind = .instResult) :
    (f.inst i).result ≠ 0 ∧ f.defInst (f.inst i).result = i := by
  have consistent := simplifiable.single.consistent
  have positive := (Slots.isValid_iff.mp (consistent.valuesValid _ isResult)).1
  have produces := Nat.pos_iff_ne_zero.mp positive
  rw [defInst, if_pos isResult]
  exact ⟨produces, (consistent.results i produces).2.2.2⟩

theorem stray_renamed (linked : f.Linked i) (other : w ≠ (f.inst i).result)
    (arm : (f.inst i).op = .select → (f.inst i).type ≠ types.I8 →
      w = f.operand i 1 ∨ w = f.operand i 2)
    {v : ValueId} (stray : f.Stray v) : g.Stray (renamed (f.inst i).result w v) := by
  have consistent := simplifiable.single.consistent
  have keeps : ∀ {v : ValueId}, (f.value v).kind = .instResult →
      g.value v = f.value v ∧ g.defInst v = f.defInst v := by
    intro v isResult
    have same := replaces.values v (consistent.valuesValid v isResult)
    exact ⟨same, by rw [defInst, defInst, same]⟩
  induction stray with
  | @unlinked v isResult notLinked =>
    have notGone : v ≠ (f.inst i).result := by
      rintro rfl
      rw [(defInst_result simplifiable isResult).2] at notLinked
      exact notLinked linked
    obtain ⟨same, sameDef⟩ := keeps isResult
    rw [renamed, if_neg notGone]
    refine .unlinked (same ▸ isResult) ?_
    rw [sameDef, linked_iff replaces simplifiable]
    exact fun still => notLinked still.1
  | @select v isResult isLinked isSelect notBool first second ihFirst ihSecond =>
    by_cases isGone : v = (f.inst i).result
    · subst isGone
      have unchanged : renamed (f.inst i).result w w = w := if_neg other
      obtain ⟨produces, defined⟩ := defInst_result simplifiable isResult
      rw [defined] at isSelect ihFirst ihSecond
      rw [simplifiable.labelled.types i produces] at notBool
      rw [renamed, if_pos rfl]
      rcases arm isSelect notBool with isFirst | isSecond
      · rwa [← isFirst, unchanged] at ihFirst
      · rwa [← isSecond, unchanged] at ihSecond
    · have count : (f.operands (f.defInst v)).length = 3 :=
        simplifiable.arity isLinked 3 (by rw [isSelect]; rfl)
      have otherInst : f.defInst v ≠ i := by
        intro same
        have defined := consistent.defs v isResult
        rw [defInst, if_pos isResult] at same
        rw [same] at defined
        exact isGone defined.symm
      obtain ⟨same, sameDef⟩ := keeps isResult
      rw [renamed, if_neg isGone]
      refine .select (same ▸ isResult) ?_ ?_ ?_ ?_ ?_
      · rw [sameDef, linked_iff replaces simplifiable]
        exact ⟨isLinked, otherInst⟩
      · rw [sameDef, replaces.op_eq otherInst]
        exact isSelect
      · rw [valueType, same]
        exact notBool
      · rw [sameDef, operand_renamed replaces otherInst (by omega)]
        exact ihFirst
      · rw [sameDef, operand_renamed replaces otherInst (by omega)]
        exact ihSecond

end Replacement

/-- A value was found for an instruction that stays in its block. -/
structure Simplified (mod : Module) (f : Function) (i : InstId) (gone : Point) : Prop where
  found : f.instAt gone i
  linked : f.Linked i
  produces : (f.inst i).result ≠ 0
  inside : (f.inst i).op.isTerminator = false
  other : (simplifyInst mod f i).1 ≠ (f.inst i).result
  nonzero : (simplifyInst mod f i).1 ≠ 0
  justified : Justified mod f i gone (simplifyInst mod f i)

def instCount (f : Function) : ℕ := (f.layout.map fun b => (f.blockInsts b).length).sum

def rewritten (mod : Module) (f : Function) (i : InstId) : Function :=
  replaceInst (simplifyInst mod f i).2 i (simplifyInst mod f i).1

namespace Simplified

variable {mod : Module} {f : Function} {i : InstId} {gone : Point}
  (simplified : Simplified mod f i gone) (simplifiable : Simplifiable mod f)

include simplified simplifiable

theorem replaces : Replaces f (rewritten mod f i) i (simplifyInst mod f i).1 :=
  replaces_of_grown simplifiable.single.consistent simplified.justified.grown

theorem stands (reached : f.PointReached gone) :
    Stands f (rewritten mod f i) i (simplifyInst mod f i).1 gone := by
  have place := simplified.justified.place reached
  refine ⟨simplified.other, place, ?_⟩
  rw [simplifiable.labelled.types i simplified.produces]
  refine simplified.justified.typed.resolve_right ?_
  rintro ⟨-, stray⟩
  rcases place with readable | ⟨-, constant⟩
  · exact stray.not_readable simplifiable.single simplifiable.arity reached readable
  · have valid := simplifiable.single.consistent.valuesValid _ stray.isResult
    have same := simplified.justified.grown.kept _ valid
    rw [Function.isConstant, same] at constant
    exact Bool.false_ne_true (stray.not_constant.symm.trans constant)

theorem hasType {v : ValueId} {type : TypeId} (valid : f.isValidValue v = true)
    (hasType : f.HasType v type) :
    (rewritten mod f i).HasType (renamed (f.inst i).result (simplifyInst mod f i).1 v) type := by
  have replaces := simplified.replaces simplifiable
  have strays : ∀ {v}, f.Stray v → _ := fun stray =>
    stray_renamed replaces simplifiable simplified.linked simplified.other
      (fun isSelect notBool => simplifyInst_arm isSelect notBool simplified.nonzero) stray
  rcases hasType with same | ⟨isBool, stray⟩
  · by_cases isGone : v = (f.inst i).result
    · subst isGone
      rw [simplifiable.labelled.types i simplified.produces] at same
      rw [renamed, if_pos rfl, ← same]
      refine simplified.justified.typed.imp_right ?_
      rintro ⟨isBool, stray⟩
      refine ⟨isBool, ?_⟩
      have moved := strays stray
      rwa [renamed, if_neg simplified.other] at moved
    · rw [renamed, if_neg isGone]
      refine .inl ?_
      rw [valueType, replaces.values v valid]
      exact same
  · exact .inr ⟨isBool, strays stray⟩

theorem instTyped {j : InstId} (linked : f.Linked j) (otherInst : j ≠ i) :
    InstTyped mod (rewritten mod f i) j := by
  have replaces := simplified.replaces simplifiable
  have typed := simplifiable.typed linked
  have arity := simplifiable.arity linked
  have operandType : ∀ {index count type}, (f.inst j).op.operandCount = some count →
      index < count → f.HasType (f.operand j index) type →
      (rewritten mod f i).HasType ((rewritten mod f i).operand j index) type := by
    intro index count type isCount inside hasType
    have bounded : index < (f.operands j).length := arity count isCount ▸ inside
    have used : f.operand j index ∈ f.operands j := by
      rw [operand, getD_eq_getElem _ _ bounded]
      exact getElem_mem bounded
    rw [operand_renamed replaces otherInst bounded]
    exact simplified.hasType simplifiable (simplifiable.valid linked _ used) hasType
  have sameInst : (rewritten mod f i).inst j = _ := replaces.inst j otherInst
  rw [InstTyped] at typed ⊢
  rw [sameInst]
  dsimp only
  cases op : (f.inst j).op <;> simp only [op] at typed operandType ⊢
  case icmp =>
    obtain ⟨isBool, cond, type, first, second⟩ := typed
    exact ⟨isBool, cond, type, operandType rfl (by decide) first,
      operandType rfl (by decide) second⟩
  case trunc | zext | sext =>
    obtain ⟨isInt, type, isIntFrom, hasType, change⟩ := typed
    exact ⟨isInt, type, isIntFrom, operandType rfl (by decide) hasType, change⟩
  case ptrAdd => exact operandType rfl (by decide) typed
  case select =>
    obtain ⟨condition, first, second⟩ := typed
    exact ⟨operandType rfl (by decide) condition, operandType rfl (by decide) first,
      operandType rfl (by decide) second⟩
  all_goals
    first
    | exact typed
    | exact ⟨typed.1, typed.2.1, operandType rfl (by decide) typed.2.2.1,
        operandType rfl (by decide) typed.2.2.2⟩

/-- The rewritten function can be simplified further. -/
theorem simplifiable_rewritten (built : (rewritten mod f i).Built) :
    Simplifiable mod (rewritten mod f i) := by
  have replaces := simplified.replaces simplifiable
  have stands := fun reached => simplified.stands simplifiable reached
  have single := simplifiable.single
  have moved : ∀ {j}, (rewritten mod f i).Linked j → f.Linked j ∧ j ≠ i :=
    (linked_iff replaces simplifiable).mp
  refine ⟨?_, built.labelled, built.blank, ?_, ?_, ?_, ?_⟩
  · exact replaces.singleAssignment single simplified.found simplified.inside built.consistent
      simplified.produces stands
  · intro j linked count isCount
    obtain ⟨linked, otherInst⟩ := moved linked
    rw [replaces.op_eq otherInst] at isCount
    rw [replaces.operands_eq otherInst, length_map]
    exact simplifiable.arity linked count isCount
  · intro j linked v used
    obtain ⟨linked, otherInst⟩ := moved linked
    rw [replaces.operands_eq otherInst] at used
    obtain ⟨old, usedOld, rfl⟩ := List.mem_map.mp used
    rw [renamed]
    split
    · exact simplified.justified.valid
    · exact replaces.valid _ (simplifiable.valid linked old usedOld)
  · intro j linked
    obtain ⟨linked, otherInst⟩ := moved linked
    exact simplified.instTyped simplifiable linked otherInst
  · intro point j reached atPoint v used
    have otherInst := replaces.ne_of_instAt single simplified.found atPoint
    have atOld := (replaces.instAt_iff single simplified.found).mp atPoint
    have reachedOld := replaces.reached_expand single simplified.found simplified.inside reached
    rw [replaces.operands_eq otherInst] at used
    obtain ⟨old, usedOld, rfl⟩ := List.mem_map.mp used
    obtain ⟨canonical, sound⟩ := simplifiable.checked reachedOld atOld old usedOld
    rw [renamed]
    split
    case isTrue isGone =>
      subst isGone
      have readable := single.operands reachedOld atOld _ usedOld
      have executed := readable.executed single.consistent simplified.produces simplified.found
      have reachedGone := executed.reached reachedOld
      rw [(stands reachedGone).type]
      exact ⟨simplified.justified.canonical reachedGone, sound⟩
    case isFalse =>
      have valid := simplifiable.valid (linked_of_instAt single.defined reachedOld atOld) old usedOld
      rw [valueType, replaces.values old valid]
      exact ⟨canonical, sound⟩

theorem instCount_lt : instCount (rewritten mod f i) < instCount f := by
  have replaces := simplified.replaces simplifiable
  obtain ⟨b, laidOut, member⟩ := simplified.linked
  rw [instCount, instCount, replaces.layout]
  apply sum_lt_sum
  · intro c _
    rw [replaces.insts]
    exact length_erase_le
  · refine ⟨b, laidOut, ?_⟩
    have positive := length_pos_of_mem member
    rw [replaces.insts, length_erase_of_mem member]
    omega

theorem built_rewritten (built : f.Built) : (rewritten mod f i).Built := by
  have consistent := simplifiable.single.consistent
  obtain ⟨b, -, member⟩ := simplified.linked
  obtain ⟨blockValid, valid, owner⟩ := consistent.attached b i member
  have attached : (f.inst i).block ≠ 0 := by
    rw [owner]
    exact Nat.pos_iff_ne_zero.mp (Slots.isValid_iff.mp blockValid).1
  have interned : (simplifyInst mod f i).2.Built := by
    have interns : Interns f (simplifyInst mod f i) := simplifyInst_interns
    rcases interns with same | ⟨kind, type, payload, payload2, isConstant, same⟩
    · rw [same]
      exact built
    · rw [same]
      refine .internConstant type payload payload2 built ?_ ?_
      · rcases isConstant with rfl | rfl <;> simp
      · rcases isConstant with rfl | rfl <;> simp
  have sameInst : (simplifyInst mod f i).2.insts = f.insts := by
    rw [simplified.justified.grown.same]
  refine .removeInst (.replaceAllUses interned ?_ simplified.justified.valid) ?_ ?_
  · rw [inst, sameInst]
    exact simplified.justified.grown.valid _ (consistent.results i simplified.produces).2.1
  · rw [isValidInst, replaceAllUses, sameInst]
    exact valid
  · rw [inst, replaceAllUses, sameInst]
    exact attached

theorem attached_before {j : InstId} (attached : ((rewritten mod f i).inst j).block ≠ 0) :
    j ≠ i ∧ (f.inst j).block ≠ 0 := by
  have unlinked : ((rewritten mod f i).inst i).block = 0 := by
    rw [rewritten, replaceInst, removeInst, inst, Slots.get_set_self]
  have other : j ≠ i := by
    rintro rfl
    exact attached unlinked
  rw [(simplified.replaces simplifiable).inst j other] at attached
  exact ⟨other, attached⟩

theorem sameBehaviour {kept : InstId → Bool} (silent : kept i = false) {World : Type}
    (interp : Interp World) (arguments : List Val) (junk : Env) (world : World) :
    Machine.SameBehaviour (machine interp mod f kept) finalWorld
      (start f arguments junk world) (machine interp mod (rewritten mod f i) kept) finalWorld
      (start (rewritten mod f i) arguments junk world) := by
  refine SoundReplacement.sameBehaviour
    ⟨simplified.replaces simplifiable, simplifiable.single, simplifiable.labelled,
      simplified.found, simplified.inside, simplified.produces,
      fun reached => simplified.stands simplifiable reached, ?_⟩ silent arguments junk world
  intro env point reached after holds
  exact simplified.justified.equal World interp env point reached after holds

end Simplified

/-- What the pass does to a function: justified rewrites, one after another. -/
inductive Rewrites (mod : Module) (f : Function) : Function → Prop
  | refl : Rewrites mod f f
  | step {g : Function} {i : InstId} {gone : Point} : Rewrites mod f g →
      Simplified mod g i gone → Rewrites mod f (rewritten mod g i)

namespace Rewrites

variable {mod : Module} {f g : Function}

theorem trans {h : Function} (first : Rewrites mod f g) (second : Rewrites mod g h) :
    Rewrites mod f h := by
  induction second with
  | refl => exact first
  | step _ simplified ih => exact ih.step simplified

theorem invariant (rewrites : Rewrites mod f g) (built : f.Built)
    (simplifiable : Simplifiable mod f) : g.Built ∧ Simplifiable mod g := by
  induction rewrites with
  | refl => exact ⟨built, simplifiable⟩
  | step _ simplified ih =>
    have next := simplified.built_rewritten ih.2 ih.1
    exact ⟨next, simplified.simplifiable_rewritten ih.2 next⟩

variable (built : f.Built) (simplifiable : Simplifiable mod f)

theorem interned (rewrites : Rewrites mod f g) :
    (∀ v, f.isValidValue v = true → g.isValidValue v = true ∧ g.value v = f.value v) ∧
      ∀ v, g.isValidValue v = true → f.isValidValue v = false →
        g.isConstant v = true ∧ CanonicalData mod (g.value v) := by
  induction rewrites with
  | refl =>
    refine ⟨fun v valid => ⟨valid, rfl⟩, fun v valid invalid => ?_⟩
    rw [valid] at invalid
    cases invalid
  | @step g i gone rewrites simplified ih =>
    obtain ⟨old, new⟩ := ih
    have grown := simplified.justified.grown
    constructor
    · intro v valid
      obtain ⟨still, same⟩ := old v valid
      exact ⟨grown.valid v still, (grown.kept v still).trans same⟩
    · intro v valid invalid
      by_cases before : g.isValidValue v = true
      · have same : (rewritten mod g i).value v = g.value v := grown.kept v before
        rw [Function.isConstant, same]
        exact new v before invalid
      · exact grown.interned v valid (by simpa using before)

include built simplifiable

theorem sameBehaviour (rewrites : Rewrites mod f g) {kept : InstId → Bool}
    (remaining : ∀ j, kept j = true → (g.inst j).block ≠ 0) {World : Type}
    (interp : Interp World) (arguments : List Val) (junk : Env) (world : World) :
    Machine.SameBehaviour (machine interp mod f kept) finalWorld
      (start f arguments junk world) (machine interp mod g kept) finalWorld
      (start g arguments junk world) := by
  induction rewrites with
  | refl => exact .refl _
  | @step g i gone rewrites simplified ih =>
    have simplifiable := (rewrites.invariant built simplifiable).2
    have silent : kept i = false := by
      by_contra isKept
      exact (simplified.attached_before simplifiable (remaining i (by simpa using isKept))).1 rfl
    refine (ih fun j isKept => ?_).trans
      (simplified.sameBehaviour simplifiable silent interp arguments junk world)
    exact (simplified.attached_before simplifiable (remaining j isKept)).2

end Rewrites

/-- Part of a round: rewrites, and the flag is set only with one. -/
structure Advances (mod : Module) (before after : Function × Bool) : Prop where
  rewrites : Rewrites mod before.1 after.1
  layout : after.1.layout = before.1.layout
  shrinks : instCount after.1 ≤ instCount before.1
  flag : after.2 = before.2 ∨ after.2 = true ∧ instCount after.1 < instCount before.1

namespace Advances

variable {mod : Module} {first second third : Function × Bool}

theorem refl (mod : Module) (state : Function × Bool) : Advances mod state state :=
  ⟨.refl, rfl, Nat.le_refl _, .inl rfl⟩

theorem trans (before : Advances mod first second) (after : Advances mod second third) :
    Advances mod first third := by
  refine ⟨before.rewrites.trans after.rewrites, after.layout.trans before.layout,
    after.shrinks.trans before.shrinks, ?_⟩
  have shrinks := before.shrinks
  have shrinks' := after.shrinks
  rcases after.flag with unchanged | ⟨set, fewer⟩
  · rcases before.flag with unchanged' | ⟨set', fewer'⟩
    · exact .inl (unchanged.trans unchanged')
    · exact .inr ⟨unchanged.trans set', by omega⟩
  · exact .inr ⟨set, by omega⟩

end Advances

section Pass

variable {mod : Module} (types : mod.types.Built)

/-- An instruction for which nothing was found leaves the function alone. -/
theorem unchanged_of_interns {f : Function} (consistent : f.Consistent) {i : InstId}
    {simplified : ValueId × Function} (interns : Interns f simplified)
    (nothing : ¬ (simplified.1 ≠ 0 ∧ simplified.1 ≠ (f.inst i).result)) :
    simplified.2 = f := by
  rcases interns with same | ⟨kind, type, payload, payload2, -, rfl⟩
  · exact same
  · rw [internConstant] at nothing ⊢
    split
    case h_1 => rfl
    case h_2 absent =>
      simp only [absent] at nothing
      refine absurd ⟨Nat.pos_iff_ne_zero.mp consistent.valuesPos, ?_⟩ nothing
      intro isResult
      by_cases produces : (f.inst i).result = 0
      · exact Nat.pos_iff_ne_zero.mp consistent.valuesPos (isResult.trans produces)
      · have bounded := (Slots.isValid_iff.mp (consistent.results i produces).2.1).2
        exact Nat.lt_irrefl _ (isResult ▸ bounded)

include types

theorem visitInst_advances {f : Function} (flag : Bool)
    (simplifiable : Simplifiable mod f) {b : BlockId} (laidOut : b ∈ f.layout) {i : InstId}
    (member : i ∈ f.blockInsts b) :
    Advances mod (f, flag) (visitInst mod (f, flag) i) ∧
      ∀ j ∈ f.blockInsts b, j ≠ i → j ∈ (visitInst mod (f, flag) i).1.blockInsts b := by
  have consistent := simplifiable.single.consistent
  rw [visitInst]
  dsimp only
  split
  case isFalse => exact ⟨.refl mod _, fun j still _ => still⟩
  rename_i candidate
  split
  case isFalse nothing =>
    rw [unchanged_of_interns consistent simplifyInst_interns nothing]
    exact ⟨.refl mod _, fun j still _ => still⟩
  case isTrue answer =>
    obtain ⟨index, atIndex⟩ := getElem?_of_mem member
    have found : f.instAt (b, index) i := atIndex
    have linked : f.Linked i := ⟨b, laidOut, member⟩
    obtain ⟨inside, justified⟩ := simplifyInst_justified simplifiable types found linked answer.1
    have produces := simplifiable.labelled.produced i (consistent.attached b i member).2.1
      candidate.1
    have simplified : Simplified mod f i (b, index) :=
      ⟨found, linked, produces, inside, answer.2, answer.1, justified⟩
    have replaces := simplified.replaces simplifiable
    have fewer := simplified.instCount_lt simplifiable
    refine ⟨⟨.step .refl simplified, replaces.layout, fewer.le, .inr ⟨rfl, fewer⟩⟩, ?_⟩
    intro j still other
    have kept : j ∈ (f.blockInsts b).erase i := (mem_erase_of_ne other).mpr still
    exact replaces.insts b ▸ kept

theorem visitInsts_advances {b : BlockId} {pending : List InstId} (nodup : pending.Nodup)
    {state : Function × Bool} (built : state.1.Built) (simplifiable : Simplifiable mod state.1)
    (laidOut : b ∈ state.1.layout) (members : ∀ i ∈ pending, i ∈ state.1.blockInsts b) :
    Advances mod state (pending.foldl (visitInst mod) state) := by
  induction pending generalizing state with
  | nil => exact .refl mod state
  | cons i pending ih =>
    obtain ⟨visited, others⟩ := visitInst_advances types state.2 simplifiable laidOut
      (members i mem_cons_self)
    obtain ⟨outside, nodup⟩ := nodup_cons.mp nodup
    obtain ⟨built', simplifiable'⟩ := visited.rewrites.invariant built simplifiable
    refine visited.trans (ih nodup built' simplifiable' ?_ ?_)
    · exact visited.layout ▸ laidOut
    · intro j later
      refine others j (members j (mem_cons_of_mem _ later)) ?_
      rintro rfl
      exact outside later

theorem visitBlocks_advances {pending : List BlockId} {state : Function × Bool}
    (built : state.1.Built) (simplifiable : Simplifiable mod state.1)
    (laidOut : ∀ b ∈ pending, b ∈ state.1.layout) :
    Advances mod state (pending.foldl (visitBlock mod) state) := by
  induction pending generalizing state with
  | nil => exact .refl mod state
  | cons b pending ih =>
    have visited : Advances mod state (visitBlock mod state b) :=
      visitInsts_advances types (simplifiable.single.consistent.instsNodup b) built
        simplifiable (laidOut b mem_cons_self) fun _ member => member
    obtain ⟨built', simplifiable'⟩ := visited.rewrites.invariant built simplifiable
    refine visited.trans (ih built' simplifiable' ?_)
    intro c later
    exact visited.layout ▸ laidOut c (mem_cons_of_mem _ later)

omit types in
theorem runInstsimplify_mono {fuel more : ℕ} (le : fuel ≤ more) {f : Function}
    {answer : Function × Bool} (ends : runInstsimplify mod fuel f = some answer) :
    runInstsimplify mod more f = some answer := by
  induction fuel generalizing f more answer with
  | zero => cases ends
  | succ fuel ih =>
    obtain ⟨more, rfl⟩ := Nat.exists_eq_succ_of_ne_zero (show more ≠ 0 by omega)
    rw [runInstsimplify] at ends ⊢
    dsimp only at ends ⊢
    split at ends
    case isTrue changed =>
      obtain ⟨rest, later, rfl⟩ := Option.map_eq_some_iff.mp ends
      rw [if_pos changed, ih (Nat.le_of_succ_le_succ le) later]
      rfl
    case isFalse unchanged =>
      rw [if_neg unchanged, ends]

/-- Rounds with a change delete an instruction, so they come to an end. -/
theorem runInstsimplify_rewrites {fuel : ℕ} {f : Function} (built : f.Built)
    (simplifiable : Simplifiable mod f) (enough : instCount f < fuel) :
    ∃ g changed, runInstsimplify mod fuel f = some (g, changed) ∧ Rewrites mod f g := by
  induction fuel generalizing f with
  | zero => exact absurd enough (Nat.not_lt_zero _)
  | succ fuel ih =>
    have round : Advances mod (f, false) (simplifyRound mod f) :=
      visitBlocks_advances types built simplifiable fun _ member => member
    rw [runInstsimplify]
    dsimp only
    split
    case isTrue changed =>
      have fewer : instCount (simplifyRound mod f).1 < instCount f := by
        rcases round.flag with unchanged | ⟨-, fewer⟩
        · rw [unchanged] at changed
          cases changed
        · exact fewer
      obtain ⟨built', simplifiable'⟩ := round.rewrites.invariant built simplifiable
      obtain ⟨g, changed, ends, rewrites⟩ := ih built' simplifiable' (by omega)
      exact ⟨g, true, by rw [ends]; rfl, round.rewrites.trans rewrites⟩
    case isFalse => exact ⟨_, _, rfl, round.rewrites⟩

end Pass

/-- The pass ends on every function that the verifier accepts.  It performs
justified rewrites only, interns canonical constants only, and the instructions
that remain are executed with the same operands as before. -/
theorem runInstsimplify_sound {mod : Module} {f : Function} (types : mod.types.Built)
    (built : f.Built) (accepts : Accepts mod f) :
    ∃ g changed bound,
      (∀ fuel, bound ≤ fuel → runInstsimplify mod fuel f = some (g, changed)) ∧
      Rewrites mod f g ∧
      (∀ v, g.isValidValue v = true → f.isValidValue v = false →
        g.isConstant v = true ∧ CanonicalData mod (g.value v)) ∧
      ∀ (World : Type) (interp : Interp World) (kept : InstId → Bool),
        (∀ j, kept j = true → (g.inst j).block ≠ 0) →
        ∀ (arguments : List Val) (junk : Env) (world : World),
          Machine.SameBehaviour (machine interp mod f kept) finalWorld
            (start f arguments junk world) (machine interp mod g kept) finalWorld
            (start g arguments junk world) := by
  cases defined : f.isDeclaration with
  | true =>
    have empty : f.layout = [] := by simpa [isDeclaration] using defined
    refine ⟨f, false, 1, ?_, .refl, Rewrites.refl.interned.2, ?_⟩
    · intro fuel enough
      refine runInstsimplify_mono enough ?_
      simp [runInstsimplify, simplifyRound, empty]
    · intro World interp kept _ arguments junk world
      exact .refl _
  | false =>
    have simplifiable := built.simplifiable accepts defined
    obtain ⟨g, changed, ends, rewrites⟩ :=
      runInstsimplify_rewrites types built simplifiable (Nat.lt_succ_self _)
    refine ⟨g, changed, _, fun fuel enough => runInstsimplify_mono enough ends, rewrites,
      rewrites.interned.2, ?_⟩
    intro World interp kept remaining arguments junk world
    exact rewrites.sameBehaviour built simplifiable remaining interp arguments junk world

def sumModule : Module where
  types := (TypeTable.initial.getSignature { retClass := .scalar, retType := types.I32 }).2
  pointerWidth := 64

def sumConstants : Function :=
  (((({ name := "f", sig := 1 : Function }.createBlock []).2.constInt types.I32 2 0).2.constInt
    types.I32 3 0).2.makeInst .iadd types.I32 [1, 2]).2

/-- Returns the sum of two and three. -/
def returnsSum : Function :=
  ((sumConstants.makeInst .ret 0 [3]).2.appendInst 1 1).appendInst 1 2

theorem returnsSum_built : returnsSum.Built := by
  have insts : sumConstants.Built := by
    refine .makeInst _ _ _ _ _ _ _ (.internConstant _ _ _ (.internConstant _ _ _
      (.createBlock _ (.new _ _) ?_) ?_ ?_) ?_ ?_) ?_ ?_ <;> decide
  refine .appendInst (.appendInst (.makeInst _ _ _ _ _ _ _ insts ?_ ?_) ?_ ?_ ?_) ?_ ?_ ?_ <;>
    decide

theorem returnsSum_accepts : Accepts sumModule returnsSum := ⟨10, [], by decide, rfl⟩

theorem returnsSum_simplified :
    ∃ g changed bound,
      (∀ fuel, bound ≤ fuel → runInstsimplify sumModule fuel returnsSum = some (g, changed)) ∧
      Rewrites sumModule returnsSum g ∧
      (∀ v, g.isValidValue v = true → returnsSum.isValidValue v = false →
        g.isConstant v = true ∧ CanonicalData sumModule (g.value v)) ∧
      ∀ (World : Type) (interp : Interp World) (kept : InstId → Bool),
        (∀ j, kept j = true → (g.inst j).block ≠ 0) →
        ∀ (arguments : List Val) (junk : Env) (world : World),
          Machine.SameBehaviour (machine interp sumModule returnsSum kept) finalWorld
            (start returnsSum arguments junk world) (machine interp sumModule g kept) finalWorld
            (start g arguments junk world) :=
  runInstsimplify_sound (.getSignature _ .new) returnsSum_built returnsSum_accepts

end Aburi.Air
