import Aburi.Collect.ConstraintNormalForm
import Aburi.Collect.TemplateEquivalenceSound

/-!
# Identical atomic constraints

Atomic constraints are identical when they come from one place and their
parameters are mapped to equivalent arguments, in whatever order the mappings
are listed.  Among constraints that know the types of their values this is an
equivalence relation.
-/

namespace Aburi.Collect

open Aburi.Cir List
open Bool (and_eq_true false_eq_true)

/-- What a mapping names its parameter by. -/
def ConstraintParameterMapping.key (mapping : ConstraintParameterMapping) :
    EntityId ⊕ (TemplateParameterKind × UInt32 × UInt32 × Option TemplateTemplateParameterKind) :=
  if mapping.parameterEntity.valid then .inl mapping.parameterEntity
  else
    .inr (mapping.parameterKind, mapping.parameterDepth, mapping.parameterIndex,
      if mapping.parameterKind = .template then some mapping.parameterTemplateTemplateKind
      else none)

theorem sameParameterAs_iff {mapping other : ConstraintParameterMapping} :
    mapping.sameParameterAs other = true ↔ mapping.key = other.key := by
  rw [ConstraintParameterMapping.sameParameterAs, ConstraintParameterMapping.key,
    ConstraintParameterMapping.key]
  cases here : mapping.parameterEntity.valid <;> cases there : other.parameterEntity.valid
  case false.false =>
    simp only [Bool.or_false, false_eq_true, if_false, and_eq_true, beq_iff_eq,
      Bool.or_eq_true, bne_iff_ne, Sum.inr.injEq, Prod.mk.injEq]
    grind
  case true.true => simp
  all_goals
    simp only [Bool.or_false, Bool.or_true, if_true, false_eq_true, if_false,
      beq_iff_eq, reduceCtorEq, iff_false]
    intro same
    simp [same, there] at here

namespace Session

variable (session : Session)

def mappingTyped (mapping : ConstraintParameterMapping) : Bool :=
  argumentIsTyped mapping.argument &&
    match mapping.argumentPack with
    | some arguments => arguments.all argumentIsTyped
    | none => true

def mappingArgumentsEquivalent (lhs rhs : ConstraintParameterMapping) : Bool :=
  session.argumentsEquivalent lhs.argument rhs.argument &&
    session.packsEquivalent lhs.argumentPack rhs.argumentPack

theorem refs_decides : Decides session.refsEqual := templateTypeRefs_decides _ _

theorem argumentsEquivalent_decides :
    DecidesOn (fun argument => argumentIsTyped argument = true) session.argumentsEquivalent :=
  arguments_decides session.refs_decides

theorem argumentListsEquivalent_decides :
    DecidesOn (fun arguments => ∀ argument ∈ arguments, argumentIsTyped argument = true)
      session.argumentListsEquivalent :=
  session.argumentsEquivalent_decides.lists

theorem mappingArguments_decides :
    DecidesOn (fun mapping => mappingTyped mapping = true) session.mappingArgumentsEquivalent := by
  have arguments := session.argumentsEquivalent_decides
  have lists := session.argumentListsEquivalent_decides
  constructor
  · intro a typed
    rw [mappingTyped, and_eq_true] at typed
    rw [mappingArgumentsEquivalent, arguments.refl _ typed.1, Bool.true_and]
    cases pack : a.argumentPack with
    | none => rfl
    | some items =>
      rw [pack] at typed
      exact lists.refl items (List.all_eq_true.mp typed.2)
  · intro a b equal
    rw [mappingArgumentsEquivalent, and_eq_true] at equal ⊢
    refine ⟨arguments.symm equal.1, ?_⟩
    cases pack : a.argumentPack <;> cases pack' : b.argumentPack <;>
      simp_all [packsEquivalent, lists.symm]
  · intro a b c typed left right
    rw [mappingTyped, and_eq_true] at typed
    rw [mappingArgumentsEquivalent, and_eq_true] at left right ⊢
    refine ⟨arguments.trans typed.1 left.1 right.1, ?_⟩
    cases pack : a.argumentPack <;> cases pack' : b.argumentPack <;>
      cases pack'' : c.argumentPack <;> simp only [pack, pack', pack'', packsEquivalent,
        false_eq_true, and_false] at typed left right ⊢
    exact lists.trans (List.all_eq_true.mp typed.2) left.2 right.2

/-- The mapping that is matched is the first one of the same parameter. -/
theorem matchMapping_eq_some_iff {lhs : ConstraintParameterMapping}
    {unmatched remaining : List ConstraintParameterMapping} :
    session.matchMapping lhs unmatched = some remaining ↔
      ∃ (before : List ConstraintParameterMapping) (rhs : ConstraintParameterMapping)
          (after : List ConstraintParameterMapping),
        unmatched = before ++ rhs :: after ∧ remaining = before ++ after ∧
        (∀ other ∈ before, lhs.key ≠ other.key) ∧ lhs.key = rhs.key ∧
        session.mappingArgumentsEquivalent lhs rhs = true := by
  induction unmatched generalizing remaining with
  | nil => simp [matchMapping]
  | cons first rest ih =>
    rw [matchMapping]
    by_cases same : lhs.key = first.key
    · rw [if_pos (sameParameterAs_iff.2 same)]
      constructor
      · intro found
        split at found
        case isTrue agree =>
          cases found
          exact ⟨[], first, rest, rfl, rfl, by simp, same, agree⟩
        case isFalse => cases found
      · rintro ⟨before, rhs, after, isList, rfl, noOther, -, agree⟩
        cases before with
        | nil =>
          cases isList
          exact if_pos agree
        | cons other others =>
          cases isList
          exact absurd same (noOther first (.head _))
    · rw [if_neg (fun found => same (sameParameterAs_iff.1 found))]
      constructor
      · intro found
        obtain ⟨others, isMatch, rfl⟩ := Option.map_eq_some_iff.mp found
        obtain ⟨before, rhs, after, rfl, rfl, noOther, agree⟩ := ih.mp isMatch
        exact ⟨first :: before, rhs, after, rfl, rfl,
          List.forall_mem_cons.mpr ⟨same, noOther⟩, agree⟩
      · rintro ⟨before, rhs, after, isList, rfl, noOther, sameKey, agree⟩
        cases before with
        | nil =>
          cases isList
          exact absurd sameKey same
        | cons other others =>
          cases isList
          have isMatch := ih.mpr ⟨others, rhs, after, rfl, rfl,
            fun item mem => noOther item (.tail _ mem), sameKey, agree⟩
          rw [isMatch]
          rfl

/-- The mappings of one parameter, in their order. -/
def mappingsOf (mappings : List ConstraintParameterMapping)
    (key : EntityId ⊕
      (TemplateParameterKind × UInt32 × UInt32 × Option TemplateTemplateParameterKind)) :
    List ConstraintParameterMapping :=
  mappings.filter fun mapping => decide (mapping.key = key)

theorem mappingsMatch_iff {lhs : List ConstraintParameterMapping} :
    ∀ {rhs : List ConstraintParameterMapping}, lhs.length = rhs.length →
      (session.mappingsMatch lhs rhs = true ↔ ∀ key,
        listsEqual session.mappingArgumentsEquivalent (mappingsOf lhs key) (mappingsOf rhs key) =
          true) := by
  induction lhs with
  | nil =>
    intro rhs sameLength
    obtain rfl : rhs = [] := List.length_eq_zero_iff.mp sameLength.symm
    simp [mappingsMatch, mappingsOf, listsEqual]
  | cons first rest ih =>
    intro rhs sameLength
    -- what taking out the matched mapping does to the mappings of each parameter
    have takeOut : ∀ {before mapping after}, rhs = before ++ mapping :: after →
        (∀ other ∈ before, first.key ≠ other.key) → first.key = mapping.key →
        mappingsOf rhs first.key = mapping :: mappingsOf (before ++ after) first.key ∧
          ∀ key ≠ first.key, mappingsOf rhs key = mappingsOf (before ++ after) key := by
      rintro before mapping after rfl noOther same
      have noneBefore : mappingsOf before first.key = [] := by
        apply List.filter_eq_nil_iff.mpr
        intro other mem
        simpa using (noOther other mem).symm
      constructor
      · simp only [mappingsOf, filter_append] at noneBefore ⊢
        rw [noneBefore, filter_cons_of_pos (by simp [same])]
        rfl
      · intro key differ
        have notHere : mapping.key ≠ key := same ▸ differ.symm
        simp [mappingsOf, notHere]
    have ofFirst : mappingsOf (first :: rest) first.key = first :: mappingsOf rest first.key :=
      filter_cons_of_pos (by simp)
    have ofOther : ∀ key ≠ first.key, mappingsOf (first :: rest) key = mappingsOf rest key :=
      fun key differ => filter_cons_of_neg (by simpa using differ.symm)
    rw [mappingsMatch]
    constructor
    · intro isMatch
      split at isMatch
      case h_2 => cases isMatch
      case h_1 remaining taken =>
        obtain ⟨before, mapping, after, isList, rfl, noOther, same, agree⟩ :=
          session.matchMapping_eq_some_iff.1 taken
        have restLength : rest.length = (before ++ after).length := by
          simp only [isList, length_cons, length_append] at sameLength ⊢
          omega
        have others := (ih restLength).mp isMatch
        obtain ⟨here, there⟩ := takeOut isList noOther same
        intro key
        by_cases isFirst : key = first.key
        · rw [isFirst, ofFirst, here, listsEqual, agree, Bool.true_and]
          exact others first.key
        · rw [ofOther key isFirst, there key isFirst]
          exact others key
    · intro every
      have here := every first.key
      rw [ofFirst] at here
      cases isHere : mappingsOf rhs first.key with
      | nil =>
        rw [isHere] at here
        cases here
      | cons mapping others =>
        rw [isHere, listsEqual, and_eq_true] at here
        obtain ⟨before, after, isList, noOther, same, -⟩ := List.filter_eq_cons_iff.mp isHere
        have noOther' : ∀ other ∈ before, first.key ≠ other.key :=
          fun other mem isSame => noOther other mem (by simp [isSame])
        have same' : first.key = mapping.key := by simpa using (of_decide_eq_true same).symm
        have taken : session.matchMapping first rhs = some (before ++ after) :=
          session.matchMapping_eq_some_iff.2
            ⟨before, mapping, after, isList, rfl, noOther', same', here.1⟩
        simp only [taken]
        have restLength : rest.length = (before ++ after).length := by
          simp only [isList, length_cons, length_append] at sameLength ⊢
          omega
        obtain ⟨here', there⟩ := takeOut isList noOther' same'
        rw [ih restLength]
        intro key
        by_cases isFirst : key = first.key
        · have remaining := every first.key
          rw [ofFirst, here', listsEqual, and_eq_true] at remaining
          rw [isFirst]
          exact remaining.2
        · have remaining := every key
          rwa [ofOther key isFirst, there key isFirst] at remaining

def atomTyped (node : ConstraintAtom) : Bool :=
  node.atom.parameterMapping.all mappingTyped && node.conceptIdArguments.all argumentIsTyped

/-- Identity of two atomic constraints, as the subsumption tests it. -/
def atomsIdentical (lhs rhs : ConstraintAtom) : Bool :=
  session.normalizedConstraintsEquivalent false (.atomic lhs) (.atomic rhs)

theorem constraintAtomsIdentical_decides :
    DecidesOn (fun atom => atom.parameterMapping.all mappingTyped = true)
      session.constraintAtomsIdentical := by
  have lists := session.mappingArguments_decides.lists
  have typedOf : ∀ {mappings : List ConstraintParameterMapping}, mappings.all mappingTyped = true →
      ∀ key, ∀ mapping ∈ mappingsOf mappings key, mappingTyped mapping = true :=
    fun typed key mapping mem => List.all_eq_true.mp typed mapping (mem_of_mem_filter mem)
  have iff : ∀ {lhs rhs : ConstraintAtomIdentity},
      session.constraintAtomsIdentical lhs rhs = true ↔
        lhs.sameAppearanceAs rhs = true ∧
          lhs.parameterMapping.length = rhs.parameterMapping.length ∧
          ∀ key, listsEqual session.mappingArgumentsEquivalent
            (mappingsOf lhs.parameterMapping key) (mappingsOf rhs.parameterMapping key) = true := by
    intro lhs rhs
    rw [constraintAtomsIdentical, and_eq_true, and_eq_true, beq_iff_eq, and_assoc]
    apply and_congr_right
    intro _
    apply and_congr_right
    exact fun sameLength => session.mappingsMatch_iff sameLength
  constructor
  · intro a typed
    refine iff.mpr ⟨by simp [ConstraintAtomIdentity.sameAppearanceAs], rfl, ?_⟩
    exact fun key => lists.refl _ (typedOf typed key)
  · intro a b equal
    obtain ⟨same, sameLength, every⟩ := iff.mp equal
    refine iff.mpr ⟨?_, sameLength.symm, fun key => lists.symm (every key)⟩
    grind [ConstraintAtomIdentity.sameAppearanceAs]
  · intro a b c typed left right
    obtain ⟨same, sameLength, every⟩ := iff.mp left
    obtain ⟨same', sameLength', every'⟩ := iff.mp right
    refine iff.mpr ⟨?_, sameLength.trans sameLength', ?_⟩
    · grind [ConstraintAtomIdentity.sameAppearanceAs]
    · exact fun key => lists.trans (typedOf typed key) (every key) (every' key)

theorem conceptIds_decides :
    DecidesOn (fun node => node.conceptIdArguments.all argumentIsTyped = true)
      session.conceptIdsEquivalent := by
  have refs := session.refs_decides
  have lists := session.argumentListsEquivalent_decides
  constructor
  · intro a typed
    simp [conceptIdsEquivalent, refs.refl _, lists.refl _ (List.all_eq_true.mp typed)]
  · intro a b equal
    have symm := @refs.symm
    have listsSymm := @lists.symm
    grind [conceptIdsEquivalent]
  · intro a b c typed left right
    have trans := @refs.trans
    have listsTrans := @lists.trans a.conceptIdArguments b.conceptIdArguments c.conceptIdArguments
      (List.all_eq_true.mp typed)
    grind [conceptIdsEquivalent]

/-- Identity is an equivalence among atoms that know the types of their values. -/
theorem atomsIdentical_decides :
    DecidesOn (fun node => atomTyped node = true) session.atomsIdentical := by
  have conceptIds := session.conceptIds_decides
  have atoms := session.constraintAtomsIdentical_decides
  have iff : ∀ {lhs rhs : ConstraintAtom}, session.atomsIdentical lhs rhs = true ↔
      session.conceptIdsEquivalent lhs rhs = true ∧
        session.constraintAtomsIdentical lhs.atom rhs.atom = true := by
    intro lhs rhs
    simp [atomsIdentical, normalizedConstraintsEquivalent]
  constructor
  · intro a typed
    rw [atomTyped, and_eq_true] at typed
    exact iff.mpr ⟨conceptIds.refl a typed.2, atoms.refl _ typed.1⟩
  · intro a b equal
    obtain ⟨sameId, sameAtom⟩ := iff.mp equal
    exact iff.mpr ⟨conceptIds.symm sameId, atoms.symm sameAtom⟩
  · intro a b c typed left right
    rw [atomTyped, and_eq_true] at typed
    obtain ⟨sameId, sameAtom⟩ := iff.mp left
    obtain ⟨sameId', sameAtom'⟩ := iff.mp right
    exact iff.mpr ⟨conceptIds.trans typed.2 sameId sameId', atoms.trans typed.1 sameAtom sameAtom'⟩

end Session

end Aburi.Collect
