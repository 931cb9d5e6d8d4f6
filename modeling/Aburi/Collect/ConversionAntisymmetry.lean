import Aburi.Collect.ConversionSequences

/-!
# Comparing conversion sequences both ways

Every tie-breaker gives the negated result when its arguments are swapped, except for
the bindings of functions: it asks only the source of the first sequence whether it is
a function.
-/

namespace Aburi.Collect

open Aburi.Cir (TypeId TypeRef)

namespace ClassGraph

variable {graph : ClassGraph}

theorem depth_lt_of_directRoutes {base : TypeId} (fuel : ℕ) {current : TypeId}
    (some : 0 < graph.directRoutes base fuel current) :
    graph.depth base < graph.depth current := by
  induction fuel generalizing current with
  | zero => simp [directRoutes] at some
  | succ fuel induction =>
    obtain ⟨number, member, positive⟩ := List.sum_pos_iff_exists_pos_nat.mp some
    obtain ⟨next, isBase, rfl⟩ := List.mem_map.mp member
    have below := graph.direct_lt current next isBase
    split at positive
    · rename_i same
      rw [← same]
      exact below
    · exact (induction positive).trans below

theorem depth_lt_of_routes {derived base : TypeId} (some : 0 < graph.routes derived base) :
    graph.depth base < graph.depth derived := by
  by_cases direct : 0 < graph.directRoutes base (graph.depth derived) derived
  · exact depth_lt_of_directRoutes _ direct
  · have virtual : 0 < ((graph.virtualBases derived).map fun next =>
        if next = base then 1 else graph.directRoutes base (graph.depth next) next).sum := by
      unfold routes at some
      omega
    obtain ⟨number, member, positive⟩ := List.sum_pos_iff_exists_pos_nat.mp virtual
    obtain ⟨next, isBase, rfl⟩ := List.mem_map.mp member
    have below := graph.virtual_lt derived next isBase
    split at positive
    · rename_i same
      rw [← same]
      exact below
    · exact (depth_lt_of_directRoutes _ positive).trans below

end ClassGraph

theorem orElse_neg {first second first' second' : ℤ} (negated : first' = -first)
    (negated' : second' = -second) : orElse first' second' = -orElse first second := by
  subst negated negated'
  unfold orElse
  by_cases zero : first = 0
  · simp [zero]
  · simp [zero]

namespace ConversionFile

variable {file : ConversionFile}

theorem isDerivedFrom_asymm {derived base : TypeId}
    (isDerived : file.isDerivedFrom derived base = true) :
    file.isDerivedFrom base derived = false := by
  have routes : ∀ first second, file.isDerivedFrom first second = true →
      0 < file.classes.routes (file.resolvedType first) (file.resolvedType second) := by
    intro first second isDerived
    unfold isDerivedFrom analyzeDerivedToBasePath at isDerived
    dsimp only at isDerived
    by_contra none
    have zero : file.classes.routes (file.resolvedType first) (file.resolvedType second) =
        0 := by omega
    rw [zero] at isDerived
    simp at isDerived
  have below := ClassGraph.depth_lt_of_routes (routes _ _ isDerived)
  by_contra other
  have above := ClassGraph.depth_lt_of_routes
    (routes _ _ (Bool.not_eq_false _ ▸ other : file.isDerivedFrom base derived = true))
  omega

theorem compareDerived_neg (a b : TypeId) :
    file.compareDerived b a = -file.compareDerived a b := by
  unfold compareDerived
  cases first : file.isDerivedFrom a b with
  | true => simp [isDerivedFrom_asymm first]
  | false => cases file.isDerivedFrom b a <;> simp

/-- A comparison that is only asked when two things agree. -/
theorem ifSame_neg {same same' : Prop} [Decidable same] [Decidable same']
    {first second : ℤ} (agree : same' ↔ same) (negated : same → second = -first) :
    (if same' then second else 0) = -(if same then first else 0) := by
  by_cases holds : same
  · rw [if_pos holds, if_pos (agree.mpr holds)]
    exact negated holds
  · rw [if_neg holds, if_neg (mt agree.mp holds)]
    rfl

theorem prefer_neg (a b : Bool) :
    (if b ≠ a then if b then (1 : ℤ) else -1 else 0) =
      -(if a ≠ b then if a then (1 : ℤ) else -1 else 0) := by
  cases a <;> cases b <;> rfl

theorem fewer_neg (a b : ℕ) :
    (if b ≠ a then if b < a then (1 : ℤ) else -1 else 0) =
      -(if a ≠ b then if a < b then (1 : ℤ) else -1 else 0) := by
  rcases Nat.lt_trichotomy a b with less | rfl | more
  · rw [if_pos less.ne', if_neg less.asymm, if_pos less.ne, if_pos less]
  · simp
  · rw [if_pos more.ne, if_pos more, if_pos more.ne', if_neg more.asymm]
    rfl

theorem compareArrays_neg (lhs rhs : ListInitializationPlan) :
    file.compareArrays rhs lhs = -file.compareArrays lhs rhs := by
  unfold compareArrays
  cases file.shape (file.resolvedType lhs.target.type) with
  | none => cases file.shape (file.resolvedType rhs.target.type) <;> simp
  | some lhsShape =>
    cases file.shape (file.resolvedType rhs.target.type) with
    | none => simp
    | some rhsShape =>
      cases lhsShape <;> cases rhsShape <;> try rfl
      rename_i lhsElement lhsSize rhsElement rhsSize
      dsimp only
      by_cases same : file.resolvedType lhsElement = file.resolvedType rhsElement
      · rw [if_pos same, if_pos same.symm]
        exact orElse_neg (fewer_neg _ _) (prefer_neg _ _)
      · rw [if_neg same, if_neg (Ne.symm same)]
        rfl

theorem comparePlans_neg (lhs rhs : ConversionDetail) :
    file.comparePlans rhs lhs = -file.comparePlans lhs rhs := by
  unfold comparePlans
  cases lhs.listPlan with
  | none => cases rhs.listPlan <;> rfl
  | some lhsPlan =>
    cases rhs.listPlan with
    | none => rfl
    | some rhsPlan =>
      dsimp only
      by_cases same : lhsPlan.destination = rhsPlan.destination
      · simp only [same, ne_eq, not_true, if_false]
        split
        · exact compareArrays_neg _ _
        · rfl
      · rw [if_pos (Ne.symm same), if_pos same]
        by_cases isList : lhsPlan.destination = .initializerList
        · rw [if_pos isList, if_neg (by rw [← isList]; exact Ne.symm same), if_pos isList]
        · rw [if_neg isList, if_neg isList]
          split <;> rfl

theorem compareRanks_neg (lhs rhs : ConversionRank) :
    compareRanks rhs lhs = -compareRanks lhs rhs := by
  cases lhs <;> cases rhs <;> rfl

theorem standardAdjustmentExtends_asymm {base adjusted : ConversionDetail}
    (extends_ : file.standardAdjustmentExtends base adjusted = true) :
    file.standardAdjustmentExtends adjusted base = false := by
  have adjustedHas : hasAdjustment adjusted.standard = true := by
    by_contra none
    simp [standardAdjustmentExtends, none] at extends_
  simp [standardAdjustmentExtends, adjustedHas]

theorem compareAdjustments_neg (lhs rhs : ConversionDetail) :
    file.compareAdjustments rhs lhs = -file.compareAdjustments lhs rhs := by
  unfold compareAdjustments
  cases first : file.standardAdjustmentExtends lhs rhs with
  | true => simp [standardAdjustmentExtends_asymm first]
  | false => cases file.standardAdjustmentExtends rhs lhs <;> simp

theorem qualificationComparable_comm (a b : StandardConversionSequence) :
    qualificationComparable b a = true ↔ qualificationComparable a b = true := by
  have swapped : ∀ first second : StandardConversionSequence,
      qualificationComparable first second = true →
        qualificationComparable second first = true := by
    intro first second comparable
    unfold qualificationComparable at comparable ⊢
    simp only [Bool.and_eq_true, beq_iff_eq, bne_iff_ne] at comparable ⊢
    obtain ⟨⟨⟨⟨⟨⟨source, same⟩, target⟩, target'⟩, differ⟩, adjusts⟩, rest⟩ := comparable
    refine ⟨⟨⟨⟨⟨⟨same ▸ source, same.symm⟩, target'⟩, target⟩, differ.symm⟩, ?_⟩, rest.symm⟩
    rw [UInt16.or_comm]
    exact adjusts
  exact ⟨swapped b a, swapped a b⟩

theorem qualificationYieldCompare_neg (a b : StandardConversionSequence) :
    file.qualificationYieldCompare b a = -file.qualificationYieldCompare a b := by
  unfold qualificationYieldCompare
  apply ifSame_neg (qualificationComparable_comm a b)
  intro _
  cases file.lessQualified a.target b.target <;> cases file.lessQualified b.target a.target <;> rfl

theorem compareToBool_neg (aFrom bFrom : TypeId) (a b : StandardConversionSequence) :
    file.compareToBool bFrom aFrom b a = -file.compareToBool aFrom bFrom a b := by
  unfold compareToBool
  generalize (aFrom.valid && file.isBoolType a.target.type) = aToBool
  generalize (bFrom.valid && file.isBoolType b.target.type) = bToBool
  cases aToBool <;> cases bToBool <;> rfl

section

variable (a b : StandardConversionSequence)
include a b

theorem compareMemberPointers_neg :
    file.compareMemberPointers b a = -file.compareMemberPointers a b := by
  unfold compareMemberPointers
  dsimp only
  apply ifSame_neg
  · simp only [Bool.and_eq_true]
    tauto
  · intro _
    apply orElse_neg
    · exact ifSame_neg eq_comm fun _ => compareDerived_neg _ _
    · exact ifSame_neg eq_comm fun _ => compareDerived_neg _ _

theorem comparePointers_neg :
    file.comparePointers b a = -file.comparePointers a b := by
  unfold comparePointers
  dsimp only
  apply ifSame_neg
  · simp only [Bool.and_eq_true]
    tauto
  · intro _
    apply orElse_neg
    · apply ifSame_neg eq_comm
      intro _
      have derived := @compareDerived_neg file (file.pointeeType a.target)
        (file.pointeeType b.target)
      cases file.isVoidType (file.pointeeType a.target) <;>
        cases file.isVoidType (file.pointeeType b.target) <;> simp [derived]
    · exact ifSame_neg eq_comm fun _ => compareDerived_neg _ _

theorem compareRecords_neg :
    file.compareRecords b a = -file.compareRecords a b := by
  unfold compareRecords
  apply orElse_neg
  · apply ifSame_neg
    · constructor
      · exact fun ⟨same, isFirst, isSecond⟩ => ⟨same.symm, isSecond, isFirst⟩
      · exact fun ⟨same, isFirst, isSecond⟩ => ⟨same.symm, isSecond, isFirst⟩
    · exact fun _ => compareDerived_neg _ _
  · apply ifSame_neg
    · constructor
      · exact fun ⟨same, isFirst, isSecond⟩ => ⟨same.symm, isSecond, isFirst⟩
      · exact fun ⟨same, isFirst, isSecond⟩ => ⟨same.symm, isSecond, isFirst⟩
    · exact fun _ => compareDerived_neg _ _

theorem hierarchyStandardCompare_neg :
    file.hierarchyStandardCompare b a = -file.hierarchyStandardCompare a b := by
  unfold hierarchyStandardCompare
  apply ifSame_neg
  · simp only [Bool.and_eq_true]
    tauto
  · intro _
    apply orElse_neg (compareToBool_neg _ _ _ _)
    apply orElse_neg (compareToBool_neg _ _ _ _)
    apply orElse_neg (compareMemberPointers_neg _ _)
    exact orElse_neg (comparePointers_neg _ _) (compareRecords_neg _ _)

theorem bindReferences_comm :
    file.bindReferences b a = file.bindReferences a b := by
  unfold bindReferences
  rw [Bool.eq_iff_iff]
  simp only [Bool.and_eq_true, beq_iff_eq, eq_comm (a := b.sourceCategory)]
  tauto

end

/-- Swapping two bindings of references that are told apart by their kinds. -/
theorem bindings_neg (applies : Bool) (aKind bKind : Bool) :
    (if applies && bKind != aKind then if bKind then (1 : ℤ) else -1 else 0) =
      -(if applies && aKind != bKind then if aKind then (1 : ℤ) else -1 else 0) := by
  cases applies <;> cases aKind <;> cases bKind <;> rfl

theorem compareRvalueBindings_neg (a b : StandardConversionSequence) :
    file.compareRvalueBindings b a = -file.compareRvalueBindings a b := by
  unfold compareRvalueBindings
  rw [bindReferences_comm a b]
  cases binds : file.bindReferences a b with
  | false => rfl
  | true =>
    have sameCategory : a.sourceCategory = b.sourceCategory := by
      unfold bindReferences at binds
      simp only [Bool.and_eq_true, beq_iff_eq] at binds
      exact binds.2
    rw [← sameCategory]
    exact bindings_neg _ _ _

theorem compareTrailing_neg (lhs rhs : ConversionDetail) :
    compareTrailing rhs lhs = -compareTrailing lhs rhs := by
  unfold compareTrailing
  cases lhs.trailingStandard.trailingBinding <;> cases rhs.trailingStandard.trailingBinding <;> rfl

theorem eq_of_masked {first second : UInt8} (below : first &&& ~~~second = 0)
    (above : second &&& ~~~first = 0) : first = second := by
  apply UInt8.eq_of_toBitVec_eq
  apply BitVec.eq_of_getLsbD_eq
  intro i within
  have belowBit := congrArg (fun value : UInt8 => value.toBitVec.getLsbD i) below
  have aboveBit := congrArg (fun value : UInt8 => value.toBitVec.getLsbD i) above
  simp [within] at belowBit aboveBit
  cases isFirst : first.toBitVec.getLsbD i <;> cases isSecond : second.toBitVec.getLsbD i <;>
    simp_all

theorem compareBound_neg (lhs rhs : StandardConversionSequence) :
    compareBound rhs lhs = -compareBound lhs rhs := by
  unfold compareBound
  apply ifSame_neg
  · constructor
    · exact fun ⟨valid, same, differ⟩ => ⟨same ▸ valid, same.symm, differ.symm⟩
    · exact fun ⟨valid, same, differ⟩ => ⟨same ▸ valid, same.symm, differ.symm⟩
  · rintro ⟨_, _, differ⟩
    by_cases below : lhs.boundQualifiers &&& ~~~rhs.boundQualifiers = 0
    · have notAbove : ¬rhs.boundQualifiers &&& ~~~lhs.boundQualifiers = 0 :=
        fun above => differ (eq_of_masked below above)
      rw [if_pos below, if_neg notAbove, if_pos below]
    · rw [if_neg below, if_neg below]
      split <;> rfl

theorem compareFinal_neg (rank : ConversionRank) (lhs rhs : ConversionDetail) :
    file.compareFinal rank rhs lhs = -file.compareFinal rank lhs rhs := by
  have sameUser : sameUserConversion rhs lhs = sameUserConversion lhs rhs := by
    unfold sameUserConversion
    rw [Bool.and_comm rhs.userConversionUnique, Bool.beq_comm]
  have sameAggregate : file.sameAggregateInitialization rhs lhs =
      file.sameAggregateInitialization lhs rhs := by
    unfold sameAggregateInitialization
    cases lhs.listPlan with
    | none => cases rhs.listPlan <;> rfl
    | some lhsPlan =>
      cases rhs.listPlan with
      | none => rfl
      | some rhsPlan =>
        dsimp only
        rw [Bool.and_comm (rhsPlan.destination == _),
          Bool.beq_comm (a := file.resolvedType rhsPlan.target.type)]
  unfold compareFinal
  rw [sameUser, sameAggregate]
  split
  · split
    · rfl
    · exact orElse_neg (compareTrailing_neg _ _) (compareBound_neg _ _)
  · exact compareBound_neg _ _

theorem compareEarly_neg (lhsRank : ConversionRank) (lhs : ConversionDetail)
    (rhsRank : ConversionRank) (rhs : ConversionDetail) (implicitObjectParameter : Bool) :
    file.compareEarly rhsRank rhs lhsRank lhs implicitObjectParameter =
      -file.compareEarly lhsRank lhs rhsRank rhs implicitObjectParameter := by
  unfold compareEarly
  apply orElse_neg (comparePlans_neg _ _)
  apply orElse_neg (compareRanks_neg _ _)
  apply orElse_neg (compareAdjustments_neg _ _)
  apply orElse_neg (qualificationYieldCompare_neg _ _)
  split
  · rfl
  · exact orElse_neg (hierarchyStandardCompare_neg _ _) (compareRvalueBindings_neg _ _)

theorem compareRanks_eq_zero {lhs rhs : ConversionRank} (undecided : compareRanks lhs rhs = 0) :
    lhs = rhs := by
  by_contra differ
  unfold compareRanks at undecided
  rw [if_pos differ] at undecided
  split at undecided <;> contradiction

theorem orElse_eq_zero {first second : ℤ} :
    orElse first second = 0 ↔ first = 0 ∧ second = 0 := by
  unfold orElse
  by_cases zero : first = 0
  · simp [zero]
  · simp [zero]

theorem compareEarly_sameRank {lhsRank rhsRank : ConversionRank} {lhs rhs : ConversionDetail}
    {implicitObjectParameter : Bool}
    (undecided : file.compareEarly lhsRank lhs rhsRank rhs implicitObjectParameter = 0) :
    lhsRank = rhsRank :=
  compareRanks_eq_zero (orElse_eq_zero.1 (orElse_eq_zero.1 undecided).2).1

/-- Both sequences bind a reference, one to an lvalue and the other to an rvalue, but
only one of them starts from a function. -/
def FunctionBindingsDisagree (file : ConversionFile) (a b : StandardConversionSequence) :
    Prop :=
  file.bindReferences a b = true ∧
    file.isLvalueReference a.target.type ≠ file.isLvalueReference b.target.type ∧
    file.sourceIsLvalueFunction a ≠ file.sourceIsLvalueFunction b

/-- The binding of an lvalue is preferred. -/
def lvalueBinding (file : ConversionFile) (a : StandardConversionSequence) : ℤ :=
  if file.isLvalueReference a.target.type then 1 else -1

theorem compareFunctionBindings_eq (a b : StandardConversionSequence)
    (binds : file.bindReferences a b = true)
    (differ : file.isLvalueReference a.target.type ≠ file.isLvalueReference b.target.type) :
    file.compareFunctionBindings a b =
      if file.sourceIsLvalueFunction a then lvalueBinding file a else 0 := by
  unfold compareFunctionBindings lvalueBinding
  rw [binds, bne_iff_ne.mpr differ]
  cases file.sourceIsLvalueFunction a <;> rfl

theorem lvalueBinding_neg {a b : StandardConversionSequence}
    (differ : file.isLvalueReference a.target.type ≠ file.isLvalueReference b.target.type) :
    lvalueBinding file b = -lvalueBinding file a := by
  unfold lvalueBinding
  revert differ
  cases file.isLvalueReference a.target.type <;> cases file.isLvalueReference b.target.type <;> simp

theorem compareFunctionBindings_neg {a b : StandardConversionSequence}
    (agree : ¬FunctionBindingsDisagree file a b) :
    file.compareFunctionBindings b a = -file.compareFunctionBindings a b := by
  unfold compareFunctionBindings
  rw [bindReferences_comm a b]
  cases binds : file.bindReferences a b with
  | false => rfl
  | true =>
    by_cases differ : file.isLvalueReference a.target.type = file.isLvalueReference b.target.type
    · simp [differ]
    · have sameSource : file.sourceIsLvalueFunction a = file.sourceIsLvalueFunction b := by
        by_contra other
        exact agree ⟨binds, differ, other⟩
      rw [← sameSource]
      exact bindings_neg _ _ _

/-- When a comparison is decided the same way from both sides: the sources agree about
being functions, or another tie-breaker decides, as the binding does. -/
def DecidedBothWays (file : ConversionFile) (lhsRank : ConversionRank)
    (lhs : ConversionDetail) (rhsRank : ConversionRank) (rhs : ConversionDetail)
    (implicitObjectParameter : Bool) : Prop :=
  implicitObjectParameter = false → FunctionBindingsDisagree file lhs.standard rhs.standard →
    file.compareEarly lhsRank lhs rhsRank rhs implicitObjectParameter = 0 →
      file.compareFinal lhsRank lhs rhs = lvalueBinding file lhs.standard

theorem compareImplicitConversionSequences_neg_iff (lhsRank : ConversionRank)
    (lhs : ConversionDetail) (rhsRank : ConversionRank) (rhs : ConversionDetail)
    (implicitObjectParameter : Bool) :
    file.compareImplicitConversionSequences rhsRank rhs lhsRank lhs implicitObjectParameter =
        -file.compareImplicitConversionSequences lhsRank lhs rhsRank rhs implicitObjectParameter ↔
      DecidedBothWays file lhsRank lhs rhsRank rhs implicitObjectParameter := by
  have early := @compareEarly_neg file lhsRank lhs rhsRank rhs implicitObjectParameter
  unfold compareImplicitConversionSequences
  rw [early]
  by_cases undecided : file.compareEarly lhsRank lhs rhsRank rhs implicitObjectParameter = 0
  · have sameRank : lhsRank = rhsRank := compareEarly_sameRank undecided
    have final := @compareFinal_neg file lhsRank lhs rhs
    rw [undecided, ← sameRank, final]
    simp only [orElse, Int.neg_zero, ne_eq, not_true, if_false]
    cases implicitObjectParameter with
    | true => simp [DecidedBothWays]
    | false =>
      by_cases disagree : FunctionBindingsDisagree file lhs.standard rhs.standard
      · obtain ⟨binds, differ, sources⟩ := disagree
        rw [compareFunctionBindings_eq _ _ binds differ,
          compareFunctionBindings_eq _ _ (bindReferences_comm _ _ ▸ binds) (Ne.symm differ),
          lvalueBinding_neg differ]
        have decided : lvalueBinding file lhs.standard ≠ 0 := by
          unfold lvalueBinding
          split <;> decide
        have condition : DecidedBothWays file lhsRank lhs lhsRank rhs false ↔
            file.compareFinal lhsRank lhs rhs = lvalueBinding file lhs.standard := by
          constructor
          · exact fun both => both rfl ⟨binds, differ, sources⟩ (sameRank ▸ undecided)
          · exact fun same _ _ _ => same
        rw [condition]
        revert sources
        cases file.sourceIsLvalueFunction lhs.standard <;>
          cases file.sourceIsLvalueFunction rhs.standard <;> simp [decided]
        omega
      · have swapped := compareFunctionBindings_neg disagree
        rw [swapped]
        constructor
        · exact fun _ _ other _ => absurd other disagree
        · intro _
          have negated := @orElse_neg _ _ _ _ swapped final
          simpa [orElse, swapped, final] using negated
  · constructor
    · exact fun _ _ _ other => absurd other undecided
    · intro _
      simp [orElse, undecided]

end ConversionFile

end Aburi.Collect
